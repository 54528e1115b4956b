import Nix.Port.Pwait

namespace Port.Pwait

variable {S M : Type} [DecidableEq S] {st st' : State S M} {y : Proc S M} {f : Proc S M → Proc S M} {p q up : S}
  {flag : Flag} {wq : Waitmsg M} {n pid parentpid : Nat} {freemem : Bool} {w : M}

namespace State

theorem modify_self (st : State S M) (p : S) (f : Proc S M → Proc S M) : (st.modify p f).proc p = f (st.proc p) :=
  Function.update_self ..

theorem modify_ne (h : q ≠ p) : (st.modify p f).proc q = st.proc q :=
  Function.update_of_ne h ..

@[simp]
theorem pidalloc_modify (st : State S M) (p : S) (f : Proc S M → Proc S M) : (st.modify p f).pidalloc = st.pidalloc :=
  rfl

theorem living_modify [Fintype S] (st : State S M) (p : S) (f : Proc S M → Proc S M) (q : S) (pid : Nat) :
    (st.modify p f).living q pid = st.living q pid - (if (st.proc p).Child q pid then 1 else 0) +
      if (f (st.proc p)).Child q pid then 1 else 0 :=
  tally_update ..

end State

namespace Proc

theorem childexit_eq (parentpid : Nat) (wq : Waitmsg M) (y : Proc S M) :
    ∃ nchild nwait waitq, y.childexit parentpid wq = { y with nchild, nwait, waitq } := by
  rw [childexit]
  split
  case isTrue =>
    split <;> exact ⟨_, _, _, rfl⟩
  case isFalse => exact ⟨_, _, _, rfl⟩

@[simp]
theorem childexit_pc : (y.childexit parentpid wq).pc = y.pc := by
  obtain ⟨_, _, _, h⟩ := childexit_eq parentpid wq y
  rw [h]

@[simp]
theorem childexit_pid : (y.childexit parentpid wq).pid = y.pid := by
  obtain ⟨_, _, _, h⟩ := childexit_eq parentpid wq y
  rw [h]

theorem childexit_child : (y.childexit parentpid wq).Child q pid ↔ y.Child q pid := by
  obtain ⟨_, _, _, h⟩ := childexit_eq parentpid wq y
  rw [h]
  exact Iff.rfl

theorem childexit_nchild :
    (y.childexit parentpid wq).nchild = if y.pid = parentpid ∧ y.pc ≠ .broken then y.nchild - 1 else y.nchild := by
  rw [childexit]
  split
  case isTrue =>
    split <;> rfl
  case isFalse => rfl

-- What holds of the process in a slot, when the last pid was `n`.
structure Ok (n : Nat) (p : S) (y : Proc S M) : Prop where
  le        : y.pid ≤ n
  parentpid : y.parentpid ≤ n
  kp        : y.kp → y.parent = none
  pid       : y.Lives → y.pid ≠ 0
  gone      : y.pc = .dead ∨ y.pc = .moribund → y.pid = 0
  parent    : y.Lives → y.parent ≠ some p
  new       : y.pc.isNew →
    y.pid = 0 ∧ y.kp = false ∧ y.parent = none ∧ y.nchild = 0 ∧ y.nwait = 0 ∧ y.waitq = []
  nwait     : y.Lives → y.nwait = y.waitq.length ∧ y.waitq.length ≤ 128
  qwaitr    : y.qwaitr = true ↔ y.pc = .pwait ∨ y.pc = .woken
  woken     : y.pc = .woken → y.waitq ≠ []
  pwait     : y.pc = .pwait → y.waitq ≠ [] ∨ y.nchild ≠ 0

omit [DecidableEq S] in
theorem Ok.mono (h : y.Ok n p) (hn : n ≤ pid) : y.Ok pid p :=
  { h with le := h.le.trans hn, parentpid := h.parentpid.trans hn }

omit [DecidableEq S] in
theorem Ok.forked (h : y.Ok n p) (hy : y.pc.isNew) (hne : up ≠ p) (hpid : pid ≤ n) :
    (y.forked (n + 1) up pid flag).Ok (n + 1) p := by
  obtain ⟨-, hkp, hparent, hnchild, hnwait, hwaitq⟩ := h.new hy
  have hqwaitr : y.qwaitr = false := by
    have := h.qwaitr
    cases hq : y.qwaitr
    case false => rfl
    case true  => rcases h.qwaitr.mp hq with hpc | hpc <;> simp [hpc, Pc.isNew] at hy
  have hle := h.parentpid
  cases flag
  all_goals
    constructor <;>
      simp [Proc.forked, Proc.Lives, Pc.Lives, Pc.isNew, hkp, hparent, hnchild, hnwait, hwaitq, hqwaitr, hne] <;> omega

omit [DecidableEq S] in
theorem Ok.forks (h : y.Ok n p) (hl : y.pc = .rfork q) : (y.forks flag).Ok n p := by
  have hy : y.Lives := by rw [Proc.Lives, hl]; trivial
  exact
    { le        := h.le
      parentpid := h.parentpid
      kp        := h.kp
      pid       := fun _ => h.pid hy
      gone      := by simp [Proc.forks]
      parent    := fun _ => h.parent hy
      new       := by simp [Proc.forks, Pc.isNew]
      nwait     := fun _ => h.nwait hy
      qwaitr    := by simp [Proc.forks, h.qwaitr, hl]
      woken     := by simp [Proc.forks]
      pwait     := by simp [Proc.forks] }

theorem Ok.childexit (h : y.Ok n p) (hnew : y.pid = parentpid → y.pc.isNew = false) :
    (y.childexit parentpid wq).Ok n p := by
  rw [Proc.childexit]
  split
  case isFalse     => exact h
  case isTrue hpid =>
    have hnew := hnew hpid.left
    have hnwait (hl : y.Lives) := h.nwait hl
    have hpwait (hp : y.pc = .pwait) (hn : ¬y.nwait < 128) : y.waitq ≠ [] := by
      obtain ⟨hnw, -⟩ := h.nwait (by rw [Proc.Lives, hp]; trivial)
      rintro hq
      rw [hq, List.length_nil] at hnw
      omega
    split
    case isTrue hlt =>
      exact { h with
        new    := by simp [hnew]
        nwait  := fun hl => by
          obtain ⟨hnw, -⟩ := h.nwait hl
          simp only [List.length_cons]
          constructor <;> omega
        woken  := fun _ => List.cons_ne_nil _ _
        pwait  := fun _ => .inl (List.cons_ne_nil _ _) }
    case isFalse hge =>
      exact { h with
        new   := by simp [hnew]
        nwait := h.nwait
        pwait := fun hp => .inl (hpwait hp hge) }

end Proc

variable [Fintype S]

structure Sound (st : State S M) : Prop where
  ok     : ∀ p, (st.proc p).Ok st.pidalloc p
  -- each slot that is being filled has a process that does it
  made   : ∀ p up flag, (st.proc p).pc = .new up flag → (st.proc up).pc = .rfork p
  inj    : ∀ p q, (st.proc p).pid = (st.proc q).pid → (st.proc p).pid ≠ 0 → p = q
  -- no other slot has the pid of the parent
  parent : ∀ p q, (st.proc p).Lives → (st.proc p).parent = some q →
    ∀ d, (st.proc d).pid = (st.proc p).parentpid → (st.proc p).parentpid ≠ 0 → d = q
  nchild : ∀ p, (st.proc p).Lives → (st.proc p).nchild = st.living p (st.proc p).pid

namespace Sound

-- A process goes on, maybe with a pid that none had, and its children and parents are as they were.
theorem alloc (hs : Sound st) (hn : st.pidalloc ≤ n) (hok : (f (st.proc p)).Ok n p)
    (hnew : ∀ up flag, (f (st.proc p)).pc = .new up flag → up ≠ p ∧ (st.proc up).pc = .rfork p)
    (hrfork : ∀ q, (st.proc p).pc = .rfork q →
      (f (st.proc p)).pc = .rfork q ∨ ∀ up flag, (st.proc q).pc ≠ .new up flag)
    (hpid : (f (st.proc p)).pid = (st.proc p).pid ∨ (f (st.proc p)).pid = 0 ∨ st.pidalloc < (f (st.proc p)).pid)
    (hl : (f (st.proc p)).Lives → (st.proc p).Lives ∧ (f (st.proc p)).parent = (st.proc p).parent ∧
      (f (st.proc p)).parentpid = (st.proc p).parentpid ∧ (f (st.proc p)).pid = (st.proc p).pid ∧
      (f (st.proc p)).nchild = (st.proc p).nchild)
    (hc : ∀ q pid, (f (st.proc p)).Child q pid ↔ (st.proc p).Child q pid) :
    Sound { st.modify p f with pidalloc := n } := by
  generalize hst : ({ st.modify p f with pidalloc := n } : State S M) = st'
  have hn' : st'.pidalloc = n := by rw [← hst]
  have hp : st'.proc p = f (st.proc p) := by
    rw [← hst]
    exact State.modify_self ..
  have ho (x : S) (hx : x ≠ p) : st'.proc x = st.proc x := by
    rw [← hst]
    exact State.modify_ne hx
  have hliving (q : S) (pid : Nat) : st'.living q pid = st.living q pid := by
    rw [← hst]
    refine (State.living_modify ..).trans ?_
    simp only [hc]
    omega
  have hpids (d : S) (h : (st'.proc d).pid ≠ 0) :
      (st'.proc d).pid = (st.proc d).pid ∨ d = p ∧ st.pidalloc < (st'.proc d).pid := by
    by_cases hd : d = p
    · rw [hd, hp] at h ⊢
      rcases hpid with hpid | hpid | hpid
      · exact .inl hpid
      · exact absurd hpid h
      · exact .inr ⟨rfl, hpid⟩
    · exact .inl (by rw [ho d hd])
  refine ⟨fun x => ?ok, fun x up flag hx => ?made, fun x z hxz hx => ?inj, fun x q hlx hq d hd h0 => ?parent,
    fun x hlx => ?nchild⟩
  case ok =>
    rw [hn']
    by_cases hx : x = p
    · rwa [hx, hp]
    · rw [ho x hx]
      exact (hs.ok x).mono hn
  case made =>
    by_cases hxp : x = p
    · rw [hxp, hp] at hx
      obtain ⟨hne, hup⟩ := hnew up flag hx
      rwa [ho up hne, hxp]
    · rw [ho x hxp] at hx
      have hup := hs.made x up flag hx
      by_cases hu : up = p
      · rw [hu, hp]
        exact (hrfork x (hu ▸ hup)).resolve_right fun h => h up flag hx
      · rwa [ho up hu]
  case inj =>
    rcases hpids x hx with hpx | ⟨hxp, hpx⟩ <;> rcases hpids z (hxz ▸ hx) with hpz | ⟨hzp, hpz⟩
    · exact hs.inj x z (by rw [← hpx, hxz, hpz]) (by rwa [← hpx])
    · have := (hs.ok x).le
      omega
    · have := (hs.ok z).le
      omega
    · rw [hxp, hzp]
  case parent =>
    have hold : (st.proc x).Lives ∧ (st.proc x).parent = some q ∧
        (st'.proc x).parentpid = (st.proc x).parentpid := by
      by_cases hx : x = p
      · rw [hx, hp] at hlx hq ⊢
        obtain ⟨hl, hp, hpp, -⟩ := hl hlx
        exact ⟨hl, hp ▸ hq, hpp⟩
      · rw [ho x hx] at hlx hq ⊢
        exact ⟨hlx, hq, rfl⟩
    obtain ⟨hlx, hq, hpp⟩ := hold
    have hle := (hs.ok x).parentpid
    rw [hpp] at hd h0
    exact hs.parent x q hlx hq d (((hpids d (hd ▸ h0)).resolve_right (by omega)).symm.trans hd) h0
  case nchild =>
    rw [hliving]
    by_cases hx : x = p
    · rw [hx, hp] at hlx ⊢
      obtain ⟨hl, -, -, hpid, hn⟩ := hl hlx
      rw [hn, hpid]
      exact hs.nchild p hl
    · rw [ho x hx] at hlx ⊢
      exact hs.nchild x hlx

theorem modify (hs : Sound st) (hok : (f (st.proc p)).Ok st.pidalloc p)
    (hnew : ∀ up flag, (f (st.proc p)).pc = .new up flag → up ≠ p ∧ (st.proc up).pc = .rfork p)
    (hrfork : ∀ q, (st.proc p).pc ≠ .rfork q)
    (hpid : (f (st.proc p)).pid = (st.proc p).pid ∨ (f (st.proc p)).pid = 0)
    (hl : (f (st.proc p)).Lives → (st.proc p).Lives ∧ (f (st.proc p)).parent = (st.proc p).parent ∧
      (f (st.proc p)).parentpid = (st.proc p).parentpid ∧ (f (st.proc p)).pid = (st.proc p).pid ∧
      (f (st.proc p)).nchild = (st.proc p).nchild)
    (hc : ∀ q pid, (f (st.proc p)).Child q pid ↔ (st.proc p).Child q pid) : Sound (st.modify p f) :=
  hs.alloc le_rfl hok hnew (fun q h => absurd h (hrfork q)) (hpid.imp_right .inl) hl hc

theorem rfork (hs : Sound st) (hup : (st.proc up).pc = .user) (hp : (st.proc p).pc = .dead) :
    Sound ((st.modify p <| Proc.newproc up flag).goto up (.rfork p)) := by
  have hne : up ≠ p := by
    rintro rfl
    rw [hp] at hup
    cases hup
  have hcomm : (st.modify p <| Proc.newproc up flag).goto up (.rfork p) =
      (st.goto up (.rfork p)).modify p (Proc.newproc up flag) := by
    simp only [State.goto, State.modify, Function.update_of_ne hne, Function.update_of_ne hne.symm]
    rw [Function.update_comm hne]
  have hok := hs.ok up
  have hfork : Sound (st.goto up (.rfork p)) := by
    refine hs.modify ?ok (by simp) (by simp [hup]) (.inl rfl) ?lives ?child
    case ok =>
      have hl : (st.proc up).Lives := by rw [Proc.Lives, hup]; trivial
      exact { hok with
        pid := fun _ => hok.pid hl, gone := by simp, parent := fun _ => hok.parent hl, new := by simp [Pc.isNew]
        nwait := fun _ => hok.nwait hl, qwaitr := by simp [hok.qwaitr, hup], woken := by simp, pwait := by simp }
    case lives => simp [Proc.Lives, hup, Pc.Lives]
    case child => simp [Proc.Child, Proc.Lives, hup, Pc.Lives]
  rw [hcomm]
  have hpp : (st.goto up (.rfork p)).proc p = st.proc p := State.modify_ne hne.symm
  have hokp := hs.ok p
  refine hfork.modify ?ok ?new (by simp [hpp, hp]) (.inl rfl) (by simp [Proc.newproc, Proc.Lives, Pc.Lives]) ?child
  case ok =>
    rw [hpp]
    exact { hokp with
      kp := by simp [Proc.newproc], pid := False.elim, gone := by simp [Proc.newproc], parent := False.elim
      new := fun _ => ⟨hokp.gone (.inl hp), rfl, rfl, rfl, rfl, rfl⟩
      nwait := False.elim, qwaitr := by simp [Proc.newproc, hokp.qwaitr, hp], woken := by simp [Proc.newproc]
      pwait := by simp [Proc.newproc] }
  case new =>
    intro up' flag' h
    obtain ⟨rfl, -⟩ := Pc.new.inj h
    exact ⟨hne, by rw [State.goto, State.modify_self]⟩
  case child => simp [hpp, Proc.newproc, Proc.Child, Proc.Lives, hp, Pc.Lives]

theorem ready (hs : Sound st) (hp : (st.proc p).pc = .new up flag) :
    Sound { (st.modify p <| Proc.forked (st.pidalloc + 1) up (st.proc up).pid flag).modify up <| Proc.forks flag with
      pidalloc := st.pidalloc + 1 } := by
  have hup := hs.made p up flag hp
  have hok := hs.ok p
  have hoku := hs.ok up
  have hlu : (st.proc up).Lives := by rw [Proc.Lives, hup]; trivial
  have hlp : ¬(st.proc p).Lives := by rw [Proc.Lives, hp]; exact id
  obtain ⟨-, hkp, hparent, hnchild, hnwait, hwaitq⟩ := hok.new (by rw [hp]; rfl)
  have hne : up ≠ p := by
    rintro rfl
    exact hlp hlu
  generalize hst : ({ (st.modify p <| Proc.forked (st.pidalloc + 1) up (st.proc up).pid flag).modify up <|
    Proc.forks flag with pidalloc := st.pidalloc + 1 } : State S M) = st'
  have hn : st'.pidalloc = st.pidalloc + 1 := by rw [← hst]
  have hpp : st'.proc p = Proc.forked (st.pidalloc + 1) up (st.proc up).pid flag (st.proc p) := by
    rw [← hst]
    exact (State.modify_ne hne.symm).trans (State.modify_self ..)
  have hpu : st'.proc up = Proc.forks flag (st.proc up) := by
    rw [← hst]
    refine (State.modify_self ..).trans ?_
    rw [State.modify_ne hne]
  have hpo (x : S) (hxu : x ≠ up) (hxp : x ≠ p) : st'.proc x = st.proc x := by
    rw [← hst]
    exact (State.modify_ne hxu).trans (State.modify_ne hxp)
  have hpid : (st'.proc p).pid = st.pidalloc + 1 := by
    rw [hpp]
    cases flag <;> rfl
  have hpids (x : S) (hx : x ≠ p) : (st'.proc x).pid = (st.proc x).pid := by
    by_cases hxu : x = up
    · rw [hxu, hpu, Proc.forks]
    · rw [hpo x hxu hx]
  have hliving (x : S) (pid : Nat) : st'.living x pid =
      st.living x pid + if (st'.proc p).Child x pid then 1 else 0 := by
    have hold : ¬(st.proc p).Child x pid := fun h => hlp h.left
    have hsame : (Proc.forks flag (st.proc up)).Child x pid ↔ (st.proc up).Child x pid := by
      simp only [Proc.Child, Proc.forks, hlu, true_and]
      exact and_iff_right trivial
    rw [← hst]
    refine (State.living_modify ..).trans ?_
    rw [State.living_modify, if_neg hold, State.modify_ne hne, hst, hpp]
    simp only [hsame]
    omega
  refine ⟨fun x => ?ok, fun x up' flag' hx => ?made, fun x z hxz hx => ?inj, fun x q hlx hq d hd h0 => ?parent,
    fun x hlx => ?nchild⟩
  case ok =>
    rw [hn]
    by_cases hxp : x = p
    · rw [hxp, hpp]
      exact hok.forked (by rw [hp]; rfl) hne hoku.le
    · by_cases hxu : x = up
      · rw [hxu, hpu]
        exact (hoku.forks hup).mono (Nat.le_succ _)
      · rw [hpo x hxu hxp]
        exact (hs.ok x).mono (Nat.le_succ _)
  case made =>
    have hxp : x ≠ p := by
      rintro rfl
      rw [hpp] at hx
      cases flag <;> simp [Proc.forked] at hx
    have hxu : x ≠ up := by
      rintro rfl
      simp [hpu, Proc.forks] at hx
    rw [hpo x hxu hxp] at hx
    have hmade := hs.made x up' flag' hx
    rw [hpo up' ?_ ?_]
    · exact hmade
    · rintro rfl
      exact hxp (Pc.rfork.inj (hmade.symm.trans hup))
    · rintro rfl
      simp [hp] at hmade
  case inj =>
    have hlt (x : S) := (hs.ok x).le
    by_cases hxp : x = p <;> by_cases hzp : z = p
    · rw [hxp, hzp]
    · have := hlt z
      rw [hxp, hpid, hpids z hzp] at hxz
      omega
    · have := hlt x
      rw [hzp, hpid, hpids x hxp] at hxz
      omega
    · rw [hpids x hxp] at hxz hx
      exact hs.inj x z (hxz.trans (hpids z hzp)) hx
  case parent =>
    by_cases hxp : x = p
    · rw [hxp, hpp] at hq hd h0
      cases flag
      case nowait => exact absurd rfl h0
      case kproc  => simp [Proc.forked, hparent] at hq
      case wait   =>
        obtain rfl : up = q := Option.some.inj hq
        have hle := hoku.le
        have hdp : d ≠ p := by
          rintro rfl
          simp only [Proc.forked, hpid] at hd
          omega
        rw [hpids d hdp] at hd
        exact hs.inj d up hd (hd ▸ h0)
    · have hold : (st'.proc x).parentpid = (st.proc x).parentpid ∧ (st'.proc x).parent = (st.proc x).parent ∧
          (st.proc x).Lives := by
        by_cases hxu : x = up
        · rw [hxu, hpu]
          exact ⟨rfl, rfl, hlu⟩
        · rw [hpo x hxu hxp] at hlx ⊢
          exact ⟨rfl, rfl, hlx⟩
      obtain ⟨hpar, hpar', hlx⟩ := hold
      have hle := (hs.ok x).parentpid
      rw [hpar] at hd h0
      have hdp : d ≠ p := by
        rintro rfl
        omega
      exact hs.parent x q hlx (hpar' ▸ hq) d ((hpids d hdp).symm.trans hd) h0
  case nchild =>
    rw [hliving]
    by_cases hxp : x = p
    · have hnone : st.living p (st.pidalloc + 1) = 0 := tally_eq_zero fun c => if_neg fun h => by
        have := (hs.ok c).parentpid
        have := h.right.right
        omega
      have hself : ¬(st'.proc p).Child p (st.pidalloc + 1) := by
        rw [hpp]
        rintro ⟨-, hpar, -⟩
        cases flag <;> simp [Proc.forked, hparent, hne] at hpar
      have hzero : (st'.proc p).nchild = 0 := by
        rw [hpp]
        cases flag <;> exact hnchild
      rw [hxp, hpid, hnone, if_neg hself, hzero]
      rfl
    · rw [hpids x hxp]
      by_cases hxu : x = up
      · have hchild : (st'.proc p).Child up (st.proc up).pid ↔ flag = .wait := by
          have := hoku.pid hlu
          rw [hpp]
          cases flag <;> simp [Proc.Child, Proc.Lives, Pc.Lives, Proc.forked, hparent, this.symm]
        rw [hxu, hpu, ← hs.nchild up hlu]
        simp only [hchild, Proc.forks]
        split <;> omega
      · have hother : ¬(st'.proc p).Child x (st.proc x).pid := by
          rw [hpp]
          rintro ⟨-, hpar, -⟩
          cases flag <;> simp [Proc.forked, hparent, Ne.symm hxu] at hpar
        rw [hpo x hxu hxp] at hlx ⊢
        rw [if_neg hother, hs.nchild x hlx, Int.add_zero]

theorem pexit (hs : Sound st) (hp : (st.proc p).pc = .user) (hq : (st.proc p).parent = some q)
    (ha : (st.proc p).parentpid = 0 → (st.proc q).pc.isNew = false) :
    Sound ((st.modify q <| Proc.childexit (st.proc p).parentpid wq).goto p (.exited freemem)) := by
  have hlp : (st.proc p).Lives := by rw [Proc.Lives, hp]; trivial
  have hok := hs.ok p
  have hokq := hs.ok q
  have hne : q ≠ p := by
    rintro rfl
    exact hok.parent hlp hq
  generalize hst : (st.modify q <| Proc.childexit (st.proc p).parentpid wq).goto p (.exited freemem) = st'
  have hn : st'.pidalloc = st.pidalloc := by rw [← hst]; rfl
  have hpp : st'.proc p = { st.proc p with pc := .exited freemem } := by
    rw [← hst, State.goto, State.modify_self, State.modify_ne hne.symm]
  have hpq : st'.proc q = (st.proc q).childexit (st.proc p).parentpid wq := by
    rw [← hst, State.goto, State.modify_ne hne, State.modify_self]
  have hpo (x : S) (hxq : x ≠ q) (hxp : x ≠ p) : st'.proc x = st.proc x := by
    rw [← hst, State.goto, State.modify_ne hxp, State.modify_ne hxq]
  have hpc (x : S) (hx : x ≠ p) : (st'.proc x).pc = (st.proc x).pc := by
    by_cases hxq : x = q
    · rw [hxq, hpq, Proc.childexit_pc]
    · rw [hpo x hxq hx]
  have hsame (x : S) : (st'.proc x).pid = (st.proc x).pid ∧ (st'.proc x).parent = (st.proc x).parent ∧
      (st'.proc x).parentpid = (st.proc x).parentpid := by
    by_cases hxp : x = p
    · rw [hxp, hpp]
      exact ⟨rfl, rfl, rfl⟩
    · by_cases hxq : x = q
      · obtain ⟨_, _, _, h⟩ := (st.proc q).childexit_eq (st.proc p).parentpid wq
        rw [hxq, hpq, h]
        exact ⟨rfl, rfl, rfl⟩
      · rw [hpo x hxq hxp]
        exact ⟨rfl, rfl, rfl⟩
  have hlives (x : S) (h : (st'.proc x).Lives) : x ≠ p ∧ (st.proc x).Lives := by
    have hxp : x ≠ p := by
      rintro rfl
      rw [hpp] at h
      exact h
    exact ⟨hxp, by rwa [Proc.Lives, ← hpc x hxp]⟩
  refine ⟨fun x => ?ok, fun x up flag hx => ?made, fun x z hxz hx => ?inj, fun x z hlx hz d hd h0 => ?parent,
    fun x hlx => ?nchild⟩
  case ok =>
    rw [hn]
    by_cases hxp : x = p
    · rw [hxp, hpp]
      exact { hok with
        pid := False.elim, gone := by simp, parent := False.elim, new := by simp [Pc.isNew], nwait := False.elim
        qwaitr := by simp [hok.qwaitr, hp], woken := by simp, pwait := by simp }
    · by_cases hxq : x = q
      · rw [hxq, hpq]
        refine hokq.childexit fun hpid => ?_
        by_cases h0 : (st.proc p).parentpid = 0
        · exact ha h0
        · by_contra hnew
          exact h0 (hpid ▸ (hokq.new (by simpa using hnew)).left)
      · rw [hpo x hxq hxp]
        exact hs.ok x
  case made =>
    have hxp : x ≠ p := by
      rintro rfl
      simp [hpp] at hx
    rw [hpc x hxp] at hx
    have hmade := hs.made x up flag hx
    rwa [hpc up ?_]
    rintro rfl
    simp [hp] at hmade
  case inj =>
    rw [(hsame x).left] at hxz hx
    exact hs.inj x z (hxz.trans (hsame z).left) hx
  case parent =>
    obtain ⟨-, hpar, hparpid⟩ := hsame x
    rw [hparpid] at hd h0
    exact hs.parent x z (hlives x hlx).right (hpar ▸ hz) d ((hsame d).left.symm.trans hd) h0
  case nchild =>
    obtain ⟨hxp, hlx⟩ := hlives x hlx
    have hliving : st'.living x (st.proc x).pid = st.living x (st.proc x).pid -
        if (st.proc p).Child x (st.proc x).pid then 1 else 0 := by
      have hgone : ¬Proc.Child x (st.proc x).pid { st.proc p with pc := Pc.exited freemem } := fun h => h.left
      rw [← hst, State.goto, State.living_modify, State.living_modify, State.modify_ne hne.symm, if_neg hgone]
      simp only [Proc.childexit_child]
      omega
    have hchild : (st.proc p).Child x (st.proc x).pid ↔ x = q ∧ (st.proc q).pid = (st.proc p).parentpid := by
      rw [Proc.Child, hq, Option.some_inj]
      constructor
      · rintro ⟨-, rfl, h⟩
        exact ⟨rfl, h.symm⟩
      · rintro ⟨rfl, h⟩
        exact ⟨hlp, rfl, h.symm⟩
    rw [(hsame x).left, hliving, ← hs.nchild x hlx]
    simp only [hchild]
    by_cases hxq : x = q
    · subst hxq
      have hbroken : (st.proc x).pc ≠ .broken := fun h => by simp [Proc.Lives, h, Pc.Lives] at hlx
      rw [hpq, Proc.childexit_nchild]
      simp only [hbroken, ne_eq, not_false_eq_true, and_true, true_and]
      split <;> omega
    · rw [hpo x hxq hxp, if_neg fun h => hxq h.left, Int.sub_zero]

theorem leave {pc : Pc S} (hs : Sound st) (hl : ¬(st.proc p).Lives)
    (hq : (st.proc p).pc ≠ .pwait ∧ (st.proc p).pc ≠ .woken) (hpc : ¬pc.Lives) (hnew : pc.isNew = false)
    (hpid : pid = (st.proc p).pid ∧ pc ≠ .moribund ∧ (pc = .dead → (st.proc p).pc = .moribund) ∨ pid = 0)
    (hf : f (st.proc p) = { st.proc p with pc, pid }) : Sound (st.modify p f) := by
  have hok := hs.ok p
  have hf' : ¬(f (st.proc p)).Lives := by rwa [hf]
  refine hs.modify ?ok (fun up flag h => ?_) (fun q h => ?_) ?_ (fun h => absurd h hf') fun q pid => ?_
  case ok =>
    rw [hf]
    exact { hok with
      le     := by rcases hpid with ⟨rfl, -⟩ | rfl <;> simp [hok.le]
      pid    := fun h => absurd h hpc
      gone   := by
        have := hok.gone
        rcases hpid with ⟨rfl, hm, hd⟩ | rfl
        · rintro (h | h)
          · exact this (.inr (hd h))
          · exact absurd h hm
        · simp
      parent := fun h => absurd h hpc
      new    := by simp [hnew]
      nwait  := fun h => absurd h hpc
      qwaitr := by
        rw [hok.qwaitr]
        exact iff_of_false (fun h => h.elim hq.left hq.right) (by rintro (rfl | rfl) <;> exact hpc trivial)
      woken  := by
        rintro rfl
        exact absurd trivial hpc
      pwait  := by
        rintro rfl
        exact absurd trivial hpc }
  · rw [hf] at h
    simp [show pc = _ from h, Pc.isNew] at hnew
  · simp [Proc.Lives, h, Pc.Lives] at hl
  · rw [hf]
    exact hpid.imp_left And.left
  · exact iff_of_false (fun h => hf' h.left) fun h => hl h.left

theorem wait {c : Pc S} {nwait : Int} {waitq : List (Waitmsg M)} {qwaitr : Bool} (hs : Sound st)
    (hp : (st.proc p).pc = .user ∨ (st.proc p).pc = .pwait ∨ (st.proc p).pc = .woken) (hl : c.Lives)
    (hn : nwait = waitq.length ∧ waitq.length ≤ 128) (hq : qwaitr = true ↔ c = .pwait ∨ c = .woken)
    (hw : c = .woken → waitq ≠ []) (hpw : c = .pwait → waitq ≠ [] ∨ (st.proc p).nchild ≠ 0)
    (hf : f (st.proc p) = { st.proc p with pc := c, nwait, waitq, qwaitr }) : Sound (st.modify p f) := by
  have hok := hs.ok p
  have hly : (st.proc p).Lives := by
    rcases hp with h | h | h <;> rw [Proc.Lives, h] <;> trivial
  have hnew : c.isNew = false := by
    cases c <;> first | rfl | exact hl.elim
  refine hs.modify ?ok (fun up flag h => ?_) (fun q h => ?_) ?_ (fun _ => ⟨hly, ?_⟩) fun q pid => ?_
  case ok =>
    rw [hf]
    exact { hok with
      pid    := fun _ => hok.pid hly
      gone   := by rintro (rfl | rfl) <;> exact hl.elim
      parent := fun _ => hok.parent hly
      new    := by simp [hnew]
      nwait  := fun _ => hn
      qwaitr := hq
      woken  := hw
      pwait  := hpw }
  · rw [hf] at h
    simp [show c = _ from h, Pc.isNew] at hnew
  · simp [h] at hp
  · exact .inl (by rw [hf])
  · rw [hf]
    exact ⟨rfl, rfl, rfl, rfl⟩
  · rw [Proc.Child, Proc.Child, hf]
    exact and_congr_left' (iff_of_true hl hly)

theorem fail (hs : Sound st) (hp : (st.proc p).pc = .new up flag) :
    Sound { (st.modify p <| Proc.lost <| st.pidalloc + 1).goto up .user with pidalloc := st.pidalloc + 1 } := by
  have hup := hs.made p up flag hp
  have hok := hs.ok p
  have hne : up ≠ p := by
    rintro rfl
    rw [hp] at hup
    cases hup
  have hlp : ¬(st.proc p).Lives := by rw [Proc.Lives, hp]; exact id
  have hlost : Sound { st.modify p (Proc.lost (st.pidalloc + 1)) with pidalloc := st.pidalloc + 1 } := by
    refine hs.alloc (Nat.le_succ _) ?ok (by simp [Proc.lost]) (by simp [hp]) (.inr (.inr (Nat.lt_succ_self _)))
      False.elim fun q pid => iff_of_false And.left fun h => hlp h.left
    have hok := hok.mono (Nat.le_succ _)
    exact
      { le        := le_rfl
        parentpid := hok.parentpid
        kp        := hok.kp
        pid       := False.elim
        gone      := by simp [Proc.lost]
        parent    := False.elim
        new       := by simp [Proc.lost, Pc.isNew]
        nwait     := False.elim
        qwaitr    := by simp [Proc.lost, hok.qwaitr, hp]
        woken     := by simp [Proc.lost]
        pwait     := by simp [Proc.lost] }
  have hpu : (st.modify p (Proc.lost (st.pidalloc + 1))).proc up = st.proc up := State.modify_ne hne
  have hpp : (st.modify p (Proc.lost (st.pidalloc + 1))).proc p = Proc.lost (st.pidalloc + 1) (st.proc p) :=
    State.modify_self ..
  generalize hst : st.modify p (Proc.lost (st.pidalloc + 1)) = st' at hlost hpu hpp ⊢
  have hoku := hlost.ok up
  have hlu : (st'.proc up).Lives := by rw [hpu, Proc.Lives, hup]; trivial
  refine hlost.alloc (f := ({ · with pc := .user })) le_rfl ?user (by simp)
    (fun q h => .inr fun up' flag' h' => ?rfork) (.inl rfl) (fun _ => ⟨hlu, rfl, rfl, rfl, rfl⟩)
    fun q pid => and_congr_left' (iff_of_true trivial hlu)
  case user =>
    exact { hoku with
      pid := fun _ => hoku.pid hlu, gone := by simp, parent := fun _ => hoku.parent hlu, new := by simp [Pc.isNew]
      nwait := fun _ => hoku.nwait hlu, qwaitr := hoku.qwaitr.trans (by simp [hpu, hup]), woken := by simp
      pwait := by simp }
  case rfork =>
    replace h : (st'.proc up).pc = .rfork q := h
    replace h' : (st'.proc q).pc = .new up' flag' := h'
    rw [hpu, hup] at h
    rw [← Pc.rfork.inj h, hpp] at h'
    cases h'

theorem exits (hs : Sound st) (hp : (st.proc p).pc = .user) (hq : (st.proc p).parent = none) :
    Sound (st.goto p (.exited freemem)) := by
  have hok := hs.ok p
  refine hs.modify ?ok (by simp) (by simp [hp]) (.inl rfl) False.elim fun q pid => ?child
  case ok =>
    exact { hok with
      pid := False.elim, gone := by simp, parent := False.elim, new := by simp [Pc.isNew], nwait := False.elim
      qwaitr := by simp [hok.qwaitr, hp], woken := by simp, pwait := by simp }
  case child => exact iff_of_false And.left fun h => Option.some_ne_none _ (h.right.left.symm.trans hq)

theorem step {a : Act S M} (hs : Sound st) (ha : Apart st a) (h : st.step a = some st') : Sound st' := by
  have hnwait (p : S) (pc : Pc S) (hp : (st.proc p).pc = pc) (hl : pc.Lives) :=
    (hs.ok p).nwait (by rwa [Proc.Lives, hp])
  cases a
  case rfork up p flag =>
    obtain ⟨⟨hup, hp⟩, h⟩ := Option.ite_none_right_eq_some.mp h
    exact Option.some.inj h ▸ hs.rfork hup hp
  case ready p =>
    rw [State.step] at h
    split at h
    case h_2 => cases h
    case h_1 up flag hp =>
      obtain ⟨pid, hpid, h⟩ := Option.bind_eq_some_iff.mp h
      obtain ⟨-, hpid⟩ := Option.ite_none_right_eq_some.mp hpid
      obtain rfl := Option.some.inj hpid
      exact Option.some.inj h ▸ hs.ready hp
  case fail p =>
    rw [State.step] at h
    split at h
    case h_2 => cases h
    case h_1 up flag hp =>
      obtain ⟨pid, hpid, h⟩ := Option.bind_eq_some_iff.mp h
      obtain ⟨-, hpid⟩ := Option.ite_none_right_eq_some.mp hpid
      obtain rfl := Option.some.inj hpid
      exact Option.some.inj h ▸ hs.fail hp
  case pwait p =>
    obtain ⟨hp, h⟩ := Option.ite_none_right_eq_some.mp h
    split at h
    case h_2      => exact Option.some.inj h ▸ hs
    case h_1 y hy =>
      obtain rfl := Option.some.inj h
      rw [Proc.pwait] at hy
      split at hy
      case isTrue  => cases hy
      case isFalse =>
        split at hy
        case isTrue     => cases hy
        case isFalse hc =>
          obtain rfl := Except.ok.inj hy
          exact hs.wait (c := .pwait) (.inl hp) trivial (hnwait p _ hp trivial) (by simp) (by simp)
            (fun _ => (not_and_or.mp hc).symm) rfl
  case wakeup p =>
    obtain ⟨⟨hp, hq⟩, h⟩ := Option.ite_none_right_eq_some.mp h
    obtain rfl := Option.some.inj h
    exact hs.wait (c := .woken) (.inr (.inl hp)) trivial (hnwait p _ hp trivial) (by simp [(hs.ok p).qwaitr, hp])
      (fun _ => hq) (by simp) rfl
  case take p =>
    obtain ⟨hp, h⟩ := Option.ite_none_right_eq_some.mp h
    obtain ⟨⟨wq, y⟩, hy, h⟩ := Option.map_eq_some_iff.mp h
    obtain rfl := h
    have hnw := hnwait p _ hp trivial
    rw [Proc.take] at hy
    split at hy
    case h_1          => cases hy
    case h_2 wq' next hq =>
      obtain ⟨-, rfl⟩ := Prod.mk.inj (Option.some.inj hy)
      rw [hq, List.length_cons] at hnw
      exact hs.wait (c := .user) (.inr (.inr hp)) trivial (by constructor <;> omega) (by simp) (by simp) (by simp) rfl
  case note p =>
    obtain ⟨hp, h⟩ := Option.ite_none_right_eq_some.mp h
    obtain rfl := Option.some.inj h
    exact hs.wait (c := .user) (.inr (.inl hp)) trivial (hnwait p _ hp trivial) (by simp) (by simp) (by simp) rfl
  case pexit p freemem w =>
    obtain ⟨hp, h⟩ := Option.ite_none_right_eq_some.mp h
    split at h
    case isTrue hkp =>
      obtain rfl := Option.some.inj h
      exact hs.exits hp ((hs.ok p).kp hkp)
    case isFalse hkp =>
      obtain ⟨q, hq, rfl⟩ := Option.map_eq_some_iff.mp h
      exact hs.pexit hp hq fun h0 => ha h0 q hq
  case addbroken p =>
    obtain ⟨hp, h⟩ := Option.ite_none_right_eq_some.mp h
    exact Option.some.inj h ▸ hs.leave (by simp [Proc.Lives, hp, Pc.Lives]) (by simp [hp]) id rfl
      (.inl ⟨rfl, by simp, by simp⟩) rfl
  case unbreak p =>
    obtain ⟨hp, h⟩ := Option.ite_none_right_eq_some.mp h
    exact Option.some.inj h ▸ hs.leave (by simp [Proc.Lives, hp, Pc.Lives]) (by simp [hp]) id rfl
      (.inl ⟨rfl, by simp, by simp⟩) rfl
  case unpid p =>
    obtain ⟨hp, h⟩ := Option.ite_none_right_eq_some.mp h
    exact Option.some.inj h ▸ hs.leave (by simp [Proc.Lives, hp, Pc.Lives]) (by simp [hp]) id rfl (.inr rfl) rfl
  case sched p =>
    obtain ⟨hp, h⟩ := Option.ite_none_right_eq_some.mp h
    exact Option.some.inj h ▸ hs.leave (by simp [Proc.Lives, hp, Pc.Lives]) (by simp [hp]) id rfl
      (.inl ⟨rfl, by simp, fun _ => hp⟩) rfl

theorem init (h : (machine S M).init st) : Sound st := by
  obtain ⟨hn, p, ⟨hpc, hpid, hparent, hkp, hnchild, hnwait, hwaitq, hqwaitr, hparentpid⟩, hfree⟩ := h
  have hpc' (q : S) (hq : q ≠ p) : (st.proc q).pc = .dead := (hfree q hq).left
  have hlives (q : S) (hl : (st.proc q).Lives) : q = p := by
    by_contra hq
    rw [Proc.Lives, hpc' q hq] at hl
    exact hl
  refine ⟨fun q => ?ok, fun q up flag hq => ?made, fun q r hqr hq => ?inj, fun q r hl hq => ?parent,
    fun q hl => ?nchild⟩
  case ok =>
    by_cases hq : q = p
    · subst hq
      constructor <;> simp [hn, hpc, hpid, hparent, hkp, hnwait, hwaitq, hqwaitr, hparentpid, Pc.isNew]
    · obtain ⟨hpc, hpid, hparent, hkp, hqwaitr, hparentpid⟩ := hfree q hq
      constructor <;> simp [hn, hpc, hpid, hparent, hkp, hqwaitr, hparentpid, Pc.isNew, Proc.Lives, Pc.Lives]
  case made =>
    by_cases hqp : q = p
    · simp [hqp, hpc] at hq
    · simp [hpc' q hqp] at hq
  case inj =>
    have hpid' (q : S) (h : (st.proc q).pid ≠ 0) : q = p := by
      by_contra hq
      exact h (hfree q hq).right.left
    rw [hpid' q hq, hpid' r (hqr ▸ hq)]
  case parent =>
    rw [hlives q hl, hparent] at hq
    cases hq
  case nchild =>
    have hzero : st.living p (st.proc p).pid = 0 := tally_eq_zero fun c => if_neg fun h => by
      have := h.right.left
      rw [hlives c h.left, hparent] at this
      cases this
    rw [hlives q hl, hnchild, hzero]

end Sound

end Port.Pwait
