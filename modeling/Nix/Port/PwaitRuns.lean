import Nix.Port.PwaitSteps

namespace Port.Pwait

variable {S M : Type} {st st' : State S M} {h : History M} {p q : S} {pid : Nat} {a : Act S M}
  {f : Proc S M → Proc S M}

theorem records_perm {l₁ l₂ : List (Nat × Waitmsg M)} (h : l₁.Perm l₂) (pid : Nat) :
    (records pid l₁).Perm (records pid l₂) :=
  h.filterMap _

theorem records_append (l₁ l₂ : List (Nat × Waitmsg M)) (pid : Nat) :
    records pid (l₁ ++ l₂) = records pid l₁ ++ records pid l₂ :=
  List.filterMap_append

theorem records_eq_nil {l : List (Nat × Waitmsg M)} (h : ∀ x ∈ l, x.fst ≠ pid) : records pid l = [] :=
  List.filterMap_eq_nil_iff.mpr fun x hx => if_neg (h x hx)

theorem records_cons (x : Nat × Waitmsg M) (l : List (Nat × Waitmsg M)) :
    records pid (x :: l) = if x.fst = pid then x.snd :: records pid l else records pid l := by
  rw [records, List.filterMap_cons]
  split <;> split at * <;> simp_all [records]

theorem records_eq_cons {wq : Waitmsg M} {next : List (Waitmsg M)} {l : List (Nat × Waitmsg M)}
    (h : records pid l = wq :: next) :
    ∃ l', l.Perm ((pid, wq) :: l') ∧ records pid l' = next ∧
    ∀ pid', pid' ≠ pid → records pid' l' = records pid' l := by
  obtain ⟨l₁, x, l₂, rfl, hnone, hx, hnext⟩ := List.filterMap_eq_cons_iff.mp h
  obtain ⟨rfl, -⟩ := Option.ite_none_right_eq_some.mp hx
  have hl₁ : records x.fst l₁ = [] := List.filterMap_eq_nil_iff.mpr hnone
  refine ⟨l₁ ++ l₂, ?_, ?_, fun pid' hne => ?_⟩
  · rw [if_pos rfl, Option.some.injEq] at hx
    rw [← hx]
    exact List.perm_middle
  · rw [records_append, hl₁]
    exact hnext
  · rw [records_append, records_append, records_cons, if_neg hne.symm]

-- Those who live have the records that they had, or have a pid that none had, and no records.
def Quiet (st st' : State S M) : Prop :=
  st.pidalloc ≤ st'.pidalloc ∧ ∀ p, (st'.proc p).Lives →
    (st.proc p).Lives ∧ (st'.proc p).pid = (st.proc p).pid ∧ (st'.proc p).waitq = (st.proc p).waitq ∨
    st.pidalloc < (st'.proc p).pid ∧ (st'.proc p).waitq = []

theorem Quiet.refl (st : State S M) : Quiet st st :=
  ⟨le_rfl, fun _ hl => .inl ⟨hl, rfl, rfl⟩⟩

theorem Quiet.trans {st'' : State S M} (h : Quiet st st') (h' : Quiet st' st'') : Quiet st st'' := by
  refine ⟨h.left.trans h'.left, fun x hl => ?_⟩
  rcases h'.right x hl with ⟨hl, hpid, hwaitq⟩ | ⟨hpid, hwaitq⟩
  · rw [hpid, hwaitq]
    exact h.right x hl
  · exact .inr ⟨h.left.trans_lt hpid, hwaitq⟩

-- What is known of the exits that are told.
structure Told (st : State S M) (h : History M) : Prop where
  le      : ∀ x ∈ h.exits, x.fst ≤ st.pidalloc ∧ x.snd.pid ≤ st.pidalloc
  gone    : ∀ x ∈ h.exits, ∀ p, (st.proc p).Lives → (st.proc p).pid ≠ x.snd.pid
  once    : (h.exits.map fun x => x.snd.pid).Nodup
  -- those that are not delivered are the records of those who live
  pending : ∃ l, h.exits.Perm (h.delivered ++ l) ∧
    ∀ p, (st.proc p).Lives → records (st.proc p).pid l = (st.proc p).waitq

namespace Told

theorem quiet (ht : Told st h) (hq : Quiet st st') : Told st' h := by
  obtain ⟨l, hl, hrec⟩ := ht.pending
  refine ⟨fun x hx => ?_, fun x hx p hp => ?_, ht.once, l, hl, fun p hp => ?_⟩
  · exact (ht.le x hx).imp (le_trans · hq.left) (le_trans · hq.left)
  · rcases hq.right p hp with ⟨hp, hpid, -⟩ | ⟨hpid, -⟩
    · rw [hpid]
      exact ht.gone x hx p hp
    · have := (ht.le x hx).right
      omega
  · rcases hq.right p hp with ⟨hp, hpid, hwaitq⟩ | ⟨hpid, hwaitq⟩
    · rw [hpid, hwaitq]
      exact hrec p hp
    · rw [hwaitq]
      refine records_eq_nil fun x hx => ?_
      have := (ht.le x (hl.mem_iff.mpr (List.mem_append_right _ hx))).left
      omega

end Told

variable [DecidableEq S]

theorem Quiet.alloc {n : Nat} (hn : st.pidalloc ≤ n) (hf : (f (st.proc p)).Lives →
    (st.proc p).Lives ∧ (f (st.proc p)).pid = (st.proc p).pid ∧ (f (st.proc p)).waitq = (st.proc p).waitq ∨
    st.pidalloc < (f (st.proc p)).pid ∧ (f (st.proc p)).waitq = []) :
    Quiet st { st.modify p f with pidalloc := n } := by
  refine ⟨hn, fun x (hl : ((st.modify p f).proc x).Lives) => ?_⟩
  change _ ∧ ((st.modify p f).proc x).pid = _ ∧ ((st.modify p f).proc x).waitq = _ ∨
    _ < ((st.modify p f).proc x).pid ∧ ((st.modify p f).proc x).waitq = _
  by_cases hx : x = p
  · subst hx
    rw [State.modify_self] at hl ⊢
    exact hf hl
  · rw [State.modify_ne hx] at hl ⊢
    exact .inl ⟨hl, rfl, rfl⟩

theorem Quiet.modify (hf : (f (st.proc p)).Lives → (st.proc p).Lives ∧ (f (st.proc p)).pid = (st.proc p).pid ∧
    (f (st.proc p)).waitq = (st.proc p).waitq) : Quiet st (st.modify p f) :=
  .alloc le_rfl fun hl => .inl (hf hl)

theorem Quiet.step [Fintype S] (hs : Sound st) (ha : ∀ p freemem w, a ≠ .pexit p freemem w)
    (ha' : ∀ p, a ≠ .take p) (h : st.step a = some st') : Quiet st st' := by
  have hlives (p : S) (pc : Pc S) (hp : (st.proc p).pc = pc) (hl : pc.Lives) : (st.proc p).Lives := by
    rwa [Proc.Lives, hp]
  cases a
  case pexit => exact absurd rfl (ha _ _ _)
  case take  => exact absurd rfl (ha' _)
  case rfork up p flag =>
    obtain ⟨⟨hup, hp⟩, h⟩ := Option.ite_none_right_eq_some.mp h
    obtain rfl := Option.some.inj h
    have hne : up ≠ p := by
      rintro rfl
      simp [hp] at hup
    have hquiet : Quiet st (st.modify p (Proc.newproc up flag)) := .modify False.elim
    refine hquiet.trans (.modify fun _ => ⟨?_, rfl, rfl⟩)
    rw [State.modify_ne hne]
    exact hlives up _ hup trivial
  case ready p =>
    rw [State.step] at h
    split at h
    case h_2            => cases h
    case h_1 up flag hp =>
      obtain ⟨pid, hpid, h⟩ := Option.bind_eq_some_iff.mp h
      obtain ⟨-, hpid⟩ := Option.ite_none_right_eq_some.mp hpid
      obtain rfl := Option.some.inj hpid
      obtain rfl := Option.some.inj h
      have hup := hs.made p up flag hp
      have hne : up ≠ p := by
        rintro rfl
        simp [hp] at hup
      obtain ⟨-, -, -, -, -, hwaitq⟩ := (hs.ok p).new (by rw [hp]; rfl)
      have hquiet : Quiet st { st.modify p (Proc.forked (st.pidalloc + 1) up (st.proc up).pid flag) with
          pidalloc := st.pidalloc + 1 } := by
        refine .alloc (Nat.le_succ _) fun _ => .inr ?_
        cases flag <;> exact ⟨Nat.lt_succ_self _, hwaitq⟩
      refine hquiet.trans (.modify (f := Proc.forks flag) fun _ => ⟨?_, rfl, rfl⟩)
      change ((st.modify p _).proc up).Lives
      rw [State.modify_ne hne]
      exact hlives up _ hup trivial
  case fail p =>
    rw [State.step] at h
    split at h
    case h_2            => cases h
    case h_1 up flag hp =>
      obtain ⟨pid, hpid, h⟩ := Option.bind_eq_some_iff.mp h
      obtain ⟨-, hpid⟩ := Option.ite_none_right_eq_some.mp hpid
      obtain rfl := Option.some.inj hpid
      obtain rfl := Option.some.inj h
      have hup := hs.made p up flag hp
      have hne : up ≠ p := by
        rintro rfl
        simp [hp] at hup
      have hquiet : Quiet st { st.modify p (Proc.lost (st.pidalloc + 1)) with pidalloc := st.pidalloc + 1 } :=
        .alloc (Nat.le_succ _) False.elim
      refine hquiet.trans (.modify (f := ({ · with pc := .user })) fun _ => ⟨?_, rfl, rfl⟩)
      change ((st.modify p _).proc up).Lives
      rw [State.modify_ne hne]
      exact hlives up _ hup trivial
  case pwait p =>
    obtain ⟨hp, h⟩ := Option.ite_none_right_eq_some.mp h
    split at h
    case h_2      => exact Option.some.inj h ▸ .refl st
    case h_1 y hy =>
      obtain rfl := Option.some.inj h
      refine .modify fun _ => ⟨hlives p _ hp trivial, ?_⟩
      rw [Proc.pwait] at hy
      split at hy
      case isTrue  => cases hy
      case isFalse =>
        split at hy
        case isTrue  => cases hy
        case isFalse =>
          obtain rfl := Except.ok.inj hy
          exact ⟨rfl, rfl⟩
  case wakeup p =>
    obtain ⟨⟨hp, -⟩, h⟩ := Option.ite_none_right_eq_some.mp h
    exact Option.some.inj h ▸ .modify fun _ => ⟨hlives p _ hp trivial, rfl, rfl⟩
  case note p =>
    obtain ⟨hp, h⟩ := Option.ite_none_right_eq_some.mp h
    exact Option.some.inj h ▸ .modify fun _ => ⟨hlives p _ hp trivial, rfl, rfl⟩
  all_goals
    obtain ⟨-, h⟩ := Option.ite_none_right_eq_some.mp h
    exact Option.some.inj h ▸ .modify False.elim

section

variable [Fintype S] {freemem : Bool} {w : M}

theorem Told.exit (hs : Sound st) (ht : Told st h) (hp : (st.proc p).pc = .user) (hne : q ≠ p)
    (hl : (st.proc q).Lives) (hpid : (st.proc q).pid = (st.proc p).parentpid) (hlt : (st.proc q).waitq.length < 128) :
    Told ((st.modify q <| Proc.childexit (st.proc p).parentpid ⟨(st.proc p).pid, w⟩).goto p (.exited freemem))
      { h with exits := h.exits ++ [((st.proc p).parentpid, ⟨(st.proc p).pid, w⟩)] } := by
  have hlp : (st.proc p).Lives := by rw [Proc.Lives, hp]; trivial
  have hbroken : (st.proc q).pc ≠ .broken := fun h => by simp [Proc.Lives, h, Pc.Lives] at hl
  obtain ⟨hnw, -⟩ := (hs.ok q).nwait hl
  have hchild : (st.proc q).childexit (st.proc p).parentpid ⟨(st.proc p).pid, w⟩ = { st.proc q with
      nchild := (st.proc q).nchild - 1, nwait := (st.proc q).nwait + 1
      waitq := ⟨(st.proc p).pid, w⟩ :: (st.proc q).waitq } := by
    rw [Proc.childexit, if_pos ⟨hpid, hbroken⟩, if_pos (by omega)]
  obtain ⟨l, hl', hrec⟩ := ht.pending
  generalize hst : (st.modify q _).goto p (.exited freemem) = st'
  have hpp : (st'.proc p).pc = .exited freemem := by
    rw [← hst, State.goto, State.modify_self]
  have hpq : st'.proc q = { st.proc q with
      nchild := (st.proc q).nchild - 1, nwait := (st.proc q).nwait + 1
      waitq := ⟨(st.proc p).pid, w⟩ :: (st.proc q).waitq } := by
    rw [← hst, State.goto, State.modify_ne hne, State.modify_self, hchild]
  have hpo (x : S) (hxq : x ≠ q) (hxp : x ≠ p) : st'.proc x = st.proc x := by
    rw [← hst, State.goto, State.modify_ne hxp, State.modify_ne hxq]
  have hlives (x : S) (hx : (st'.proc x).Lives) :
      x ≠ p ∧ (st.proc x).Lives ∧ (st'.proc x).pid = (st.proc x).pid := by
    have hxp : x ≠ p := by
      rintro rfl
      rw [Proc.Lives, hpp] at hx
      exact hx
    by_cases hxq : x = q
    · rw [hxq, hpq]
      exact ⟨hne, hl, rfl⟩
    · rw [hpo x hxq hxp] at hx ⊢
      exact ⟨hxp, hx, rfl⟩
  refine ⟨fun x hx => ?le, fun x hx r hr => ?gone, ?once, ((st.proc p).parentpid, ⟨(st.proc p).pid, w⟩) :: l,
    ?perm, fun r hr => ?rec⟩
  case le =>
    have hn : st'.pidalloc = st.pidalloc := by rw [← hst]; rfl
    rw [hn]
    rcases List.mem_append.mp hx with hx | hx
    · exact ht.le x hx
    · rw [List.mem_singleton.mp hx]
      exact ⟨(hs.ok p).parentpid, (hs.ok p).le⟩
  case gone =>
    obtain ⟨hrp, hr, hpid⟩ := hlives r hr
    rw [hpid]
    rcases List.mem_append.mp hx with hx | hx
    · exact ht.gone x hx r hr
    · rw [List.mem_singleton.mp hx]
      exact fun he => hrp (hs.inj r p he ((hs.ok r).pid hr))
  case once =>
    rw [List.map_append]
    refine List.nodup_append'.mpr ⟨ht.once, List.nodup_singleton _, List.disjoint_singleton.mpr fun hx => ?_⟩
    obtain ⟨x, hx, he⟩ := List.mem_map.mp hx
    exact ht.gone x hx p hlp he.symm
  case perm =>
    exact (hl'.append_right _).trans <| by
      rw [List.append_assoc]
      exact (List.perm_append_comm).append_left _
  case rec =>
    obtain ⟨hrp, hlr, hpid'⟩ := hlives r hr
    rw [hpid', records_cons, hrec r hlr, ← hpid]
    by_cases hrq : r = q
    · rw [hrq, hpq, if_pos rfl]
    · rw [if_neg fun he => hrq (hs.inj r q he.symm ((hs.ok r).pid hlr)), hpo r hrq hrp]

theorem Told.take {wq : Waitmsg M} {next : List (Waitmsg M)} (hs : Sound st) (ht : Told st h)
    (hl : (st.proc p).Lives) (hq : (st.proc p).waitq = wq :: next)
    (hf : (f (st.proc p)).Lives ∧ (f (st.proc p)).pid = (st.proc p).pid ∧ (f (st.proc p)).waitq = next) :
    Told (st.modify p f) { h with delivered := h.delivered ++ [((st.proc p).pid, wq)] } := by
  have hlives (x : S) (hx : ((st.modify p f).proc x).Lives) :
      (st.proc x).Lives ∧ ((st.modify p f).proc x).pid = (st.proc x).pid := by
    by_cases hxp : x = p
    · subst hxp
      rw [State.modify_self]
      exact ⟨hl, hf.right.left⟩
    · rw [State.modify_ne hxp] at hx ⊢
      exact ⟨hx, rfl⟩
  obtain ⟨l, hperm, hrec⟩ := ht.pending
  obtain ⟨l', hl', hnext, hother⟩ := records_eq_cons ((hrec p hl).trans hq)
  refine ⟨ht.le, fun x hx r hr => ?gone, ht.once, l', ?perm, fun r hr => ?rec⟩
  case gone =>
    obtain ⟨hr, hpid⟩ := hlives r hr
    rw [hpid]
    exact ht.gone x hx r hr
  case perm =>
    rw [List.append_assoc]
    exact hperm.trans (hl'.append_left _)
  case rec =>
    obtain ⟨hlr, hpid⟩ := hlives r hr
    rw [hpid]
    by_cases hrp : r = p
    · rw [hrp, State.modify_self, hf.right.right, hnext]
    · rw [State.modify_ne hrp, ← hrec r hlr]
      exact hother _ fun he => hrp (hs.inj r p he ((hs.ok r).pid hlr))

theorem Told.step (hs : Sound st) (ht : Told st h) (hstep : st.step a = some st') :
    Told st' (h.note (· < 128) st a) := by
  cases a
  case pexit p freemem w =>
    obtain ⟨hp, hstep⟩ := Option.ite_none_right_eq_some.mp hstep
    have hlp : (st.proc p).Lives := by rw [Proc.Lives, hp]; trivial
    split at hstep
    case isTrue hkp =>
      obtain rfl := Option.some.inj hstep
      rw [History.note, if_neg (by simp [hkp])]
      exact ht.quiet (.modify False.elim)
    case isFalse hkp =>
      obtain ⟨q, hq, rfl⟩ := Option.map_eq_some_iff.mp hstep
      have hne : q ≠ p := by
        rintro rfl
        exact (hs.ok q).parent hlp hq
      -- the parent, if it lives, is the process that the slot still has
      have htold : (∃ r, (st.proc r).Lives ∧ (st.proc r).pid = (st.proc p).parentpid ∧
          (st.proc r).waitq.length < 128) ↔
          (st.proc q).Lives ∧ (st.proc q).pid = (st.proc p).parentpid ∧ (st.proc q).waitq.length < 128 := by
        refine ⟨?_, fun h => ⟨q, h⟩⟩
        rintro ⟨r, hr, hpid, hlt⟩
        obtain rfl := hs.parent p q hlp hq r hpid (hpid ▸ (hs.ok r).pid hr)
        exact ⟨hr, hpid, hlt⟩
      by_cases hc : (st.proc q).Lives ∧ (st.proc q).pid = (st.proc p).parentpid ∧ (st.proc q).waitq.length < 128
      · rw [History.note, if_pos ⟨by simpa using hkp, htold.mpr hc⟩]
        exact ht.exit hs hp hne hc.left hc.right.left hc.right.right
      · rw [History.note, if_neg fun h => hc (htold.mp h.right)]
        have hquiet : Quiet st (st.modify q <| Proc.childexit (st.proc p).parentpid ⟨(st.proc p).pid, w⟩) := by
          refine .modify fun hl => ?_
          rw [Proc.Lives, Proc.childexit_pc] at hl
          obtain ⟨hnw, -⟩ := (hs.ok q).nwait hl
          refine ⟨hl, Proc.childexit_pid, ?_⟩
          rw [Proc.childexit]
          split
          case isFalse      => rfl
          case isTrue hpid  =>
            rw [if_neg fun hlt => hc ⟨hl, hpid.left, by omega⟩]
        exact ht.quiet (hquiet.trans (.modify False.elim))
  case take p =>
    obtain ⟨hp, hstep⟩ := Option.ite_none_right_eq_some.mp hstep
    obtain ⟨⟨wq, y⟩, hy, rfl⟩ := Option.map_eq_some_iff.mp hstep
    have hlp : (st.proc p).Lives := by rw [Proc.Lives, hp]; trivial
    rw [Proc.take] at hy
    split at hy
    case h_1             => cases hy
    case h_2 wq' next hq =>
      obtain ⟨rfl, rfl⟩ := Prod.mk.inj (Option.some.inj hy)
      simp only [History.note, hq]
      exact ht.take hs hlp hq ⟨trivial, rfl, rfl⟩
  all_goals exact ht.quiet (.step hs (by simp) (by simp) hstep)

omit [Fintype S] in
theorem Told.init (hi : (machine S M).init st) : Told st ⟨[], []⟩ := by
  obtain ⟨-, p, ⟨-, -, -, -, -, -, hwaitq, -⟩, hfree⟩ := hi
  refine ⟨by simp, by simp, List.nodup_nil, [], .refl _, fun q hl => ?_⟩
  by_cases hq : q = p
  · rw [hq, hwaitq]
    rfl
  · rw [Proc.Lives, (hfree q hq).left] at hl
    exact hl.elim

theorem reachable {s : State S M × History M}
    (hr : (tracked S M (· < 128)).Reachable (fun s a => Apart s.fst a) s) : Sound s.fst ∧ Told s.fst s.snd := by
  refine Machine.Invariant.holds (I := fun s => Sound s.fst ∧ Told s.fst s.snd) ⟨?init, ?step⟩ hr
  case init =>
    rintro ⟨st, h⟩ ⟨hi, he⟩
    obtain rfl : h = ⟨[], []⟩ := he
    exact ⟨.init hi, .init hi⟩
  case step =>
    rintro s a s' ⟨hs, ht⟩ ha hstep
    obtain ⟨hstep, hnote⟩ := Machine.track_step_eq.mp hstep
    rw [hnote]
    exact ⟨hs.step ha hstep, ht.step hs hstep⟩

theorem Sound.pwait_eq_error {e : Err} (hs : Sound st) (hp : (st.proc p).pc = .user) :
    (st.proc p).pwait = .error e ↔
      e = .Enochild ∧ (st.proc p).waitq = [] ∧ st.living p (st.proc p).pid = 0 := by
  have hl : (st.proc p).Lives := by rw [Proc.Lives, hp]; trivial
  have hq : (st.proc p).qwaitr = false := by simp [Bool.eq_false_iff, (hs.ok p).qwaitr, hp]
  rw [Proc.pwait, hq, if_neg Bool.false_ne_true, hs.nchild p hl]
  split
  case isTrue hc =>
    refine ⟨fun h => ⟨(Except.error.inj h).symm, hc.right, hc.left⟩, ?_⟩
    rintro ⟨rfl, -⟩
    rfl
  case isFalse hc => exact ⟨fun h => (by cases h), fun h => absurd h.right.symm hc⟩

end

theorem act [Fintype S] {lim : Nat → Prop} [DecidablePred lim] (a : Act S M) (t : State S M)
    (hr : (tracked S M lim).Reachable (fun s a => Apart s.fst a) (st, h)) (ha : Apart st a)
    (hstep : st.step a = some t) :
    (tracked S M lim).Reachable (fun s a => Apart s.fst a) (t, h.note lim st a) :=
  hr.step ha (Machine.track_step_eq.mpr ⟨hstep, rfl⟩)

-- Two slots.
def two (x y : Proc Bool Unit) (n : Nat) : State Bool Unit where
  proc p   := bif p then y else x
  pidalloc := n

section

variable {x y : Proc Bool Unit} {n : Nat} {f : Proc Bool Unit → Proc Bool Unit}

theorem two_modify_false : (two x y n).modify false f = two (f x) y n :=
  congrArg (State.mk · n) (funext fun p => by cases p <;> rfl)

theorem two_modify_true : (two x y n).modify true f = two x (f y) n :=
  congrArg (State.mk · n) (funext fun p => by cases p <;> rfl)

end

-- The boot process, with records that it does not wait for.
def boot (l : List (Waitmsg Unit)) : Proc Bool Unit where
  pc        := .user
  pid       := 1
  parent    := none
  parentpid := 0
  kp        := false
  nchild    := 0
  nwait     := l.length
  waitq     := l
  qwaitr    := false

def slot : Proc Bool Unit where
  pc        := .dead
  pid       := 0
  parent    := none
  parentpid := 0
  kp        := false
  nchild    := 0
  nwait     := 0
  waitq     := []
  qwaitr    := false

theorem boot_init {lim : Nat → Prop} [DecidablePred lim] :
    (tracked Bool Unit lim).init (two (boot []) slot 1, ⟨[], []⟩) := by
  refine ⟨⟨rfl, false, ⟨rfl, rfl, rfl, rfl, rfl, rfl, rfl, rfl, rfl⟩, fun q hq => ?_⟩, rfl⟩
  rw [Bool.eq_true_of_not_eq_false hq]
  exact ⟨rfl, rfl, rfl, rfl, rfl, rfl⟩

theorem forkexit {y : Proc Bool Unit} {l : List (Waitmsg Unit)} {n : Nat} {h : History Unit}
    (hr : (tracked Bool Unit fun _ => True).Reachable (fun s a => Apart s.fst a) (two (boot l) y n, h))
    (hy : y.pc = .dead) (hn : n + 1 < 2 ^ 31) : ∃ y' l', y'.pc = .dead ∧ l'.length ≤ max l.length 128 ∧
    (tracked Bool Unit fun _ => True).Reachable (fun s a => Apart s.fst a)
      (two (boot l') y' (n + 1), { h with exits := h.exits ++ [(1, ⟨n + 1, ()⟩)] }) := by
  let b : Proc Bool Unit := { boot l with pc := .rfork true }
  let c : Proc Bool Unit := (y.newproc false .wait).forked (n + 1) false 1 .wait
  let l' := if l.length < 128 then ⟨n + 1, ()⟩ :: l else l
  have hboot : Proc.childexit 1 ⟨n + 1, ()⟩ { boot l with nchild := 1 } = boot l' := by
    rw [Proc.childexit, if_pos ⟨rfl, by simp [boot]⟩]
    by_cases hl : l.length < 128
    · simp [boot, l', hl]
    · simp [boot, l', hl]
  have hpid : (two b (y.newproc false .wait) n).newpid = some (n + 1) := if_pos hn
  have h₁ := act (.rfork false true .wait) (two b (y.newproc false .wait) n) hr trivial <| by
    rw [State.step, if_pos ⟨rfl, hy⟩, State.goto, two_modify_true, two_modify_false]
  have h₂ := act (.ready true) (two { boot l with nchild := 1 } c (n + 1)) h₁ trivial <| by
    change (State.newpid _ >>= fun pid => _) = _
    rw [hpid]
    exact congrArg (fun s => some { s with pidalloc := n + 1 }) <|
      (congrArg (State.modify · false (Proc.forks .wait)) two_modify_true).trans two_modify_false
  have hexit : ((two { boot l with nchild := 1 } c (n + 1)).modify false (Proc.childexit 1 ⟨n + 1, ()⟩)).goto true
      (.exited true) = two (boot l') { c with pc := .exited true } (n + 1) := by
    rw [two_modify_false, State.goto, two_modify_true, hboot]
  have h₃ := act (.pexit true true ()) _ h₂ (fun h0 => by cases h0) (congrArg some hexit)
  have h₄ := act (.unpid true) _ h₃ trivial (congrArg some two_modify_true)
  have h₅ := act (.sched true) _ h₄ trivial (congrArg some two_modify_true)
  have hnote : History.note (fun _ => True) (two { boot l with nchild := 1 } c (n + 1)) (.pexit true true ()) h =
      { h with exits := h.exits ++ [(1, ⟨n + 1, ()⟩)] } :=
    if_pos ⟨rfl, false, trivial, rfl, trivial⟩
  refine ⟨{ c with pc := .dead, pid := 0 }, l', rfl, ?len, ?reach⟩
  case len =>
    by_cases hl : l.length < 128
    · simp only [l', if_pos hl, List.length_cons]
      omega
    · simp only [l', if_neg hl]
      exact le_max_left _ _
  case reach =>
    rw [← hnote]
    exact h₅

theorem forkexits (n : Nat) (hn : n + 1 < 2 ^ 31) : ∃ y l h, y.pc = .dead ∧ l.length ≤ 128 ∧
    (records 1 h.exits).length = n ∧ h.delivered = [] ∧
    (tracked Bool Unit fun _ => True).Reachable (fun s a => Apart s.fst a) (two (boot l) y (n + 1), h) := by
  induction n
  case zero =>
    exact ⟨slot, [], ⟨[], []⟩, rfl, Nat.zero_le _, rfl, rfl, .init boot_init⟩
  case succ n ih =>
    obtain ⟨y, l, h, hy, hl, hn', hd, hr⟩ := ih (by omega)
    obtain ⟨y', l', hy', hl', hr'⟩ := forkexit hr hy hn
    refine ⟨y', l', ⟨h.exits ++ [(1, ⟨n + 1 + 1, ()⟩)], h.delivered⟩, hy', by omega, ?_, hd, hr'⟩
    rw [records_append, List.length_append, hn']
    rfl

end Port.Pwait
