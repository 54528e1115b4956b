import Nix.K10.TcoreSteps

namespace K10.Tcore

variable {P C : Type} {s s' : State P C} {p q r : P} {mp : C} {k : For P} {pc : Pc P C}
variable {x y : Proc P C} {m : Mach P} {fn : Fn} {c : Call} {rest : List Call}

-- It was executed once, and `runac` returned what the core stored for it after the core cleared `fn`.
structure Call.Done (c : Call) : Prop where
  ran      : c.ran = [c.fn]
  cleared  : c.cleared = true
  returned : ∃ rc, c.rc = some rc ∧ c.returned = some rc

-- The core waits for a function.
structure Mach.Quiet (m : Mach P) : Prop where
  fn    : m.fn = none
  pc    : m.pc = .acsched ∨ m.pc = .actrap
  calls : ∀ c ∈ m.calls, c.Done

-- How far the core is with a function that it did not clear yet.
def Mach.Busy (m : Mach P) (p : P) (fn : Fn) (c : Call) : Prop :=
  m.fn = some fn ∧ c.cleared = false ∧
  match m.pc with
  | .acsched   => c.ran = [] ∧ fn ≠ .actrapret
  | .actrap    => c.ran = []
  | .user      => c.ran = [fn]
  | .returned  => c.ran = [fn] ∧ c.rc = some m.rc
  | .post p'   =>
    c.ran = [fn] ∧ c.rc = some m.rc ∧ (∀ q, p' = some q → q = p) ∧ m.rc = if p'.isSome then ICCSYSCALL else ICCTRAP
  | .ready _   => False

-- The same with one that it cleared.
def Mach.Answered (m : Mach P) (p : P) (fn : Fn) (ready : Bool) (c : Call) : Prop :=
  m.fn = none ∧ c.cleared = true ∧ c.ran = [fn] ∧ c.rc = some m.rc ∧
  match m.pc with
  | .acsched  => ready = true → m.rc = ICCSYSCALL
  | .actrap   => ready = true
  | .ready p' => ready = false ∧ (∀ q, p' = some q → q = p) ∧ m.rc = if p'.isSome then ICCSYSCALL else ICCTRAP
  | _         => False

structure Mach.Serves (m : Mach P) (p : P) (fn : Fn) (ready : Bool) (c : Call) : Prop where
  stored   : c.fn = fn
  returned : c.returned = none
  phase    : m.Busy p fn c ∧ ready = false ∨ m.Answered p fn ready c

-- The core has a function of a process that waits in `runac`.
structure State.Serving (s : State P C) (mp : C) (p : P) (fn : Fn) (c : Call) (rest : List Call) : Prop where
  sched  : (s.proc p).pc = .sched fn mp
  calls  : (s.mach mp).calls = c :: rest
  done   : ∀ d ∈ rest, d.Done
  serves : (s.mach mp).Serves p fn (s.proc p).ready c

structure State.Resting (s : State P C) (mp : C) : Prop where
  sched : ∀ p fn, (s.proc p).pc ≠ .sched fn mp
  quiet : (s.mach mp).Quiet

-- Where a process is on behalf of a system call, or not in the kernel for itself yet.
def Pc.Sys : Pc P C → Prop
  | .embryo _ | .getac _ | .scan _ | .found .. | .unlock .. | .assign .. | .forked _ => True
  | .execac _ | .failing _ | .clearac                                                => True
  | .runac (.acpmc _) | .store (.acpmc _) _ | .sched (.acpmc _) _                    => True
  | _                                                                                => False

-- Where a process answers a trap.
def Pc.Returns : Pc P C → Prop
  | .runac .actrapret | .store .actrapret _ => True
  | _                                       => False

-- A process that came for a trap has its core waiting in `actrap`.
structure State.InCtx (s : State P C) (x : Proc P C) : Prop where
  ready : x.ready = true → ∃ fn mp, x.pc = .sched fn mp
  trap  : ∀ t mp, x.ctx = .trap t → x.ac = some mp → (∀ fn, x.pc ≠ .sched fn mp) → (s.mach mp).pc = .actrap
  ret   : x.pc.Returns → ∃ t, x.ctx = .trap t
  sys   : x.pc.Sys → ∀ t, x.ctx ≠ .trap t

structure Handshake (s : State P C) : Prop where
  core : ∀ mp, (∃ p fn c rest, s.Serving mp p fn c rest) ∨ s.Resting mp
  ctx  : ∀ p, s.InCtx (s.proc p)

variable [DecidableEq P] [DecidableEq C]

omit [DecidableEq P] in
theorem State.InCtx.setm (h : s.InCtx x) (hpc : m.pc = (s.mach mp).pc) : (s.setm mp m).InCtx x := by
  refine ⟨h.ready, fun t mp' ht hac hsched => ?_, h.ret, h.sys⟩
  have htrap := h.trap t mp' ht hac hsched
  by_cases hmm : mp' = mp
  · rw [hmm] at htrap ⊢
    rw [setm_self, hpc, htrap]
  · rw [setm_of_ne hmm, htrap]

namespace Handshake

omit [DecidableEq C] in
theorem setp (h : Handshake s) (hp : ∀ fn mp, (s.proc p).pc ≠ .sched fn mp) (hx : ∀ fn mp, x.pc ≠ .sched fn mp)
    (hctx : s.InCtx x) : Handshake (s.setp p x) where
  core mp := by
    rcases h.core mp with ⟨q, fn, c, rest, hserving⟩ | ⟨hsched, hquiet⟩
    · have hqp : q ≠ p := by
        rintro rfl
        exact hp fn mp hserving.sched
      refine .inl ⟨q, fn, c, rest, ?_, hserving.calls, hserving.done, ?_⟩ <;> rw [setp_of_ne hqp]
      · exact hserving.sched
      · exact hserving.serves
    · refine .inr ⟨fun q fn => ?_, hquiet⟩
      by_cases hqp : q = p
      · rw [hqp, setp_self]
        exact hx fn mp
      · rw [setp_of_ne hqp]
        exact hsched q fn
  ctx q   := by
    by_cases hqp : q = p
    · rw [hqp, setp_self]
      exact ⟨hctx.ready, hctx.trap, hctx.ret, hctx.sys⟩
    · rw [setp_of_ne hqp]
      exact ⟨(h.ctx q).ready, (h.ctx q).trap, (h.ctx q).ret, (h.ctx q).sys⟩

omit [DecidableEq P] in
theorem setm (h : Handshake s) (hpc : m.pc = (s.mach mp).pc) (hserves : ∀ p fn c,
      (s.mach mp).Serves p fn (s.proc p).ready c → m.Serves p fn (s.proc p).ready c) (hfn : m.fn = (s.mach mp).fn)
    (hcalls : m.calls = (s.mach mp).calls) : Handshake (s.setm mp m) where
  core mp' := by
    by_cases hmm : mp' = mp
    case pos =>
      subst hmm
      rcases h.core mp' with ⟨q, fn, c, rest, hserving⟩ | ⟨hsched, hquiet⟩
      · refine .inl ⟨q, fn, c, rest, hserving.sched, ?_, hserving.done, ?_⟩ <;> rw [setm_self]
        · exact hcalls.trans hserving.calls
        · exact hserves q fn c hserving.serves
      · refine .inr ⟨hsched, ?_⟩
        rw [setm_self]
        exact ⟨hfn.trans hquiet.fn, hpc ▸ hquiet.pc, hcalls ▸ hquiet.calls⟩
    case neg =>
      rcases h.core mp' with ⟨q, fn, c, rest, hserving⟩ | ⟨hsched, hquiet⟩
      · refine .inl ⟨q, fn, c, rest, hserving.sched, ?_, hserving.done, ?_⟩ <;> rw [setm_of_ne hmm]
        · exact hserving.calls
        · exact hserving.serves
      · exact .inr ⟨hsched, by rwa [setm_of_ne hmm]⟩
  ctx q    := (h.ctx q).setm hpc

omit [DecidableEq P] [DecidableEq C] in
theorem unlocked (h : Handshake s) (l : Option P) : Handshake { s with lock := l } where
  core mp := by
    rcases h.core mp with ⟨q, fn, c, rest, hserving⟩ | ⟨hsched, hquiet⟩
    · exact .inl ⟨q, fn, c, rest, hserving.sched, hserving.calls, hserving.done, hserving.serves⟩
    · exact .inr ⟨hsched, hquiet⟩
  ctx q   := ⟨(h.ctx q).ready, (h.ctx q).trap, (h.ctx q).ret, (h.ctx q).sys⟩

omit [DecidableEq P] [DecidableEq C] in
theorem proc_of_sched (hpair : Paired s) (hp : (s.proc p).pc = .sched fn mp) : (s.mach mp).proc = some p := by
  have hat := hpair.lies p
  rw [hp] at hat
  exact hpair.own p mp hat <| hp ▸ nofun

omit [DecidableEq P] [DecidableEq C] in
theorem serving (h : Handshake s) (hpair : Paired s) (hp : (s.proc p).pc = .sched fn mp) :
    ∃ c rest, s.Serving mp p fn c rest := by
  rcases h.core mp with ⟨q, fn', c, rest, hserving⟩ | ⟨hsched, -⟩
  · obtain rfl := Option.some.inj <| (proc_of_sched hpair hserving.sched).symm.trans <| proc_of_sched hpair hp
    obtain ⟨rfl, -⟩ := Pc.sched.inj <| hserving.sched.symm.trans hp
    exact ⟨c, rest, hserving⟩
  · exact absurd hp <| hsched p fn

omit [DecidableEq P] [DecidableEq C] in
theorem not_trap (h : Handshake s) (hpair : Paired s) (hp : (s.proc p).pc = .sched fn mp) {t : Trap}
    (hctx : (s.proc q).ctx = .trap t) (hac : (s.proc q).ac = some mp) : q = p := by
  have hclear : (s.proc q).pc ≠ .clearac := fun hq => (h.ctx q).sys (hq ▸ trivial) t hctx
  exact Option.some.inj <| (hpair.own q mp hac hclear).symm.trans <| proc_of_sched hpair hp

theorem turn (h : Handshake s) (hold : ∀ fn mp', (s.proc p).pc = .sched fn mp' → mp' = mp)
    (hnew : ∀ fn mp', x.pc = .sched fn mp' → mp' = mp)
    (hothers : m.pc = (s.mach mp).pc ∨ ∀ q t, q ≠ p → (s.proc q).ctx = .trap t → (s.proc q).ac ≠ some mp)
    (hcore : (∃ fn c rest, x.pc = .sched fn mp ∧ m.calls = c :: rest ∧ (∀ d ∈ rest, d.Done) ∧ m.Serves p fn x.ready c) ∨
      (∀ q fn, q ≠ p → (s.proc q).pc ≠ .sched fn mp) ∧ (∀ fn, x.pc ≠ .sched fn mp) ∧ m.Quiet)
    (hctx : (s.setm mp m).InCtx x) : Handshake ((s.setm mp m).setp p x) where
  core mp' := by
    have hself : ((s.setm mp m).setp p x).proc p = x := setp_self
    have hother {q : P} (hq : q ≠ p) : ((s.setm mp m).setp p x).proc q = s.proc q := setp_of_ne hq
    by_cases hmm : mp' = mp
    case pos =>
      subst hmm
      have hmach : ((s.setm mp' m).setp p x).mach mp' = m := setm_self
      rcases hcore with ⟨fn, c, rest, hsched, hcalls, hdone, hserves⟩ | ⟨hno, hx, hquiet⟩
      · refine .inl ⟨p, fn, c, rest, by rw [hself, hsched], by rw [hmach, hcalls], hdone, ?_⟩
        rw [hmach, hself]
        exact hserves
      · refine .inr ⟨fun q fn => ?_, hmach.symm ▸ hquiet⟩
        by_cases hqp : q = p
        · rw [hqp, hself]
          exact hx fn
        · rw [hother hqp]
          exact hno q fn hqp
    case neg =>
      have hmach : ((s.setm mp m).setp p x).mach mp' = s.mach mp' := setm_of_ne hmm
      rcases h.core mp' with ⟨q, fn', d, rest', hq⟩ | ⟨hno, hquiet⟩
      · have hqp : q ≠ p := by
          rintro rfl
          exact hmm <| hold fn' mp' hq.sched
        refine .inl ⟨q, fn', d, rest', ?_, ?_, hq.done, ?_⟩
        · rw [hother hqp, hq.sched]
        · rw [hmach, hq.calls]
        · rw [hmach, hother hqp]
          exact hq.serves
      · refine .inr ⟨fun q fn' => ?_, hmach.symm ▸ hquiet⟩
        by_cases hqp : q = p
        · rw [hqp, hself]
          exact fun he => hmm <| hnew fn' mp' he
        · rw [hother hqp]
          exact hno q fn'
  ctx q    := by
    by_cases hqp : q = p
    case pos =>
      rw [hqp, setp_self]
      exact ⟨hctx.ready, hctx.trap, hctx.ret, hctx.sys⟩
    case neg =>
      have hother : ((s.setm mp m).setp p x).proc q = s.proc q := setp_of_ne hqp
      rw [hother]
      refine ⟨(h.ctx q).ready, fun t mp' ht hmp hno => ?_, (h.ctx q).ret, (h.ctx q).sys⟩
      have htrap := (h.ctx q).trap t mp' ht hmp hno
      by_cases hmm : mp' = mp
      · subst hmm
        rcases hothers with hpc | hothers
        · exact (congrArg Mach.pc setm_self).trans <| hpc.trans htrap
        · exact absurd hmp <| hothers q t hqp ht
      · exact (congrArg Mach.pc <| setm_of_ne hmm).trans htrap

theorem serve (h : Handshake s) (hpair : Paired s) {fn : Fn} {rest : List Call} (hserving : s.Serving mp p fn c rest)
    {c' : Call} (hpc : x.pc = (s.proc p).pc) (hctx : x.ctx = (s.proc p).ctx) (hac : x.ac = (s.proc p).ac)
    (hcalls : m.calls = c' :: rest) (hserves : m.Serves p fn x.ready c') : Handshake ((s.setp p x).setm mp m) := by
  have hsched := hserving.sched
  have hat := hpair.lies p
  rw [hsched] at hat
  rw [hsched] at hpc
  refine h.turn (fun fn' mp' hp => (Pc.sched.inj <| hsched.symm.trans hp).right.symm)
    (fun fn' mp' hp => (Pc.sched.inj <| hpc.symm.trans hp).right.symm) (.inr fun q t hqp ht hq => ?_)
    (.inl ⟨fn, c', rest, hpc, hcalls, hserving.done, hserves⟩) ?_
  · exact hqp <| h.not_trap hpair hsched ht hq
  · refine ⟨fun _ => ⟨fn, mp, hpc⟩, fun t mp' _ hmp hno => ?_, fun hret => ?_, ?_⟩
    · obtain rfl := Option.some.inj <| hmp.symm.trans <| hac.trans hat
      exact absurd hpc <| hno fn
    · rw [hpc] at hret
      exact hret.elim
    · rw [hpc, hctx, ← hsched]
      exact (h.ctx p).sys

omit [DecidableEq P] [DecidableEq C] in
theorem not_ready (h : Handshake s) (hp : ∀ fn mp, (s.proc p).pc ≠ .sched fn mp) : (s.proc p).ready = false :=
  Bool.eq_false_iff.mpr fun hready =>
    have ⟨fn, mp, hsched⟩ := (h.ctx p).ready hready
    hp fn mp hsched

omit [DecidableEq P] [DecidableEq C] in
theorem resting (h : Handshake s) (hpair : Paired s) (hac : (s.proc p).ac = some mp) (hclear : (s.proc p).pc ≠ .clearac)
    (hp : ∀ fn mp, (s.proc p).pc ≠ .sched fn mp) : s.Resting mp := by
  refine (h.core mp).resolve_left fun ⟨q, fn, c, rest, hq⟩ => ?_
  obtain rfl := Option.some.inj <| (hpair.own p mp hac hclear).symm.trans <| proc_of_sched hpair hq.sched
  exact hp fn mp hq.sched

theorem store (h : Handshake s) (hpair : Paired s) (hp : (s.proc p).pc = .store fn mp) : Handshake ((s.setm mp
    { s.mach mp with
      fn := some fn, calls := ⟨fn, [], none, false, none⟩ :: (s.mach mp).calls }).setp p { s.proc p with pc := .sched fn mp }) := by
  have hat := hpair.lies p
  rw [hp] at hat
  have hrest : s.Resting mp := h.resting hpair hat (hp ▸ nofun) fun _ _ => hp ▸ nofun
  have hready : (s.proc p).ready = false := h.not_ready fun _ _ => hp ▸ nofun
  have hserves : Mach.Serves { s.mach mp with
      fn := some fn, calls := ⟨fn, [], none, false, none⟩ :: (s.mach mp).calls } p fn (s.proc p).ready
      ⟨fn, [], none, false, none⟩ := by
    refine ⟨rfl, rfl, .inl ⟨⟨rfl, rfl, ?_⟩, hready⟩⟩
    dsimp only
    rcases hrest.quiet.pc with hpc | hpc <;> rw [hpc]
    refine ⟨rfl, ?_⟩
    rintro rfl
    obtain ⟨t, ht⟩ := (h.ctx p).ret <| hp ▸ trivial
    have htrap := (h.ctx p).trap t mp ht hat fun _ => hp ▸ nofun
    exact nomatch hpc.symm.trans htrap
  refine h.turn (fun _ _ hq => nomatch hp.symm.trans hq) (fun _ _ hq => (Pc.sched.inj hq).right.symm) (.inl rfl)
    (.inl ⟨fn, _, _, rfl, rfl, hrest.quiet.calls, hserves⟩) ?_
  refine ⟨fun _ => ⟨fn, mp, rfl⟩, fun t mp' _ hmp hno => ?_, False.elim, fun hsys => ?_⟩
  · obtain rfl := Option.some.inj <| Eq.trans hat.symm hmp
    exact absurd rfl <| hno fn
  · refine (h.ctx p).sys ?_
    rw [hp]
    cases fn
    case acpmc => trivial
    all_goals exact hsys

theorem resume (h : Handshake s) (hpair : Paired s) (hp : (s.proc p).pc = .sched fn mp) (hready : (s.proc p).ready = true)
    (ht : s.resume p fn mp = some s') : Handshake s' := by
  have hat := hpair.lies p
  rw [hp] at hat
  obtain ⟨c, rest, hserving⟩ := h.serving hpair hp
  obtain ⟨hstored, hreturned, hphase⟩ := hserving.serves
  obtain ⟨hfn, hcleared, hran, hrc, hphase⟩ := hphase.resolve_left fun hbusy => by simp [hready] at hbusy
  have hpc : (s.mach mp).pc = .acsched ∨ (s.mach mp).pc = .actrap := by
    cases hm : (s.mach mp).pc <;> rw [hm] at hphase
    case acsched => exact .inl rfl
    case actrap => exact .inr rfl
    case ready => simp [hready] at hphase
    all_goals exact hphase.elim
  obtain ⟨m, hm⟩ : ∃ m : Mach P, m = { s.mach mp with
    calls := (s.mach mp).calls.modifyHead fun c => { c with returned := some (s.mach mp).rc } } := ⟨_, rfl⟩
  have hquiet : m.Quiet := by
    rw [hm, hserving.calls]
    refine ⟨hfn, hpc, ?_⟩
    dsimp only
    rw [List.modifyHead_cons, List.forall_mem_cons]
    exact ⟨⟨hstored ▸ hran, hcleared, _, hrc, rfl⟩, hserving.done⟩
  have hturn {x : Proc P C} (hx : x.pc = .kernel) (hctx : s.InCtx x) : Handshake ((s.setm mp m).setp p x) := by
    refine h.turn (fun _ _ hq => (Pc.sched.inj <| hp.symm.trans hq).right.symm) (fun _ _ hq => nomatch hx.symm.trans hq)
      (.inl (by rw [hm])) (.inr ⟨fun q fn' hqp hq => ?_, fun _ => hx ▸ nofun, hquiet⟩) ?_
    · exact hqp <| Option.some.inj <| (proc_of_sched hpair hq).symm.trans <| proc_of_sched hpair hp
    · exact hctx.setm <| by rw [hm]
  have hsyscall {x : Proc P C} (hr : x.ready = false) (hx : x.pc = .kernel) (hno : ∀ t, x.ctx ≠ .trap t) :
      Handshake ((s.setm mp m).setp p x) :=
    hturn hx ⟨fun h => (nomatch hr.symm.trans h), fun t _ ht => absurd ht <| hno t, fun hr => by rw [hx] at hr; exact hr.elim,
      fun _ => hno⟩
  have htrap : (s.mach mp).rc = ICCTRAP →
      Handshake ((s.setm mp m).setp p { s.proc p with ready := false, ctx := .trap (s.proc p).dbgreg, pc := .kernel }) := by
    intro htrap
    refine hturn rfl ⟨nofun, fun t mp' _ hmp _ => ?_, False.elim, False.elim⟩
    obtain rfl := Option.some.inj <| Eq.trans hat.symm hmp
    refine hpc.resolve_left fun hacsched => ?_
    rw [hacsched] at hphase
    exact nomatch htrap.symm.trans <| hphase hready
  rw [hm] at hsyscall htrap
  cases fn
  case acpmc =>
    obtain rfl := Option.some.inj ht
    exact hsyscall rfl rfl <| (h.ctx p).sys <| hp ▸ trivial
  case actouser | acsysret | actrapret =>
    by_cases hrc : (s.mach mp).rc = ICCTRAP
    · obtain rfl := Option.some.inj <| (if_pos hrc).symm.trans ht
      exact htrap hrc
    · obtain ⟨-, ht⟩ := Option.ite_none_right_eq_some.mp <| (if_neg hrc).symm.trans ht
      obtain rfl := Option.some.inj ht
      exact hsyscall rfl rfl nofun

end Handshake

end K10.Tcore
