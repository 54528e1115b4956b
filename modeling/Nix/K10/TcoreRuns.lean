import Nix.K10.TcoreCalls

namespace K10.Tcore

variable {P C : Type} [DecidableEq P] [DecidableEq C] {s s' : State P C} {p q r : P} {mp : C} {k : For P} {pc : Pc P C}
variable {x y : Proc P C} {m : Mach P} {fn : Fn} {c : Call} {rest : List Call}

theorem modify {f : Call → Call} {l : List Call} (h : l = c :: rest) : l.modifyHead f = f c :: rest := by
  rw [h, List.modifyHead_cons]

namespace Handshake

theorem serve' (h : Handshake s) (hpair : Paired s) {fn : Fn} {rest : List Call} (hserving : s.Serving mp p fn c rest)
    {c' : Call} (hcalls : m.calls = c' :: rest) (hserves : m.Serves p fn (s.proc p).ready c') : Handshake (s.setm mp m) := by
  have hself : s.setp p (s.proc p) = s := by
    rw [State.setp, Function.update_eq_self]
  have := h.serve hpair hserving rfl rfl rfl hcalls hserves
  rwa [hself] at this

theorem busy (h : Handshake s) (hpair : Paired s) (hserving : s.Serving mp p fn c rest) (hbusy : (s.mach mp).Busy p fn c)
    (hready : (s.proc p).ready = false) (ht : s.core mp = some s') : Handshake s' := by
  obtain ⟨hstored, hreturned, -⟩ := hserving.serves
  have hcalls := hserving.calls
  obtain ⟨hfn, hcleared, hphase⟩ := hbusy
  have hone {f : Fn} (hran : c.ran = []) : c.ran ++ [f] = [f] := by rw [hran, List.nil_append]
  rw [State.core] at ht
  cases hpc : (s.mach mp).pc <;> rw [hpc] at hphase <;> simp only [hpc, hfn] at ht
  case acsched =>
    cases fn
    case actrapret => exact absurd rfl hphase.right
    case actouser | acsysret =>
      obtain rfl := Option.some.inj ht
      refine h.serve' hpair hserving (modify hcalls)
        ⟨hstored, hreturned, .inl ⟨⟨rfl, hcleared, ?_⟩, hready⟩⟩
      exact hone hphase.left
    case acpmc rc =>
      obtain rfl := Option.some.inj ht
      refine h.serve' hpair hserving (modify <| modify hcalls)
        ⟨hstored, hreturned, .inl ⟨⟨rfl, hcleared, ?_, rfl⟩, hready⟩⟩
      exact hone hphase.left
  case actrap =>
    cases fn
    case actrapret =>
      obtain rfl := Option.some.inj ht
      refine h.serve' hpair hserving (modify hcalls)
        ⟨hstored, hreturned, .inl ⟨⟨rfl, hcleared, ?_⟩, hready⟩⟩
      exact hone hphase
    case actouser | acsysret | acpmc =>
      obtain rfl := Option.some.inj ht
      exact h.serve' hpair hserving hcalls ⟨hstored, hreturned, .inl ⟨⟨rfl, hcleared, hphase, by simp⟩, hready⟩⟩
  case user => contradiction
  case returned =>
    obtain rfl := Option.some.inj ht
    refine h.serve' hpair hserving (modify hcalls)
      ⟨hstored, hreturned, .inr ⟨rfl, rfl, hphase.left, hphase.right, ?_⟩⟩
    exact fun hr => absurd (hready.symm.trans hr) (by simp)
  case post p' =>
    obtain rfl := Option.some.inj ht
    obtain ⟨hran, hrc, hp', hrc'⟩ := hphase
    exact h.serve' hpair hserving (modify hcalls)
      ⟨hstored, hreturned, .inr ⟨rfl, rfl, hran, hrc, hready, hp', hrc'⟩⟩
  case ready => exact hphase.elim

theorem answered (h : Handshake s) (hpair : Paired s) (hserving : s.Serving mp p fn c rest)
    (hanswered : (s.mach mp).Answered p fn (s.proc p).ready c) (ht : s.core mp = some s') : Handshake s' := by
  obtain ⟨hstored, hreturned, -⟩ := hserving.serves
  have hcalls := hserving.calls
  obtain ⟨hfn, hcleared, hran, hrc, hphase⟩ := hanswered
  rw [State.core] at ht
  cases hpc : (s.mach mp).pc <;> rw [hpc] at hphase <;> simp only [hpc, hfn] at ht
  case acsched | actrap | user => contradiction
  case returned | post => exact hphase.elim
  case ready p' =>
    obtain ⟨hready, hp', hrc'⟩ := hphase
    cases p'
    case none =>
      obtain ⟨q, hq, ht⟩ := Option.bind_eq_some_iff.mp ht
      obtain rfl := Option.some.inj <| (proc_of_sched hpair hserving.sched).symm.trans hq
      obtain rfl := Option.some.inj ht
      exact h.serve hpair hserving rfl rfl rfl hcalls ⟨hstored, hreturned, .inr ⟨rfl, hcleared, hran, hrc, rfl⟩⟩
    case some q =>
      obtain rfl := hp' q rfl
      obtain rfl := Option.some.inj ht
      exact h.serve hpair hserving rfl rfl rfl hcalls ⟨hstored, hreturned, .inr ⟨rfl, hcleared, hran, hrc, fun _ => hrc'⟩⟩

theorem core' (h : Handshake s) (hpair : Paired s) (ht : s.core mp = some s') : Handshake s' := by
  rcases h.core mp with ⟨p, fn, c, rest, hserving⟩ | ⟨-, hquiet⟩
  case inl =>
    rcases hserving.serves.phase with ⟨hbusy, hready⟩ | hanswered
    · exact h.busy hpair hserving hbusy hready ht
    · exact h.answered hpair hserving hanswered ht
  case inr =>
    rw [State.core] at ht
    rcases hquiet.pc with hpc | hpc <;> simp only [hpc, hquiet.fn] at ht <;> contradiction

omit [DecidableEq P] [DecidableEq C] in
theorem user (h : Handshake s) (hpc : (s.mach mp).pc = .user) : ∃ p fn c rest, s.Serving mp p fn c rest ∧
    (s.mach mp).fn = some fn ∧ c.cleared = false ∧ c.ran = [fn] ∧ (s.proc p).ready = false := by
  rcases h.core mp with ⟨p, fn, c, rest, hserving⟩ | ⟨-, hquiet⟩
  case inl =>
    rcases hserving.serves.phase with ⟨⟨hfn, hcleared, hphase⟩, hready⟩ | ⟨-, -, -, -, hphase⟩ <;> rw [hpc] at hphase
    · exact ⟨p, fn, c, rest, hserving, hfn, hcleared, hphase, hready⟩
    · exact hphase.elim
  case inr => rcases hquiet.pc with h' | h' <;> exact nomatch hpc.symm.trans h'

theorem actrap {type : Trap} (h : Handshake s) (hpair : Paired s) (ht : s.actrap mp type = some s') : Handshake s' := by
  obtain ⟨q, hq, ht⟩ := Option.bind_eq_some_iff.mp ht
  obtain ⟨hpc, ht⟩ := Option.ite_none_left_eq_some.mp ht
  obtain rfl := Option.some.inj ht
  obtain ⟨p, fn, c, rest, hserving, hfn, hcleared, hran, hready⟩ := h.user <| not_not.mp hpc
  obtain rfl := Option.some.inj <| (proc_of_sched hpair hserving.sched).symm.trans hq
  refine h.serve hpair hserving rfl rfl rfl (modify hserving.calls) ?_
  exact ⟨hserving.serves.stored, hserving.serves.returned, .inl ⟨⟨hfn, hcleared, hran, rfl, nofun, rfl⟩, hready⟩⟩

theorem acsyscall (h : Handshake s) (hpair : Paired s) (ht : s.acsyscall mp = some s') : Handshake s' := by
  obtain ⟨q, hq, ht⟩ := Option.bind_eq_some_iff.mp ht
  obtain ⟨hpc, ht⟩ := Option.ite_none_left_eq_some.mp ht
  obtain rfl := Option.some.inj ht
  obtain ⟨p, fn, c, rest, hserving, hfn, hcleared, hran, hready⟩ := h.user <| not_not.mp hpc
  obtain rfl := Option.some.inj <| (proc_of_sched hpair hserving.sched).symm.trans hq
  refine h.serve' hpair hserving (modify hserving.calls) ?_
  refine ⟨hserving.serves.stored, hserving.serves.returned, .inl ⟨⟨hfn, hcleared, hran, rfl, fun r hr => ?_, rfl⟩, hready⟩⟩
  exact (Option.some.inj hr).symm

omit [DecidableEq C] in
theorem goto (h : Handshake s) (hp : (s.proc p).pc = pc) (hold : ∀ fn mp, pc ≠ .sched fn mp)
    (hnew : ∀ fn mp, x.pc ≠ .sched fn mp) (hctx : x.ctx = (s.proc p).ctx)
    (hac : ∀ mp, x.ac = some mp → (s.proc p).ac = some mp) (hready : x.ready = (s.proc p).ready)
    (hret : x.pc.Returns → ∃ t, (s.proc p).ctx = .trap t) (hsys : x.pc.Sys → ∀ t, (s.proc p).ctx ≠ .trap t) :
    Handshake (s.setp p x) := by
  refine h.setp (fun fn mp => hp ▸ hold fn mp) hnew ⟨fun hx => ?_, fun t mp ht hx hsched => ?_, hctx.symm ▸ hret, hctx.symm ▸ hsys⟩
  · exact nomatch hx.symm.trans <| hready.trans <| h.not_ready fun fn mp => hp ▸ hold fn mp
  · exact (h.ctx p).trap t mp (hctx ▸ ht) (hac mp hx) fun fn => hp ▸ hold fn mp

omit [DecidableEq C] in
theorem calls (h : Handshake s) (hp : (s.proc p).pc = pc) (hold : ∀ fn mp, pc ≠ .sched fn mp)
    (hnew : ∀ fn mp, x.pc ≠ .sched fn mp) (hready : x.ready = (s.proc p).ready) (hctx : ∀ t, x.ctx ≠ .trap t)
    (hret : ¬ x.pc.Returns) : Handshake (s.setp p x) := by
  refine h.setp (fun fn mp => hp ▸ hold fn mp) hnew
    ⟨fun hx => ?_, fun t mp ht _ _ => absurd ht <| hctx t, fun hr => absurd hr hret, fun _ => hctx⟩
  exact nomatch hx.symm.trans <| hready.trans <| h.not_ready fun fn mp => hp ▸ hold fn mp

omit [DecidableEq P] in
theorem setproc (h : Handshake s) (v : Option P) : Handshake (s.setm mp { s.mach mp with proc := v }) :=
  h.setm rfl (fun _ _ _ hs => ⟨hs.stored, hs.returned, hs.phase⟩) rfl rfl

theorem runac (h : Handshake s) (hpair : Paired s) (hp : (s.proc p).pc = .runac fn) (ht : s.runac p fn = some s') :
    Handshake s' := by
  obtain ⟨mp, hac, ht⟩ := Option.bind_eq_some_iff.mp ht
  obtain ⟨-, ht⟩ := Option.ite_none_left_eq_some.mp ht
  obtain rfl := Option.some.inj ht
  have hrest := h.resting hpair hac (hp ▸ nofun) fun _ _ => hp ▸ nofun
  have hctx := h.ctx p
  refine h.turn (fun _ _ hq => nomatch hp.symm.trans hq) ?_ (.inl rfl)
    (.inr ⟨fun q fn _ => hrest.sched q fn, ?_, hrest.quiet.fn, hrest.quiet.pc, hrest.quiet.calls⟩) ?_
  · exact fun _ _ => nofun
  · exact fun _ => nofun
  refine State.InCtx.setm ⟨fun hr => ?_, fun t mp' ht hmp _ => ?_, fun hr => ?_, fun hs => ?_⟩ rfl
  · exact nomatch hr.symm.trans <| h.not_ready fun _ _ => hp ▸ nofun
  · exact hctx.trap t mp' ht hmp fun _ => hp ▸ nofun
  · refine hctx.ret ?_
    rw [hp]
    cases fn <;> exact hr
  · refine hctx.sys ?_
    rw [hp]
    cases fn <;> exact hs

omit [DecidableEq C] in
theorem leave (h : Handshake s) (hp : (s.proc p).pc = .leave) : Handshake (s.leave p) := by
  rw [State.leave]
  split
  case h_1 => exact h.goto hp (by simp) (by simp) rfl (fun _ => id) rfl False.elim False.elim
  case h_2 =>
    split
    · exact h.calls hp (by simp) (by simp) rfl (by simp) id
    · exact h.goto hp (by simp) (by simp) rfl (fun _ => id) rfl False.elim False.elim
  case h_3 t ht =>
    split
    · exact h.calls hp (by simp) (by simp) rfl (by simp) id
    · exact h.goto hp (by simp) (by simp) rfl (fun _ => id) rfl (fun _ => ⟨t, ht⟩) False.elim

omit [DecidableEq C] in
theorem forked (h : Handshake s) (hpair : Paired s) (hp : (s.proc p).pc = .forked q) (hnew : ∀ fn mp, x.pc ≠ .sched fn mp)
    (hctx : x.ctx = (s.proc q).ctx) (hac : x.ac = (s.proc q).ac) (hready : x.ready = (s.proc q).ready)
    (hret : ¬ x.pc.Returns) (hsys : ¬ x.pc.Sys) : Handshake ((s.setp q x).setp p { s.proc p with pc := .kernel }) := by
  have hq := hpair.lies p
  rw [hp] at hq
  have hpq : p ≠ q := by
    rintro rfl
    exact nomatch Eq.trans hp.symm hq
  have h₁ : Handshake (s.setp q x) :=
    h.goto hq nofun hnew hctx (fun mp hmp => hac ▸ hmp) hready (fun h => absurd h hret) fun h => absurd h hsys
  have hp₁ : (s.setp q x).proc p = s.proc p := setp_of_ne hpq
  exact h₁.goto ((congrArg Proc.pc hp₁).trans hp) nofun nofun (congrArg Proc.ctx hp₁).symm
    (fun mp hmp => (congrArg Proc.ac hp₁).trans hmp) (congrArg Proc.ready hp₁).symm False.elim False.elim

theorem run (h : Handshake s) (hpair : Paired s) (ht : s.run p = some s') : Handshake s' := by
  have hctx := h.ctx p
  rw [State.run] at ht
  cases hp : (s.proc p).pc <;> rw [hp] at ht <;> dsimp only at ht
  case dead | embryo | lost | user => contradiction
  case kernel =>
    obtain rfl := Option.some.inj ht
    rw [State.ret]
    split <;> exact h.goto hp (by simp) (by simp) rfl (fun _ => id) rfl False.elim False.elim
  case leave =>
    obtain rfl := Option.some.inj ht
    exact h.leave hp
  case getac k =>
    obtain ⟨-, ht⟩ := Option.ite_none_left_eq_some.mp ht
    obtain rfl := Option.some.inj ht
    refine Handshake.unlocked ?_ (some p)
    exact h.goto hp (by simp) (by simp) rfl (fun _ => id) rfl False.elim fun _ => hctx.sys <| hp ▸ trivial
  case scan k =>
    obtain rfl := Option.some.inj ht
    cases s.idle <;> dsimp only <;>
      exact h.goto hp (by simp) (by simp) rfl (fun _ => id) rfl False.elim fun _ => hctx.sys <| hp ▸ trivial
  case found k mp =>
    obtain rfl := Option.some.inj ht
    exact (h.setproc _).goto hp (by simp) (by simp) rfl (fun _ => id) rfl False.elim fun _ => hctx.sys <| hp ▸ trivial
  case unlock k mp =>
    obtain rfl := Option.some.inj ht
    have hsys := hctx.sys <| hp ▸ trivial
    refine Handshake.unlocked ?_ none
    cases mp
    case some mp => exact h.goto hp (by simp) (by simp) rfl (fun _ => id) rfl False.elim fun _ => hsys
    case none => cases k <;> exact h.goto hp (by simp [For.error]) (by simp [For.error]) rfl (fun _ => id) rfl False.elim fun _ => hsys
  case assign k mp =>
    obtain rfl := Option.some.inj ht
    have hsys := hctx.sys <| hp ▸ trivial
    cases k
    case self | execac => exact h.calls hp (by simp) (by simp) rfl hsys id
    case child q =>
      have hat := hpair.lies p
      rw [hp] at hat
      have hq : (s.proc q).pc = .embryo p := hat.left.child q rfl
      have hpq : p ≠ q := by
        rintro rfl
        exact absurd (hp.symm.trans hq) (by simp)
      have h₁ : Handshake (s.setp q { s.proc q with ac := some mp, procctl := some .toac }) := by
        refine h.calls hq (by simp) (fun _ _ => ?_) rfl ((h.ctx q).sys <| hq ▸ trivial) ?_
        · dsimp only
          rw [hq]
          simp
        · dsimp only
          rw [hq]
          exact id
      have hp₁ := setp_of_ne (s := s) (x := { s.proc q with ac := some mp, procctl := some .toac }) hpq
      exact h₁.goto ((congrArg Proc.pc hp₁).trans hp) (by simp) (by simp) (congrArg Proc.ctx hp₁).symm
        (fun mp' hmp => (congrArg Proc.ac hp₁).trans hmp) (congrArg Proc.ready hp₁).symm False.elim
        fun _ t ht => hsys t <| (congrArg Proc.ctx hp₁).symm.trans ht
  case forked q =>
    obtain rfl := Option.some.inj ht
    exact h.forked hpair hp (by simp) rfl rfl rfl id id
  case execac flags =>
    obtain rfl := Option.some.inj ht
    exact h.goto hp (by simp) (by simp) rfl (fun _ => id) rfl False.elim False.elim
  case failing flags =>
    obtain rfl := Option.some.inj ht
    have hsys := hctx.sys <| hp ▸ trivial
    have hgoto {s₁ : State P C} {x : Proc P C} (h₁ : Handshake s₁) (hproc : s₁.proc = s.proc) (hx : x.pc = .clearac)
        (hready : x.ready = (s.proc p).ready) (hx' : x.ctx = (s.proc p).ctx) : Handshake (s₁.setp p x) := by
      have hp₁ : (s₁.proc p).pc = .failing flags := hproc ▸ hp
      refine h₁.calls hp₁ (by simp) (fun _ _ => hx ▸ (by simp)) (hproc ▸ hready) (hx' ▸ hsys) ?_
      rw [hx]
      exact id
    cases (s.proc p).ac <;> dsimp only
    case none => exact hgoto h rfl rfl rfl rfl
    case some mp =>
      split
      · exact hgoto (h.setproc none) rfl rfl rfl rfl
      · exact hgoto h rfl rfl rfl rfl
  case clearac =>
    obtain rfl := Option.some.inj ht
    exact h.goto hp (by simp) (by simp) rfl (by simp) rfl False.elim False.elim
  case stop k =>
    cases hac : (s.proc p).ac <;> rw [hac] at ht
    case none =>
      obtain rfl := Option.some.inj ht
      cases k <;> exact h.goto hp (by simp [Stop.next]) (by simp [Stop.next]) rfl (by simp) rfl False.elim False.elim
    case some mp =>
      obtain ⟨-, ht⟩ := Option.ite_none_left_eq_some.mp ht
      obtain rfl := Option.some.inj ht
      exact h.goto hp (by simp) (by simp) rfl (fun _ => hac.trans) rfl False.elim False.elim
  case stoplock k mp =>
    obtain ⟨-, ht⟩ := Option.ite_none_left_eq_some.mp ht
    obtain rfl := Option.some.inj ht
    refine Handshake.unlocked ?_ (some p)
    exact h.goto hp (by simp) (by simp) rfl (fun _ => id) rfl False.elim False.elim
  case stopac k mp =>
    obtain rfl := Option.some.inj ht
    exact h.goto hp (by simp) (by simp) rfl (by simp) rfl False.elim False.elim
  case stopproc k mp =>
    obtain rfl := Option.some.inj ht
    exact (h.setproc none).goto hp (by simp) (by simp) rfl (fun _ => id) rfl False.elim False.elim
  case stopunlock k =>
    obtain rfl := Option.some.inj ht
    refine Handshake.unlocked ?_ none
    cases k <;> exact h.goto hp (by simp [Stop.next]) (by simp [Stop.next]) rfl (fun _ => id) rfl False.elim False.elim
  case runac fn => exact h.runac hpair hp ht
  case store fn mp =>
    obtain rfl := Option.some.inj ht
    exact h.store hpair hp
  case sched fn mp =>
    obtain ⟨hready, ht⟩ := Option.ite_none_right_eq_some.mp ht
    exact h.resume hpair hp hready ht

omit [DecidableEq P] [DecidableEq C] in
theorem not_trap_of_calls (hp : s.Calls p) (t : Trap) : (s.proc p).ctx ≠ .trap t := by
  rcases hp.right with hctx | hctx <;> rw [hctx] <;> exact nofun

theorem rfork {RFPROC RFCORE RFCCORE : Bool} (h : Handshake s) (hp : s.Calls p)
    (ht : s.rfork p RFPROC RFCORE RFCCORE q = some s') : Handshake s' := by
  have hctx := not_trap_of_calls hp
  rw [State.rfork] at ht
  dsimp only at ht
  split at ht
  case isTrue => exact Option.some.inj ht ▸ h
  case isFalse =>
    split at ht
    case isTrue =>
      split at ht
      case isTrue =>
        obtain rfl := Option.some.inj ht
        exact h.calls hp.left (by simp) (by simp) rfl hctx id
      case isFalse =>
        split at ht
        case isFalse => exact Option.some.inj ht ▸ h
        case isTrue =>
          obtain rfl := Option.some.inj ht
          refine h.calls hp.left (by simp) (fun _ _ => ?_) rfl hctx ?_
          · change (s.proc p).pc ≠ _
            rw [hp.left]
            simp
          · change ¬ (s.proc p).pc.Returns
            rw [hp.left]
            exact id
    case isFalse =>
      obtain ⟨hq, ht⟩ := Option.ite_none_right_eq_some.mp ht
      obtain rfl := Option.some.inj ht
      have hpq : p ≠ q := by
        rintro rfl
        exact absurd (hp.left.symm.trans hq) (by simp)
      obtain ⟨x, hx⟩ : ∃ x : Proc P C, x = { s.proc q with
        pc := .embryo p, ctx := .tc, ac := none, procctl := none, wired := (s.proc p).wired } := ⟨_, rfl⟩
      have h₁ : Handshake (s.setp q x) := by
        rw [hx]
        exact h.calls hq (by simp) (by simp) rfl (by simp) id
      have hp₁ : (s.setp q x).proc p = s.proc p := setp_of_ne hpq
      rw [← hx]
      refine h₁.calls ((congrArg Proc.pc hp₁).trans hp.left) (by simp) ?_ (congrArg Proc.ready hp₁).symm hctx ?_ <;> split <;>
        simp [Pc.Returns]

theorem step {act : Act P C} (h : Handshake s) (hpair : Paired s) (ht : step s act = some s') : Handshake s' := by
  cases act
  case enter p =>
    obtain ⟨hp, ht⟩ := Option.ite_none_right_eq_some.mp ht
    obtain rfl := Option.some.inj ht
    exact h.goto hp (by simp) (by simp) rfl (fun _ => id) rfl False.elim False.elim
  case rfork =>
    obtain ⟨hp, ht⟩ := Option.ite_none_right_eq_some.mp ht
    exact h.rfork hp ht
  case execac p flags =>
    obtain ⟨hp, ht⟩ := Option.ite_none_right_eq_some.mp ht
    obtain rfl := Option.some.inj ht
    rw [State.execac]
    split
    · exact h.calls hp.left (by simp) (by simp) rfl (not_trap_of_calls hp) id
    split
    · exact h.calls hp.left (by simp) (by simp) rfl (not_trap_of_calls hp) id
    · exact h
  case pmcwrite =>
    obtain ⟨hp, ht⟩ := Option.ite_none_right_eq_some.mp ht
    obtain rfl := Option.some.inj ht
    exact h.calls hp.left.left (by simp) (by simp) rfl (not_trap_of_calls hp.left) id
  case pexit =>
    obtain ⟨hp, ht⟩ := Option.ite_none_right_eq_some.mp ht
    obtain rfl := Option.some.inj ht
    exact h.goto hp (by simp) (by simp) rfl (fun _ => id) rfl False.elim False.elim
  case error p =>
    rw [K10.Tcore.step] at ht
    cases hp : (s.proc p).pc <;> rw [hp] at ht <;> try contradiction
    case forked q =>
      obtain rfl := Option.some.inj ht
      exact h.forked hpair hp (by simp) rfl rfl rfl id id
    case execac flags =>
      obtain rfl := Option.some.inj ht
      exact h.goto hp (by simp) (by simp) rfl (fun _ => id) rfl False.elim fun _ => (h.ctx p).sys <| hp ▸ trivial
  case late p =>
    rw [K10.Tcore.step] at ht
    cases hp : (s.proc p).pc <;> rw [hp] at ht <;> try contradiction
    obtain rfl := Option.some.inj ht
    exact h.goto hp (by simp) (by simp) rfl (fun _ => id) rfl False.elim False.elim
  case run => exact h.run hpair ht
  case core => exact h.core' hpair ht
  case actrap => exact h.actrap hpair ht
  case acsyscall => exact h.acsyscall hpair ht

omit [DecidableEq P] [DecidableEq C] in
theorem of_init (hi : Init s) : Handshake s where
  core mp := by
    refine .inr ⟨fun p fn => ?_, (hi.mach mp).right.left, .inl (hi.mach mp).right.right.left, ?_⟩
    · rcases hi.pc p with hp | hp <;> rw [hp] <;> exact nofun
    · rw [(hi.mach mp).right.right.right]
      exact fun _ hc => absurd hc List.not_mem_nil
  ctx p   := by
    obtain ⟨hctx, hac, hready⟩ := hi.proc p
    refine ⟨fun hr => (nomatch hready.symm.trans hr), fun t _ ht => (nomatch hctx.symm.trans ht), fun hr => ?_, fun hs => ?_⟩
    · rcases hi.pc p with hp | hp <;> rw [hp] at hr <;> exact hr.elim
    · rcases hi.pc p with hp | hp <;> rw [hp] at hs <;> exact hs.elim

end Handshake

theorem invariant : machine.Invariant Fits fun s : State P C => Paired s ∧ Handshake s where
  init hi       := ⟨.of_init hi, .of_init hi⟩
  step hs hf ht := ⟨hs.left.step hf ht, hs.right.step hs.left ht⟩

-- A core is being assigned or given up.
def Pc.Assigns : Pc P C → Prop
  | .assign .. | .clearac => True
  | _                     => False

instance (pc : Pc P C) : Decidable pc.Assigns := by
  unfold Pc.Assigns
  split <;> infer_instance

namespace Paired

omit [DecidableEq P] [DecidableEq C] in
theorem ac_iff (h : Paired s) (hlock : s.lock = none) (hno : ∀ p, ¬ (s.proc p).pc.Assigns) :
    (s.proc p).ac = some mp ↔ (s.mach mp).proc = some p := by
  constructor
  · intro hac
    refine h.own p mp hac fun hclear => hno p ?_
    rw [hclear]
    trivial
  · intro hmp
    refine (h.busy p mp hmp).resolve_right fun ⟨r, hr⟩ => ?_
    have hlocked : ¬ (s.proc r).pc.Locked := fun hl => nomatch hlock.symm.trans <| (h.lock r).mpr hl
    have hassigns := hno r
    cases hpc : (s.proc r).pc <;> rw [hpc] at hr hlocked hassigns
    case assign => exact hassigns trivial
    case unlock | stopproc => exact hlocked trivial
    all_goals exact hr

omit [DecidableEq P] [DecidableEq C] in
theorem alive (h : Paired s) (hmp : (s.mach mp).proc = some p) : (s.proc p).pc ≠ .dead ∧ (s.proc p).pc ≠ .lost := by
  have hac (hnone : s.At p (s.proc p).pc → (s.proc p).ac = none) (hnot : ∀ r, (s.proc p).pc ≠ .embryo r)
      (hholds : ¬ (s.proc p).pc.Holds p p mp) : False := by
    rcases h.busy p mp hmp with hac | ⟨r, hr⟩
    · exact nomatch (hnone <| h.lies p).symm.trans hac
    · rcases ((h.lies r).holds hr).right.right with rfl | hembryo
      · exact hholds hr
      · exact hnot r hembryo
  constructor <;> intro hp <;> rw [hp] at hac <;> exact hac id nofun id

end Paired

-- The core executes a function in its next step, or in the one after.
def State.Executes (s : State P C) (mp : C) (c : Call) : Prop :=
  ∃ s' d rest, (s.core mp = some s' ∨ (s.core mp).bind (State.core · mp) = some s') ∧
    (s'.mach mp).calls = d :: rest ∧ d.fn = c.fn ∧ d.ran = [c.fn]

omit [DecidableEq P] [DecidableEq C] in
theorem Handshake.ran (h : Handshake s) (hc : c ∈ (s.mach mp).calls) :
    c.Done ∨ ∃ p fn rest, s.Serving mp p fn c rest := by
  rcases h.core mp with ⟨p, fn, d, rest, hserving⟩ | ⟨-, hquiet⟩
  · rw [hserving.calls, List.mem_cons] at hc
    rcases hc with rfl | hc
    · exact .inr ⟨p, fn, rest, hserving⟩
    · exact .inl <| hserving.done c hc
  · exact .inl <| hquiet.calls c hc

theorem executes_of_acsched (hpc : (s.mach mp).pc = .acsched) (hfn : (s.mach mp).fn = some c.fn)
    (hcalls : (s.mach mp).calls = c :: rest) (hran : c.ran = []) : ∃ s' d, s.core mp = some s' ∧
      (s'.mach mp).calls = d :: rest ∧ d.fn = c.fn ∧ d.ran = [c.fn] := by
  have hone {f : Fn} : c.ran ++ [f] = [f] := by rw [hran, List.nil_append]
  rw [State.core]
  simp only [hpc, hfn]
  cases hf : c.fn
  case acpmc => exact ⟨_, _, rfl, (congrArg Mach.calls setm_self).trans <| modify <| modify hcalls, hf, hone⟩
  all_goals exact ⟨_, _, rfl, (congrArg Mach.calls setm_self).trans <| modify hcalls, hf, hone⟩

theorem State.Serving.executes (h : s.Serving mp p fn c rest) (hran : c.ran = []) : s.Executes mp c := by
  obtain ⟨rfl, -, hphase⟩ := h.serves
  have hcalls := h.calls
  rcases hphase with ⟨⟨hfn, -, hphase⟩, -⟩ | ⟨-, -, hno, -⟩
  case inr => exact nomatch hran.symm.trans hno
  case inl =>
    cases hpc : (s.mach mp).pc <;> rw [hpc] at hphase
    case acsched =>
      obtain ⟨s', d, hs', hd⟩ := executes_of_acsched hpc hfn hcalls hran
      exact ⟨s', d, rest, .inl hs', hd⟩
    case actrap =>
      by_cases hf : c.fn = .actrapret
      case pos =>
        have hcore : s.core mp = some (s.setm mp { s.mach mp with
            pc := .user
            calls := (s.mach mp).calls.modifyHead fun c => { c with ran := c.ran ++ [.actrapret] } }) := by
          rw [State.core]
          simp only [hpc, hfn, hf]
        refine ⟨_, _, rest, .inl hcore, (congrArg Mach.calls setm_self).trans <| modify hcalls, rfl, ?_⟩
        rw [hran, List.nil_append, hf]
      case neg =>
        obtain ⟨s₁, hs₁⟩ : ∃ s₁, s₁ = s.setm mp { s.mach mp with pc := .acsched } := ⟨_, rfl⟩
        have hm : s₁.mach mp = { s.mach mp with pc := .acsched } := by rw [hs₁, setm_self]
        have hstep : s.core mp = some s₁ := by
          rw [State.core, hs₁]
          simp only [hpc, hfn]
        obtain ⟨s', d, hs', hd⟩ := executes_of_acsched (s := s₁) (by rw [hm]) (by rw [hm, hfn]) (by rw [hm, hcalls]) hran
        exact ⟨s', d, rest, .inr (by rw [hstep]; exact hs'), hd⟩
    case user => exact nomatch hran.symm.trans hphase
    case returned | post => exact nomatch hran.symm.trans hphase.left
    case ready => exact hphase.elim

-- A core has one process at most, which has it, and each function that a process gives it is executed once before
-- `runac` returns what the core stored for it.
theorem cores_assigned (hr : machine.Reachable Fits s) :
    (s.lock = none → (∀ p, ¬ (s.proc p).pc.Assigns) → ∀ p mp, (s.proc p).ac = some mp ↔ (s.mach mp).proc = some p) ∧
    (∀ p q mp, (s.proc p).ac = some mp → (s.proc q).ac = some mp → (s.proc p).pc ≠ .clearac → (s.proc q).pc ≠ .clearac →
      p = q) ∧
    (∀ p mp, (s.mach mp).proc = some p → (s.proc p).pc ≠ .dead ∧ (s.proc p).pc ≠ .lost) ∧
    (∀ mp, ∀ c ∈ (s.mach mp).calls,
      (c.ran = [c.fn] ∨ c.ran = [] ∧ s.Executes mp c) ∧
      ∀ rc, c.returned = some rc → c.ran = [c.fn] ∧ c.cleared = true ∧ c.rc = some rc) := by
  have ⟨hpair, hshake⟩ := invariant.holds hr
  refine ⟨fun hlock hno p mp => hpair.ac_iff hlock hno, fun p q mp hp hq hcp hcq => ?_, fun p mp => hpair.alive,
    fun mp c hc => ?_⟩
  · exact Option.some.inj <| (hpair.own p mp hp hcp).symm.trans <| hpair.own q mp hq hcq
  · rcases hshake.ran hc with ⟨hran, hcleared, rc, hrc, hreturned⟩ | ⟨p, fn, rest, hserving⟩
    · refine ⟨.inl hran, fun rc' hrc' => ⟨hran, hcleared, ?_⟩⟩
      rw [hrc, ← hreturned, hrc']
    · refine ⟨?_, fun rc hrc => nomatch hserving.serves.returned.symm.trans hrc⟩
      by_cases hran : c.ran = []
      · exact .inr ⟨hran, hserving.executes hran⟩
      · refine .inl ?_
        obtain ⟨rfl, -, hphase⟩ := hserving.serves
        rcases hphase with ⟨⟨-, -, hphase⟩, -⟩ | ⟨-, -, hone, -⟩
        · cases hpc : (s.mach mp).pc <;> rw [hpc] at hphase
          case acsched => exact absurd hphase.left hran
          case actrap => exact absurd hphase hran
          case user => exact hphase
          case returned | post => exact hphase.left
          case ready => exact hphase.elim
        · exact hone

instance (s : State P C) (act : Act P C) : Decidable (Fits s act) := by
  unfold Fits
  split
  · split <;> infer_instance
  · split <;> infer_instance
  · infer_instance

def booted : State (Fin 2) (Fin 2) where
  lock    := none
  machptr := [0, 1]
  proc p  :=
    { pc := if p = 0 then .user else .dead, ctx := .tc, ac := none, procctl := none, wired := false, dbgreg := .other, ready := false }
  mach _  :=
    { online := true, nixtype := .NIXAC, proc := none, fn := none, rc := 0, pc := .acsched, calls := [] }

theorem init_booted : Init booted where
  lock := rfl
  pc   := by decide
  proc := by decide
  mach := by decide

-- A process gets a core, traps there, makes a system call, and gives the core up.
def visiting : List (Act (Fin 2) (Fin 2)) :=
  [Act.enter 0, .rfork 0 false true false 1] ++ List.replicate 8 (Act.run 0) ++
    [Act.core 0, .actrap 0 .other, .core 0, .core 0] ++ List.replicate 5 (Act.run 0) ++
    [Act.core 0, .acsyscall 0, .core 0, .core 0, .run 0, .rfork 0 false false true 1] ++ List.replicate 7 (Act.run 0)

theorem cores_assigned_visiting : ∃ s : State (Fin 2) (Fin 2), machine.Reachable Fits s ∧
    ((s.proc 0).pc = .user ∧ (s.proc 0).ac = none ∧ (s.mach 0).calls.map Call.returned = [some ICCSYSCALL, some ICCTRAP]) ∧
    ∀ mp, ∀ c ∈ (s.mach mp).calls, ∀ rc, c.returned = some rc → c.ran = [c.fn] ∧ c.cleared = true ∧ c.rc = some rc := by
  have hrun : ((machine.guarded Fits).exec booted visiting).any (fun s => (s.proc 0).pc = .user ∧ (s.proc 0).ac = none ∧
      (s.mach 0).calls.map Call.returned = [some ICCSYSCALL, some ICCTRAP]) = true := by decide +kernel
  obtain ⟨s, hr, hs⟩ := Machine.exists_reachable init_booted hrun
  exact ⟨s, hr, of_decide_eq_true hs, fun mp c hc => ((cores_assigned hr).right.right.right mp c hc).right⟩

-- A process with a core fails to `exec`, or gets another core, or fails to `rfork` a process with a core.
def leaking : List (List (Act (Fin 2) (Fin 2))) :=
  let visit := [Act.enter 0, .rfork 0 false true false 1] ++ List.replicate 8 (Act.run 0) ++
    [Act.core 0, .acsyscall 0, .core 0, .core 0, .run 0]
  [visit ++ [Act.execac 0 EXTC, .error 0] ++ List.replicate 4 (Act.run 0),
    visit ++ [Act.rfork 0 false true false 1] ++ List.replicate 5 (Act.run 0),
    [Act.enter 0, .rfork 0 true true false 1] ++ List.replicate 5 (Act.run 0) ++ [Act.error 0]]

theorem cores_leak : leaking.Forall fun acts =>
    ∃ s, machine.exec booted acts = some s ∧ machine.Reachable (fun _ _ => True) s ∧
      s.lock = none ∧ (∀ p, ¬ (s.proc p).pc.Assigns) ∧
      ∃ p mp, (s.mach mp).proc = some p ∧ ((s.proc p).ac ≠ some mp ∨ (s.proc p).pc = .lost) := by
  rw [List.forall_iff_forall_mem]
  intro acts hacts
  have hrun : (machine.exec booted acts).any (fun s => s.lock = none ∧ (∀ p, ¬ (s.proc p).pc.Assigns) ∧
      ∃ p mp, (s.mach mp).proc = some p ∧ ((s.proc p).ac ≠ some mp ∨ (s.proc p).pc = .lost)) = true := by
    revert acts
    decide +kernel
  obtain ⟨s, hs, ht⟩ := (Option.any_eq_true ..).mp hrun
  exact ⟨s, hs, (Machine.Reachable.init init_booted).exec (fun _ _ _ => trivial) hs, of_decide_eq_true ht⟩

end K10.Tcore
