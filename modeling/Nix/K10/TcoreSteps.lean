import Nix.K10.TcorePairing

namespace K10.Tcore

variable {P C : Type} [DecidableEq P] [DecidableEq C] {s s' : State P C} {p q r : P} {mp : C} {k : For P} {pc : Pc P C}
variable {x y : Proc P C} {m : Mach P}

section Records

omit [DecidableEq C] in
@[simp]
theorem setp_self : (s.setp p x).proc p = x :=
  Function.update_self ..

omit [DecidableEq C] in
theorem setp_of_ne (h : r ≠ p) : (s.setp p x).proc r = s.proc r :=
  Function.update_of_ne h ..

omit [DecidableEq P] in
@[simp]
theorem setm_self : (s.setm mp m).mach mp = m :=
  Function.update_self ..

omit [DecidableEq P] in
theorem setm_of_ne {mp' : C} (h : mp' ≠ mp) : (s.setm mp m).mach mp' = s.mach mp' :=
  Function.update_of_ne h ..

omit [DecidableEq P] in
theorem setm_proc (h : m.proc = (s.mach mp).proc) (mp' : C) : ((s.setm mp m).mach mp').proc = (s.mach mp').proc := by
  by_cases hmm : mp' = mp
  · rw [hmm, setm_self, h]
  · rw [setm_of_ne hmm]

omit [DecidableEq C] in
theorem setp_ac (h : x.ac = (s.proc p).ac) (r : P) : ((s.setp p x).proc r).ac = (s.proc r).ac := by
  by_cases hrp : r = p
  · rw [hrp, setp_self, h]
  · rw [setp_of_ne hrp]

omit [DecidableEq C] in
theorem setp_pc (h : x.pc = (s.proc p).pc) (r : P) : ((s.setp p x).proc r).pc = (s.proc r).pc := by
  by_cases hrp : r = p
  · rw [hrp, setp_self, h]
  · rw [setp_of_ne hrp]

end Records

-- A core is taken for a process that has none, `execac` fails where the core it gives up is its own, and the child of an
-- `rfork` that fails has none.
def Fits (s : State P C) : Act P C → Prop
  | .run p   =>
    match (s.proc p).pc with
    | .scan k => s.idle ≠ none → (s.proc (k.target p)).ac = none
    | _       => True
  | .error p =>
    match (s.proc p).pc with
    | .execac flags => flags ≠ EXAC → (s.proc p).ac = none
    | .forked q     => (s.proc q).ac = none
    | _             => True
  | _        => True

namespace Paired

omit [DecidableEq C] in
theorem moveto (h : Paired s) (hp : (s.proc p).pc = pc) (l : Option P) (hac : x.ac = (s.proc p).ac)
    (hlock : Passes s.lock l p pc.Locked x.pc.Locked) (hembryo : ∀ r, pc ≠ .embryo r) (hclear : pc ≠ .clearac)
    (hholds : ∀ t mp, pc.Holds p t mp → x.pc.Holds p t mp) (hat : (s.setp p x).At p x.pc) :
    Paired { s.setp p x with lock := l } := by
  refine h.move p (fun r hr => congrArg Proc.pc <| setp_of_ne hr) (setp_ac hac) (fun _ => rfl) ?_ ?_ ?_ ?_ ?_
  · rw [hp]
    change Passes _ _ _ _ ((s.setp p x).proc p).pc.Locked
    rw [setp_self]
    exact hlock
  · exact fun r _ => h.not_refers (fun r => hp ▸ hembryo r) r
  · rw [hp]
    exact hclear
  · rw [hp]
    change ∀ t mp, pc.Holds p t mp → ((s.setp p x).proc p).pc.Holds p t mp
    rw [setp_self]
    exact hholds
  · change State.At _ _ ((s.setp p x).proc p).pc
    rw [setp_self]
    exact State.At.congr hat rfl (fun _ _ => ⟨rfl, rfl⟩) fun _ => .inl rfl

omit [DecidableEq C] in
theorem goto (h : Paired s) (hp : (s.proc p).pc = pc) (hac : x.ac = (s.proc p).ac)
    (hlocked : x.pc.Locked ↔ pc.Locked) (hembryo : ∀ r, pc ≠ .embryo r) (hclear : pc ≠ .clearac)
    (hholds : ∀ t mp, ¬ pc.Holds p t mp) (hat : (s.setp p x).At p x.pc) : Paired (s.setp p x) :=
  h.moveto hp s.lock hac (.inl ⟨rfl, hlocked⟩) hembryo hclear (fun t mp ht => absurd ht <| hholds t mp) hat

omit [DecidableEq P] [DecidableEq C] in
theorem idle_none (h : s.idle = some mp) : (s.mach mp).proc = none := by
  have := List.find?_some h
  simp only [decide_eq_true_eq] at this
  exact this.right.right

omit [DecidableEq C] in
theorem ret (h : Paired s) (hp : (s.proc p).pc = .kernel) : Paired (s.ret p) := by
  rw [State.ret]
  split <;> exact h.goto hp rfl Iff.rfl nofun nofun (fun _ _ => id) trivial

omit [DecidableEq C] in
theorem leave (h : Paired s) (hp : (s.proc p).pc = .leave) : Paired (s.leave p) := by
  rw [State.leave]
  split
  case h_1 => exact h.goto hp rfl Iff.rfl nofun nofun (fun _ _ => id) trivial
  case h_2 | h_3 => split <;> exact h.goto hp rfl Iff.rfl nofun nofun (fun _ _ => id) trivial

omit [DecidableEq C] in
theorem assign (h : Paired s) (hp : (s.proc p).pc = .assign k mp) : Paired (s.assign p mp k) := by
  cases k
  case self =>
    refine h.assigned hp (fun r hr => congrArg Proc.pc <| setp_of_ne hr) (fun r hr => congrArg Proc.ac <| setp_of_ne hr) ?_
      (fun _ => rfl) rfl ?_ ?_ <;> simp [State.assign, For.target, Pc.Locked, State.At]
  case execac =>
    refine h.assigned hp (fun r hr => congrArg Proc.pc <| setp_of_ne hr) (fun r hr => congrArg Proc.ac <| setp_of_ne hr) ?_
      (fun _ => rfl) rfl ?_ ?_ <;> simp [State.assign, For.target, Pc.Locked, State.At]
  case child q =>
    have hat := h.lies p
    rw [hp] at hat
    have hq : (s.proc q).pc = .embryo p := hat.left.child q rfl
    have hqp : q ≠ p := by
      rintro rfl
      rw [hp] at hq
      contradiction
    refine h.assigned hp (fun r hr => ?_) (fun r hr => ?_) ?_ (fun _ => rfl) rfl ?_ ?_
    · refine (congrArg Proc.pc <| setp_of_ne hr).trans ?_
      by_cases hrq : r = q
      · rw [hrq, setp_self]
      · rw [setp_of_ne hrq]
    · by_cases hrp : r = p
      · rw [hrp, State.assign, setp_self]
      · exact (congrArg Proc.ac <| setp_of_ne hrp).trans <| congrArg Proc.ac <| setp_of_ne hr
    · refine (congrArg Proc.ac <| setp_of_ne hqp).trans ?_
      rw [setp_self]
    · rw [State.assign, setp_self]
      exact id
    · rw [State.assign, setp_self, State.At, setp_of_ne hqp, setp_self]
      exact hq

omit [DecidableEq P] in
theorem setm (h : Paired s) (hm : m.proc = (s.mach mp).proc) : Paired (s.setm mp m) :=
  h.congr rfl (fun _ => rfl) (fun _ => rfl) <| setm_proc hm

-- A new process is made.
omit [DecidableEq C] in
theorem born (h : Paired s) (hq : (s.proc q).pc = .dead) (hx : x.pc = .embryo p) (hac : x.ac = none) :
    Paired (s.setp q x) := by
  have hat := h.lies q
  rw [hq] at hat
  refine h.goto hq (hac.trans hat.symm) ?_ nofun nofun (fun _ _ => id) ?_
  · rw [hx]
    exact Iff.rfl
  · rw [hx]
    trivial

omit [DecidableEq C] in
theorem forked (h : Paired s) (hp : (s.proc p).pc = .forked q) (hat : ∀ s' : State P C, s'.proc q = x → s'.At q x.pc)
    (hac : x.ac = (s.proc q).ac) (hlocked : ¬ x.pc.Locked) :
    Paired ((s.setp q x).setp p { s.proc p with pc := .kernel }) := by
  have hq := h.lies p
  rw [hp] at hq
  have hqp : q ≠ p := by
    rintro rfl
    exact nomatch Eq.trans hq.symm hp
  obtain ⟨s₁, hs₁⟩ : ∃ s₁, s₁ = s.setp p { s.proc p with pc := .kernel } := ⟨_, rfl⟩
  have h₁ : Paired s₁ := hs₁ ▸ h.goto hp rfl Iff.rfl nofun nofun (fun _ _ => id) trivial
  have hq₁ : s₁.proc q = s.proc q := hs₁ ▸ setp_of_ne hqp
  have hs' : (s.setp q x).setp p { s.proc p with pc := .kernel } = s₁.setp q x := by
    rw [hs₁, State.setp, State.setp, State.setp, State.setp]
    dsimp only
    rw [Function.update_comm hqp]
  have hset : (s₁.setp q x).proc q = x := setp_self
  rw [hs']
  refine h₁.move q (fun r hr => congrArg Proc.pc <| setp_of_ne hr) (setp_ac <| hq₁ ▸ hac) (fun _ => rfl) (.inl ⟨rfl, ?_⟩)
    (fun r hr href => ?_) ?_ (fun t mp hh => ?_) ?_
  · rw [hset, hq₁, hq]
    exact iff_of_false hlocked id
  · have := (h₁.lies r).child href
    rw [hq₁, hq] at this
    obtain rfl := Pc.embryo.inj this
    rw [hs₁, setp_self] at href
    exact href
  · rw [hq₁, hq]
    exact nofun
  · rw [hq₁, hq] at hh
    exact hh.elim
  · rw [hset]
    exact hat _ hset

theorem runac {fn : Fn} (h : Paired s) (hp : (s.proc p).pc = .runac fn) (ht : s.runac p fn = some s') : Paired s' := by
  obtain ⟨mp, hac, ht⟩ := Option.bind_eq_some_iff.mp ht
  obtain ⟨-, ht⟩ := Option.ite_none_left_eq_some.mp ht
  obtain rfl := Option.some.inj ht
  have hm : Paired (s.setm mp { s.mach mp with rc := ICCOK }) := h.setm rfl
  refine hm.goto hp rfl Iff.rfl nofun nofun (fun _ _ => id) ?_
  rw [State.At, setp_self]
  exact hac

theorem resume {fn : Fn} (h : Paired s) (hp : (s.proc p).pc = .sched fn mp) (ht : s.resume p fn mp = some s') :
    Paired s' := by
  have hm : Paired (s.setm mp
      { s.mach mp with calls := (s.mach mp).calls.modifyHead fun c => { c with returned := some (s.mach mp).rc } }) :=
    h.setm rfl
  have hgoto {ctx : Ctx} : Paired ((s.setm mp
      { s.mach mp with calls := (s.mach mp).calls.modifyHead fun c => { c with returned := some (s.mach mp).rc } }).setp p
      { s.proc p with ready := false, ctx, pc := .kernel }) :=
    hm.goto hp rfl Iff.rfl nofun nofun (fun _ _ => id) trivial
  cases fn
  case acpmc =>
    obtain rfl := Option.some.inj ht
    exact hgoto
  case actouser | acsysret | actrapret =>
    by_cases htrap : (s.mach mp).rc = ICCTRAP
    · obtain rfl := Option.some.inj <| (if_pos htrap).symm.trans ht
      exact hgoto
    · obtain ⟨-, ht⟩ := Option.ite_none_right_eq_some.mp <| (if_neg htrap).symm.trans ht
      obtain rfl := Option.some.inj ht
      exact hgoto

omit [DecidableEq C] in
theorem takes (hp : (s.proc p).pc = pc) (hpc : ∀ r, pc ≠ .embryo r)
    (hembryo : ∀ q, k = .child q → (s.proc q).pc = .embryo p) :
    ∀ q, k = .child q → ((s.setp p x).proc q).pc = .embryo p := by
  intro q hq
  have hembryo := hembryo q hq
  have hqp : q ≠ p := by
    rintro rfl
    exact hpc q <| hp.symm.trans hembryo
  rw [setp_of_ne hqp]
  exact hembryo

omit [DecidableEq C] in
theorem free (hp : (s.proc p).pc = pc) (hpc : ∀ r, pc ≠ .embryo r) (hac : x.ac = (s.proc p).ac) (hf : s.Free p k) :
    (s.setp p x).Free p k :=
  ⟨takes hp hpc hf.child, (setp_ac hac _).trans hf.ac⟩

theorem failing (h : Paired s) {flags : Nat} (hp : (s.proc p).pc = .failing flags) (ht : s.run p = some s') : Paired s' := by
  have hat := h.lies p
  rw [hp] at hat
  rw [State.run, hp] at ht
  dsimp only at ht
  cases hac : (s.proc p).ac
  case none =>
    rw [hac] at ht
    obtain rfl := Option.some.inj ht
    refine h.goto hp hac.symm Iff.rfl nofun nofun (fun _ _ => id) fun mp hmp => ?_
    rcases h.busy p mp hmp with hbusy | ⟨r, hr⟩
    · exact nomatch hac.symm.trans hbusy
    · rcases (h.lies r).holds hr with ⟨-, -, hpr | hpr⟩
      · rw [← hpr, hp] at hr
        exact hr
      · exact nomatch hp.symm.trans hpr
  case some mp =>
    have hflags : flags = EXAC := Classical.byContradiction fun hf => nomatch hac.symm.trans <| hat hf
    rw [hac] at ht
    dsimp only at ht
    rw [if_pos hflags] at ht
    obtain rfl := Option.some.inj ht
    have hproc : ((s.setm mp { s.mach mp with proc := none }).setp p { s.proc p with ac := some mp, pc := .clearac }).proc p =
      { s.proc p with ac := some mp, pc := .clearac } := setp_self
    refine h.release (h.own p mp hac <| hp ▸ nofun) (fun r => hp ▸ nofun) (hp ▸ nofun) (fun _ _ hh => ?_) (.inl ?_)
      (fun r hr => congrArg Proc.pc <| setp_of_ne hr) (setp_ac hac.symm) (congrArg Mach.proc setm_self)
      (fun mp' hmp => congrArg Mach.proc <| setm_of_ne hmp) rfl ?_ ?_
    · rw [hp] at hh
      exact hh.elim
    · rw [hproc]
    · rw [hproc, hp]
      exact Iff.rfl
    · rw [hproc]
      intro mp' hmp
      by_cases hmm : mp' = mp
      · rw [hmm] at hmp
        exact nomatch (congrArg Mach.proc setm_self).symm.trans hmp
      · have hmp : (s.mach mp').proc = some p := (congrArg Mach.proc <| setm_of_ne hmm).symm.trans hmp
        rcases h.busy p mp' hmp with hbusy | ⟨r, hr⟩
        · exact hmm <| Option.some.inj <| hbusy.symm.trans hac
        · exact nomatch hac.symm.trans ((h.lies r).holds hr).right.left

theorem stop (h : Paired s) {k : Stop} (hp : (s.proc p).pc = .stop k) (ht : s.run p = some s') : Paired s' := by
  rw [State.run, hp] at ht
  dsimp only at ht
  cases hac : (s.proc p).ac <;> rw [hac] at ht
  case none =>
    obtain rfl := Option.some.inj ht
    refine h.goto hp hac.symm ?_ nofun nofun (fun _ _ => id) ?_ <;> cases k
    case refine_1.totc | refine_1.exit | refine_1.moribund => exact Iff.rfl
    case refine_2.totc | refine_2.exit => trivial
    case refine_2.moribund =>
      change ((s.setp p _).proc p).ac = none
      rw [setp_self]
  case some mp =>
    obtain ⟨-, ht⟩ := Option.ite_none_left_eq_some.mp ht
    obtain rfl := Option.some.inj ht
    refine h.goto hp hac.symm Iff.rfl nofun nofun (fun _ _ => id) ?_
    change ((s.setp p _).proc p).ac = some mp
    rw [setp_self]

theorem run (h : Paired s) (hf : Fits s (.run p)) (ht : s.run p = some s') : Paired s' := by
  have hat := h.lies p
  cases hp : (s.proc p).pc
  case failing => exact h.failing hp ht
  case stop => exact h.stop hp ht
  all_goals
    rw [State.run, hp] at ht
    rw [hp] at hat
    dsimp only at ht
  case dead | embryo | lost | user => contradiction
  case kernel =>
    obtain rfl := Option.some.inj ht
    exact h.ret hp
  case leave =>
    obtain rfl := Option.some.inj ht
    exact h.leave hp
  case getac k =>
    obtain ⟨hlock, ht⟩ := Option.ite_none_left_eq_some.mp ht
    obtain rfl := Option.some.inj ht
    exact h.moveto hp _ rfl (.inr <| .inl ⟨not_not.mp hlock, rfl, trivial⟩) nofun nofun (fun _ _ => False.elim) <|
      takes hp nofun hat
  case scan k =>
    obtain rfl := Option.some.inj ht
    cases hidle : s.idle
    case none => exact h.goto hp rfl Iff.rfl nofun nofun (fun _ _ => id) <| takes hp nofun hat
    case some mp =>
      refine h.goto hp rfl Iff.rfl nofun nofun (fun _ _ => id) ⟨⟨takes hp nofun hat, ?_⟩, idle_none hidle⟩
      rw [Fits, hp] at hf
      rw [setp_ac]
      · exact hf <| hidle ▸ nofun
      · rfl
  case found k mp =>
    obtain rfl := Option.some.inj ht
    refine h.claim hp (congrArg Proc.pc setp_self) (fun r hr => congrArg Proc.pc <| setp_of_ne hr) (setp_ac rfl) ?_ ?_ rfl
    · exact congrArg Mach.proc setm_self
    · exact fun mp' hmp => congrArg Mach.proc <| setm_of_ne hmp
  case unlock k mp =>
    obtain rfl := Option.some.inj ht
    cases mp
    case some mp =>
      exact h.moveto hp _ rfl (.inr <| .inr ⟨rfl, trivial, id⟩) nofun nofun (fun _ _ => id)
        ⟨free hp nofun rfl hat.left, hat.right⟩
    case none =>
      refine h.moveto hp _ rfl (.inr <| .inr ⟨rfl, trivial, ?_⟩) nofun nofun (fun _ _ => False.elim) ?_ <;> cases k
      case refine_1.self | refine_1.child | refine_1.execac => exact id
      case refine_2.self | refine_2.execac => trivial
      case refine_2.child q => exact takes hp nofun hat q rfl
  case assign k mp =>
    obtain rfl := Option.some.inj ht
    exact h.assign hp
  case forked q =>
    obtain rfl := Option.some.inj ht
    exact h.forked hp (fun _ _ => trivial) rfl id
  case execac flags =>
    obtain rfl := Option.some.inj ht
    exact h.goto hp rfl Iff.rfl nofun nofun (fun _ _ => id) trivial
  case clearac =>
    obtain rfl := Option.some.inj ht
    refine h.dropped (fun r => hp ▸ nofun) (fun _ _ => hp ▸ id) (fun mp hmp => absurd hmp <| hat mp)
      (fun r hr => congrArg Proc.pc <| setp_of_ne hr) (fun r hr => congrArg Proc.ac <| setp_of_ne hr) ?_ (fun _ => rfl) rfl ?_ ?_
    all_goals rw [setp_self]
    · rw [hp]
      exact Iff.rfl
    · trivial
  case stoplock k mp =>
    obtain ⟨hlock, ht⟩ := Option.ite_none_left_eq_some.mp ht
    obtain rfl := Option.some.inj ht
    refine h.moveto hp _ rfl (.inr <| .inl ⟨not_not.mp hlock, rfl, trivial⟩) nofun nofun (fun _ _ => False.elim) ?_
    exact (congrArg Proc.ac setp_self).trans hat
  case stopac k mp =>
    obtain rfl := Option.some.inj ht
    refine h.dropped (fun r => hp ▸ nofun) (fun _ _ => hp ▸ id) (fun mp' hmp => ?_)
      (fun r hr => congrArg Proc.pc <| setp_of_ne hr) (fun r hr => congrArg Proc.ac <| setp_of_ne hr) ?_ (fun _ => rfl) rfl ?_ ?_
    all_goals rw [setp_self]
    · rcases h.busy p mp' hmp with hac | ⟨r, hr⟩
      · exact ⟨rfl, Option.some.inj <| Eq.trans hat.symm hac⟩
      · exact nomatch Eq.trans hat.symm ((h.lies r).holds hr).right.left
    · rw [hp]
      exact Iff.rfl
    · exact ⟨h.own p mp hat <| hp ▸ nofun, by rw [setp_self]⟩
  case stopproc k mp =>
    obtain rfl := Option.some.inj ht
    refine h.release hat.left (fun r => hp ▸ nofun) (hp ▸ nofun) (fun _ _ hh => ?_) (.inr ?_)
      (fun r hr => congrArg Proc.pc <| setp_of_ne hr) (setp_ac rfl) (congrArg Mach.proc setm_self)
      (fun mp' hmp => congrArg Mach.proc <| setm_of_ne hmp) rfl ?_ ?_
    · rw [hp] at hh
      exact hh.right.symm
    · rw [hat.right]
      exact nofun
    · rw [setp_self, hp]
      exact Iff.rfl
    · rw [setp_self]
      exact (congrArg Proc.ac setp_self).trans hat.right
  case stopunlock k =>
    obtain rfl := Option.some.inj ht
    refine h.moveto hp _ rfl (.inr <| .inr ⟨rfl, trivial, ?_⟩) nofun nofun (fun _ _ => False.elim) ?_ <;> cases k
    case refine_1.totc | refine_1.exit | refine_1.moribund => exact id
    case refine_2.totc | refine_2.exit => trivial
    case refine_2.moribund => exact (congrArg Proc.ac setp_self).trans hat
  case runac fn => exact h.runac hp ht
  case store fn mp =>
    obtain rfl := Option.some.inj ht
    have hm : Paired (s.setm mp { s.mach mp with
      fn := some fn
      calls := { fn, ran := [], rc := none, cleared := false, returned := none } :: (s.mach mp).calls }) := h.setm rfl
    exact hm.goto hp rfl Iff.rfl nofun nofun (fun _ _ => id) <| (congrArg Proc.ac setp_self).trans hat
  case sched fn mp => exact h.resume hp (Option.ite_none_right_eq_some.mp ht).right

theorem rfork {RFPROC RFCORE RFCCORE : Bool} (h : Paired s) (hp : (s.proc p).pc = .kernel)
    (ht : s.rfork p RFPROC RFCORE RFCCORE q = some s') : Paired s' := by
  rw [State.rfork] at ht
  dsimp only at ht
  split at ht
  case isTrue => exact Option.some.inj ht ▸ h
  case isFalse =>
    split at ht
    case isTrue =>
      split at ht
      case isTrue =>
        obtain rfl := Option.some.inj ht
        exact h.goto hp rfl Iff.rfl nofun nofun (fun _ _ => id) nofun
      case isFalse =>
        split at ht
        case isFalse => exact Option.some.inj ht ▸ h
        case isTrue =>
          obtain rfl := Option.some.inj ht
          refine h.goto hp rfl ?_ nofun nofun (fun _ _ => id) ?_
          · change (s.proc p).pc.Locked ↔ _
            rw [hp]
          · change State.At _ _ (s.proc p).pc
            rw [hp]
            trivial
    case isFalse =>
      obtain ⟨hq, ht⟩ := Option.ite_none_right_eq_some.mp ht
      obtain rfl := Option.some.inj ht
      have hpq : p ≠ q := by
        rintro rfl
        exact nomatch hp.symm.trans hq
      have h₁ : Paired (s.setp q { s.proc q with
        pc := .embryo p, ctx := .tc, ac := none, procctl := none, wired := (s.proc p).wired }) := h.born hq rfl rfl
      have hp₁ := setp_of_ne (s := s) (x := { s.proc q with
        pc := .embryo p, ctx := .tc, ac := none, procctl := none, wired := (s.proc p).wired }) hpq
      have hembryo {x y : Proc P C} (hx : x.pc = .embryo p) : (((s.setp q x).setp p y).proc q).pc = .embryo p := by
        rw [setp_of_ne hpq.symm, setp_self, hx]
      split
      case isTrue =>
        refine h₁.goto ((congrArg Proc.pc hp₁).trans hp) (congrArg Proc.ac hp₁).symm Iff.rfl nofun nofun (fun _ _ => id) fun q' hq' => ?_
        obtain rfl := For.child.inj hq'
        exact hembryo rfl
      case isFalse =>
        exact h₁.goto ((congrArg Proc.pc hp₁).trans hp) (congrArg Proc.ac hp₁).symm Iff.rfl nofun nofun (fun _ _ => id) <| hembryo rfl

omit [DecidableEq C] in
theorem execac (h : Paired s) (hp : (s.proc p).pc = .kernel) (flags : Nat) : Paired (s.execac p flags) := by
  rw [State.execac]
  split
  · exact h.goto hp rfl Iff.rfl nofun nofun (fun _ _ => id) trivial
  split
  · exact h.goto hp rfl Iff.rfl nofun nofun (fun _ _ => id) nofun
  · exact h

theorem setready (h : Paired s) (hm : m.proc = (s.mach mp).proc) :
    Paired ((s.setp p { s.proc p with ready := true }).setm mp m) :=
  h.congr rfl (setp_pc rfl) (setp_ac rfl) <| setm_proc hm

theorem core (h : Paired s) (ht : s.core mp = some s') : Paired s' := by
  rw [State.core] at ht
  dsimp only at ht
  split at ht
  case h_8 =>
    obtain ⟨p, -, ht⟩ := Option.bind_eq_some_iff.mp ht
    obtain rfl := Option.some.inj ht
    exact h.setready rfl
  case h_9 =>
    obtain rfl := Option.some.inj ht
    exact h.setready rfl
  all_goals first
    | contradiction
    | obtain rfl := Option.some.inj ht
      exact h.setm rfl

theorem actrap {type : Trap} (h : Paired s) (ht : s.actrap mp type = some s') : Paired s' := by
  obtain ⟨p, -, ht⟩ := Option.bind_eq_some_iff.mp ht
  obtain ⟨-, ht⟩ := Option.ite_none_left_eq_some.mp ht
  obtain rfl := Option.some.inj ht
  exact h.congr rfl (setp_pc rfl) (setp_ac rfl) <| setm_proc rfl

theorem acsyscall (h : Paired s) (ht : s.acsyscall mp = some s') : Paired s' := by
  obtain ⟨p, -, ht⟩ := Option.bind_eq_some_iff.mp ht
  obtain ⟨-, ht⟩ := Option.ite_none_left_eq_some.mp ht
  obtain rfl := Option.some.inj ht
  exact h.setm rfl

theorem error (h : Paired s) (hf : Fits s (.error p)) (ht : step s (.error p) = some s') : Paired s' := by
  rw [step] at ht
  rw [Fits] at hf
  cases hp : (s.proc p).pc <;> rw [hp] at ht hf <;> try contradiction
  case forked q =>
    obtain rfl := Option.some.inj ht
    exact h.forked hp (fun s' hs' => (congrArg Proc.ac hs').trans hf) rfl id
  case execac flags =>
    obtain rfl := Option.some.inj ht
    refine h.goto hp rfl Iff.rfl nofun nofun (fun _ _ => id) fun hflags => ?_
    rw [setp_self]
    exact hf hflags

theorem step {act : Act P C} (h : Paired s) (hf : Fits s act) (ht : step s act = some s') : Paired s' := by
  cases act
  case enter p =>
    obtain ⟨hp, ht⟩ := Option.ite_none_right_eq_some.mp ht
    obtain rfl := Option.some.inj ht
    exact h.goto hp rfl Iff.rfl nofun nofun (fun _ _ => id) trivial
  case rfork =>
    obtain ⟨hp, ht⟩ := Option.ite_none_right_eq_some.mp ht
    exact h.rfork hp.left ht
  case execac p flags =>
    obtain ⟨hp, ht⟩ := Option.ite_none_right_eq_some.mp ht
    obtain rfl := Option.some.inj ht
    exact h.execac hp.left flags
  case pmcwrite =>
    obtain ⟨hp, ht⟩ := Option.ite_none_right_eq_some.mp ht
    obtain rfl := Option.some.inj ht
    exact h.goto hp.left.left rfl Iff.rfl nofun nofun (fun _ _ => id) trivial
  case pexit =>
    obtain ⟨hp, ht⟩ := Option.ite_none_right_eq_some.mp ht
    obtain rfl := Option.some.inj ht
    exact h.goto hp rfl Iff.rfl nofun nofun (fun _ _ => id) trivial
  case error => exact h.error hf ht
  case late p =>
    rw [K10.Tcore.step] at ht
    cases hp : (s.proc p).pc <;> rw [hp] at ht <;> try contradiction
    obtain rfl := Option.some.inj ht
    exact h.goto hp rfl Iff.rfl nofun nofun (fun _ _ => id) trivial
  case run => exact h.run hf ht
  case core => exact h.core ht
  case actrap => exact h.actrap ht
  case acsyscall => exact h.acsyscall ht

omit [DecidableEq P] [DecidableEq C] in
theorem of_init (hi : Init s) : Paired s where
  lock p       := by
    rw [hi.lock]
    refine iff_of_false nofun ?_
    rcases hi.pc p with hp | hp <;> rw [hp] <;> exact id
  own p mp hp  := nomatch (hi.proc p).right.left.symm.trans hp
  busy p mp hp := nomatch (hi.mach mp).left.symm.trans hp
  lies p       := by
    rcases hi.pc p with hp | hp <;> rw [hp]
    · exact (hi.proc p).right.left
    · trivial

end Paired

end K10.Tcore
