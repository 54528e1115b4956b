import Nix.Port.Talt

namespace Port.Talt

variable {P T M : Type*} {a : List (Talt T M)} {ss : List (TubeSem T)} {i r : Nat} {p p' : P}

def Op.tries : Op → Bool
  | .TNBSND | .TNBRCV => true
  | _                 => false

-- The semaphores of the entries that block.
def sems (a : List (Talt T M)) : List (TubeSem T) :=
  (a.filter (·.op.blocks)).map down

-- What the first loop has found out after so many entries.
structure Scanned (a : List (Talt T M)) (i : Nat) (ss : List (TubeSem T)) (moved : List (Talt T M)) (refused : List Nat) :
    Prop where
  moved   : moved = []
  ss      : ss = sems (a.take i)
  refused : ∀ j < i, ∀ e, a[j]? = some e → e.op.tries → j ∈ refused

-- The operation of an entry was done, with the ticket that it needs and no other.
def Done [DecidableEq T] (a : List (Talt T M)) (i : Nat) (took : TubeSem T → Int) (moved : List (Talt T M)) : Prop :=
  ∃ e, a[i]? = some e ∧ moved = [e] ∧ took = Pi.single e.down 1

-- No operation was done: all of them are non-blocking ones, each of which was tried when it had no ticket.
structure Refused (a : List (Talt T M)) (took : TubeSem T → Int) (moved : List (Talt T M)) (refused : List Nat) :
    Prop where
  blocks  : ∀ e ∈ a, e.op.blocks = false
  took    : took = 0
  moved   : moved = []
  refused : ∀ j e, a[j]? = some e → e.op.tries → j ∈ refused

section

variable [DecidableEq T]

-- Where a process is, and where it is in the call to its semaphores.
def Pc.At (sc : Sem.Pc (TubeSem T)) (took : TubeSem T → Int) (moved : List (Talt T M)) (refused : List Nat) :
    Pc T M → Prop
  | .user            => True
  | .switch a i ss   => Scanned a i ss moved refused ∧ took = 0 ∧ sc = .idle
  | .nb a i ss       => Scanned a i ss moved refused ∧ ∃ e, a[i]? = some e ∧ e.op.tries ∧ sc.Tries e.down took
  | .altsems a       => moved = [] ∧ sc.Alternates (sems a) took
  | .move a i        => moved = [] ∧ sc = .idle ∧ ∃ e, a[i]? = some e ∧ took = Pi.single e.down 1
  | .upsem a i       => Done a i took moved
  | .ret a none      => Refused a took moved refused
  | .ret a (some i)  => Done a i took moved
  | .fatal           => False

theorem Pc.At.awoken {c : Pc T M} {sc sc' : Sem.Pc (TubeSem T)} {took : TubeSem T → Int} {moved : List (Talt T M)}
    {refused : List Nat} (h : c.At sc took moved refused) (ha : sc.Awoken sc') : c.At sc' took moved refused := by
  have hidle (hsc : sc = .idle) : sc' = .idle := by
    subst hsc
    cases ha
    rfl
  cases c
  case switch    => exact ⟨h.left, h.right.left, hidle h.right.right⟩
  case nb        =>
    obtain ⟨hs, e, he, hop, ht⟩ := h
    exact ⟨hs, e, he, hop, ht.awoken ha⟩
  case altsems   => exact ⟨h.left, h.right.awoken ha⟩
  case move      => exact ⟨h.left, hidle h.right.left, h.right.right⟩
  case ret a r   => cases r <;> exact h
  all_goals exact h

theorem Pc.At.user {c : Pc T M} {sc : Sem.Pc (TubeSem T)} {took : TubeSem T → Int} {moved : List (Talt T M)}
    {refused : List Nat} (h : c.At sc took moved refused) (hc : c.isuser = true) (sc' : Sem.Pc (TubeSem T)) :
    c.At sc' took moved refused := by
  cases c
  case user    => trivial
  case ret a r => cases r <;> exact h
  all_goals contradiction

end

theorem sems_eq_nil_iff : sems a = [] ↔ ∀ e ∈ a, e.op.blocks = false := by
  simp [sems]

theorem sems_take_succ {e : Talt T M} (h : a[i]? = some e) :
    sems (a.take (i + 1)) = sems (a.take i) ++ if e.op.blocks then [e.down] else [] := by
  rw [List.take_add_one, h, sems, List.filter_append, List.map_append]
  congr 1
  cases he : e.op.blocks <;> simp [he]

namespace Scanned

variable {moved : List (Talt T M)} {refused : List Nat} {e : Talt T M}

theorem blocks (h : Scanned a i ss moved refused) (he : a[i]? = some e) (hop : e.op.blocks = true) :
    Scanned a (i + 1) (ss ++ [e.down]) moved refused where
  moved := h.moved
  ss := by rw [sems_take_succ he, if_pos hop, h.ss]
  refused j hj e' he' htries := by
    rcases Nat.lt_succ_iff_lt_or_eq.mp hj with hj | rfl
    · exact h.refused j hj e' he' htries
    · obtain rfl := Option.some.inj (he.symm.trans he')
      cases hop' : e.op <;> simp [hop', Op.blocks, Op.tries] at hop htries

theorem skips (h : Scanned a i ss moved refused) (he : a[i]? = some e) (hop : e.op.blocks = false)
    {refused' : List Nat} (hsub : ∀ j ∈ refused, j ∈ refused') (hi : e.op.tries → i ∈ refused') :
    Scanned a (i + 1) ss moved refused' where
  moved := h.moved
  ss := by simp [sems_take_succ he, hop, h.ss]
  refused j hj e' he' htries := by
    rcases Nat.lt_succ_iff_lt_or_eq.mp hj with hj | rfl
    · exact hsub j <| h.refused j hj e' he' htries
    · obtain rfl := Option.some.inj (he.symm.trans he')
      exact hi htries

theorem all (h : Scanned a i ss moved refused) (hi : a[i]? = none) :
    ss = sems a ∧ ∀ j e, a[j]? = some e → e.op.tries → j ∈ refused := by
  have hle := List.getElem?_eq_none_iff.mp hi
  refine ⟨by rw [h.ss, List.take_of_length_le hle], fun j e he => ?_⟩
  exact h.refused j (Nat.lt_of_lt_of_le (List.getElem?_eq_some_iff.mp he).choose hle) e he

end Scanned

section

variable [DecidableEq P] [DecidableEq T] {s s' : State P T M} {v₀ : TubeSem T → Nat}

-- The entry at the index blocks, and needs the semaphore that is at the index among those that `altsems` is given.
def Lines (a : List (Talt T M)) (r : Nat) : Prop :=
  ∃ e, a[r]? = some e ∧ e.op.blocks = true ∧ (sems a)[r]? = some e.down

omit [DecidableEq T] in
theorem lines_iff : Lines a r ↔ ∃ e ∈ a[r]?, e.op.blocks = true ∧ (sems a)[r]? = some e.down :=
  Iff.rfl

instance : Decidable (Lines a r) :=
  decidable_of_iff _ lines_iff.symm

-- A non-blocking down decrements the integer only if there is a ticket, and `altsems` tells an index at which the
-- semaphores line up with the entries.
def Meets (s : State P T M) : Act P T M → Prop
  | .run p =>
    match s.pc p with
    | .nb ..     => Sem.Finding s.sem p
    | .altsems a =>
      match s.sem.pc p with
      | .altret _ r => Lines a r
      | _           => Sem.Finding s.sem p
    | _          => True
  | _ => True

instance (s : State P T M) (act : Act P T M) : Decidable (Meets s act) := by
  unfold Meets
  split
  · split
    · infer_instance
    · split <;> infer_instance
    · infer_instance
  · infer_instance

theorem downsem_pc {x : TubeSem T} {nb : Bool} (hs : s.act (.downsem p x nb) = some s') :
    s'.sem.pc p = .test x nb .proc := by
  obtain ⟨sem, hsem, rfl⟩ := Option.map_eq_some_iff.mp hs
  obtain ⟨-, hsem⟩ := Option.ite_none_right_eq_some.mp hsem
  obtain rfl := Option.some.inj hsem
  exact Function.update_self ..

theorem altsems_pc (hs : s.act (.altsems p ss) = some s') : ∃ x, s'.sem.pc p = .test x true (.altsems ss 0) := by
  obtain ⟨sem, hsem, rfl⟩ := Option.map_eq_some_iff.mp hs
  obtain ⟨-, hsem⟩ := Option.ite_none_right_eq_some.mp hsem
  obtain ⟨x, -, rfl⟩ := Option.map_eq_some_iff.mp hsem
  exact ⟨x, Function.update_self ..⟩

structure Sound (s : State P T M) : Prop where
  inv   : Sem.Inv s.sem
  place : ∀ p, (s.pc p).At (s.sem.pc p) (s.took p) (s.moved p) (s.refused p)

namespace Sound

theorem frame {c : Pc T M} {t : TubeSem T → Int} (h : Sound s) (hinv : Sem.Inv s'.sem) (hsem : ∀ q ≠ p, (s.sem.pc q).Awoken (s'.sem.pc q))
    (hpc : s'.pc = Function.update s.pc p c) (htook : s'.took = Function.update s.took p t)
    (hmoved : ∀ q ≠ p, s'.moved q = s.moved q) (hrefused : ∀ q ≠ p, s'.refused q = s.refused q)
    (hp : c.At (s'.sem.pc p) t (s'.moved p) (s'.refused p)) : Sound s' where
  inv := hinv
  place q := by
    by_cases hq : q = p
    case pos =>
      subst hq
      rwa [hpc, htook, Function.update_self, Function.update_self]
    case neg =>
      rw [hpc, htook, Function.update_of_ne hq, Function.update_of_ne hq, hmoved q hq, hrefused q hq]
      exact (h.place q).awoken (hsem q hq)

theorem goto {c : Pc T M} (h : Sound s) (hp : c.At (s.sem.pc p) (s.took p) (s.moved p) (s.refused p)) :
    Sound (s.goto p c) :=
  h.frame h.inv (fun _ _ => .same _) rfl (Function.update_eq_self ..).symm (fun _ _ => rfl) (fun _ _ => rfl) hp

theorem act {c : Pc T M} {b : Sem.Act P (TubeSem T)} (h : Sound s) (hs : s.act b = some s') (hb : b.proc = p)
    (hp : c.At (s'.sem.pc p) (s.took p) (s.moved p) (s.refused p)) : Sound (s'.goto p c) := by
  obtain ⟨sem, hsem, rfl⟩ := Option.map_eq_some_iff.mp hs
  exact h.frame (h.inv.step hsem) (fun q hq => Sem.awoken_step hsem (hb ▸ hq)) rfl (Function.update_eq_self ..).symm
    (fun _ _ => rfl) (fun _ _ => rfl) hp

theorem act_stay {b : Sem.Act P (TubeSem T)} (h : Sound s) (hs : s.act b = some s') (hb : b.proc = p)
    (hp : (s.pc p).At (s'.sem.pc p) (s.took p) (s.moved p) (s.refused p)) : Sound s' := by
  obtain ⟨sem, hsem, rfl⟩ := Option.map_eq_some_iff.mp hs
  exact h.frame (h.inv.step hsem) (fun q hq => Sem.awoken_step hsem (hb ▸ hq)) (Function.update_eq_self ..).symm
    (Function.update_eq_self ..).symm (fun _ _ => rfl) (fun _ _ => rfl) hp

theorem user {b : Sem.Act P (TubeSem T)} (h : Sound s) (hs : s.act b = some s') (hb : b.proc = p)
    (hc : (s.pc p).isuser = true) : Sound s' :=
  h.act_stay hs hb <| (h.place p).user hc _

theorem start (h : Sound s) (hp : s.sem.pc p = .idle) : Sound (s.start p a) := by
  refine h.frame (p := p) h.inv (fun _ _ => .same _) rfl rfl (fun _ hq => Function.update_of_ne hq ..)
    (fun _ hq => Function.update_of_ne hq ..) ?_
  exact ⟨⟨Function.update_self .., rfl, nofun⟩, rfl, hp⟩

theorem switch (h : Sound s) (hpc : s.pc p = .switch a i ss) (hs : s.switch p a i ss = some s') : Sound s' := by
  have hp := h.place p
  rw [hpc] at hp
  obtain ⟨hscan, htook, hidle⟩ := hp
  have hblocks {e : Talt T M} (he : a[i]? = some e) (hop : e.op.blocks = true) :
      Sound (s.goto p (.switch a (i + 1) (ss ++ [e.down]))) := h.goto ⟨hscan.blocks he hop, htook, hidle⟩
  have htries {e : Talt T M} (he : a[i]? = some e) (hop : e.op.tries = true)
      (hs : (s.act (.downsem p e.down true)).map (·.goto p (.nb a i ss)) = some s') : Sound s' := by
    obtain ⟨s₁, hs₁, rfl⟩ := Option.map_eq_some_iff.mp hs
    refine h.act hs₁ rfl ⟨hscan, e, he, hop, ?_⟩
    rw [downsem_pc hs₁, htook]
    exact .test
  rw [State.switch] at hs
  split at hs
  case h_1 hi =>
    obtain ⟨rfl, hall⟩ := hscan.all hi
    split at hs
    case isTrue hnil =>
      obtain rfl := Option.some.inj hs
      exact h.goto ⟨sems_eq_nil_iff.mp hnil, htook, hscan.moved, hall⟩
    case isFalse =>
      obtain ⟨s₁, hs₁, rfl⟩ := Option.map_eq_some_iff.mp hs
      obtain ⟨x, hx⟩ := altsems_pc hs₁
      refine h.act hs₁ rfl ⟨hscan.moved, ?_⟩
      rw [hx, htook]
      exact ⟨rfl, rfl, rfl⟩
  case h_2 e he =>
    split at hs
    case h_1 hop => exact Option.some.inj hs ▸ hblocks he (by rw [hop]; rfl)
    case h_2 hop => exact Option.some.inj hs ▸ hblocks he (by rw [hop]; rfl)
    case h_3 hop => exact htries he (by rw [hop]; rfl) hs
    case h_4 hop => exact htries he (by rw [hop]; rfl) hs
    case h_5 hop =>
      obtain rfl := Option.some.inj hs
      refine h.goto ⟨hscan.skips he (by rw [hop]; rfl) (fun _ hj => hj) fun htr => ?_, htook, hidle⟩
      rw [hop] at htr
      contradiction

theorem takes {c : Pc T M} {sem : Sem.State P (TubeSem T)} {refused : P → List Nat} (h : Sound s)
    (hsem : s.sem.run p = some sem) (hr : ∀ q ≠ p, refused q = s.refused q)
    (hp : c.At (sem.pc p) (Sem.takes s.sem sem (s.took p)) (s.moved p) (refused p)) :
    Sound ({ s with
      sem := sem, took := Function.update s.took p (Sem.takes s.sem sem (s.took p)), refused := refused }.goto p c) :=
  h.frame (p := p) (h.inv.run hsem) (fun _ hq => Sem.awoken_run hsem hq) rfl rfl (fun _ _ => rfl) hr hp

theorem takes_stay {sem : Sem.State P (TubeSem T)} (h : Sound s) (hsem : s.sem.run p = some sem)
    (hp : (s.pc p).At (sem.pc p) (Sem.takes s.sem sem (s.took p)) (s.moved p) (s.refused p)) :
    Sound { s with sem := sem, took := Function.update s.took p (Sem.takes s.sem sem (s.took p)) } :=
  h.frame (p := p) (h.inv.run hsem) (fun _ hq => Sem.awoken_run hsem hq) (Function.update_eq_self ..).symm rfl
    (fun _ _ => rfl) (fun _ _ => rfl) hp

theorem nb (h : Sound s) (hpc : s.pc p = .nb a i ss) (hm : Sem.Finding s.sem p) (hs : s.nb p a i ss = some s') :
    Sound s' := by
  have hp := h.place p
  rw [hpc] at hp
  obtain ⟨hscan, e, he, hop, ht⟩ := hp
  obtain ⟨s₁, hs₁, rfl⟩ := Option.map_eq_some_iff.mp hs
  obtain ⟨sem, hsem, rfl⟩ := Option.map_eq_some_iff.mp hs₁
  obtain ⟨sc, hsc⟩ : ∃ sc, sc = s.sem.pc p := ⟨_, rfl⟩
  obtain ⟨t, htook⟩ : ∃ t, t = s.took p := ⟨_, rfl⟩
  rw [← hsc, ← htook] at ht
  rw [← hsc]
  cases ht
  case test =>
    obtain ⟨hnp, hpc₁⟩ := Sem.run_test hsc.symm hsem
    have htakes : Sem.takes s.sem sem (s.took p) = 0 := by rw [← htook, Sem.Alt.takes_none hnp]
    by_cases hnone : s.sem.np e.down ≤ 0
    case pos =>
      rw [if_pos hnone] at hpc₁
      simp only [if_pos hpc₁, if_pos hnone]
      refine h.takes hsem (fun q hq => Function.update_of_ne hq ..) ⟨?_, htakes, hpc₁⟩
      rw [Function.update_self]
      refine hscan.skips he ?_ (fun j hj => List.mem_append_left _ hj) fun _ => List.mem_append_right _ <| List.mem_singleton_self i
      cases hop' : e.op <;> simp_all [Op.blocks, Op.tries]
    case neg =>
      rw [if_neg hnone] at hpc₁
      simp only [hpc₁, reduceCtorEq, if_false]
      refine h.takes_stay hsem ?_
      rw [hpc, hpc₁, htakes]
      exact ⟨hscan, e, he, hop, .dec⟩
  case dec =>
    obtain ⟨hnp, hpc₁⟩ := Sem.run_dec hsc.symm (hm.pos hsc.symm) hsem
    refine h.takes_stay hsem ?_
    rw [hpc, hpc₁, ← htook, Sem.Alt.takes_one hnp]
    exact ⟨hscan, e, he, hop, .ret⟩
  case ret =>
    obtain ⟨hnp, hpc₁⟩ := Sem.run_ret hsc.symm hsem
    refine h.takes hsem (fun _ _ => rfl) ⟨hscan.moved, hpc₁, e, he, ?_⟩
    rw [Sem.Alt.takes_none hnp, htook]

theorem altsems (h : Sound s) (hpc : s.pc p = .altsems a) (hm : Meets s (.run p)) (hs : s.altsems p a = some s') :
    Sound s' := by
  have hp := h.place p
  rw [hpc] at hp
  obtain ⟨hmoved, halt⟩ := hp
  obtain ⟨s₁, hs₁, rfl⟩ := Option.map_eq_some_iff.mp hs
  obtain ⟨sem, hsem, rfl⟩ := Option.map_eq_some_iff.mp hs₁
  rw [Meets, hpc] at hm
  dsimp only at hm
  split
  case h_1 l r hret =>
    rw [hret] at hm halt
    obtain ⟨rfl, x, hx, ht⟩ := halt
    obtain ⟨hnp, hpc₁⟩ := Sem.run_altret hret hsem
    obtain ⟨e, he, hop, hdown⟩ := hm
    obtain rfl := Option.some.inj (hx.symm.trans hdown)
    rw [he, Option.any_some, if_pos hop]
    refine h.takes hsem (fun _ _ => rfl) ⟨hmoved, hpc₁, e, he, ?_⟩
    rw [Sem.Alt.takes_none hnp, ht]
  case h_2 hne =>
    have hf : Sem.Finding s.sem p := by
      split at hm
      case h_1 l r hret => exact absurd hret <| hne l r
      case h_2 => exact hm
    refine h.takes_stay hsem ?_
    rw [hpc]
    exact ⟨hmoved, Sem.Alternates.run h.inv halt hf hsem hne⟩

theorem move (h : Sound s) (hpc : s.pc p = .move a i) (hs : s.move p a i = some s') : Sound s' := by
  have hp := h.place p
  rw [hpc] at hp
  obtain ⟨hmoved, -, e, he, ht⟩ := hp
  obtain ⟨e', he', hs⟩ := Option.bind_eq_some_iff.mp hs
  obtain rfl := Option.some.inj (he.symm.trans he')
  obtain ⟨s₁, hs₁, rfl⟩ := Option.map_eq_some_iff.mp hs
  obtain ⟨sem, hsem, rfl⟩ := Option.map_eq_some_iff.mp hs₁
  refine h.frame (p := p) (t := s.took p) (h.inv.step hsem) (fun q hq => Sem.awoken_step hsem hq) rfl
    (Function.update_eq_self ..).symm (fun q hq => Function.update_of_ne hq ..) (fun _ _ => rfl) ?_
  refine ⟨e, he, ?_, ht⟩
  simp [State.goto, hmoved]

theorem run (h : Sound s) (hm : Meets s (.run p)) (hs : s.run p = some s') : Sound s' := by
  rw [State.run] at hs
  split at hs
  case h_1 hpc => exact h.user (p := p) hs rfl (by rw [hpc]; rfl)
  case h_2 a r hpc => exact h.user (p := p) hs rfl (by rw [hpc]; rfl)
  case h_3 a i ss hpc => exact h.switch hpc hs
  case h_4 a i ss hpc =>
    rw [Meets, hpc] at hm
    exact h.nb hpc hm hs
  case h_5 a hpc => exact h.altsems hpc hm hs
  case h_6 a i hpc => exact h.move hpc hs
  case h_7 a i hpc =>
    have hp := h.place p
    rw [hpc] at hp
    split at hs
    case isTrue => exact Option.some.inj hs ▸ h.goto hp
    case isFalse => exact h.act_stay (p := p) hs rfl (by rw [hpc]; exact hp)
  case h_8 => contradiction

theorem step {act : Act P T M} (h : Sound s) (hm : Meets s act) (hs : Talt.step s act = some s') : Sound s' := by
  cases act
  case talt p a =>
    obtain ⟨hc, hs⟩ := Option.ite_none_right_eq_some.mp hs
    exact Option.some.inj hs ▸ h.start hc.right.left
  case upsem p x =>
    obtain ⟨hc, hs⟩ := Option.ite_none_right_eq_some.mp hs
    exact h.user hs rfl hc
  case downsem p x nb =>
    obtain ⟨hc, hs⟩ := Option.ite_none_right_eq_some.mp hs
    exact h.user hs rfl hc
  case run p => exact h.run hm hs

end Sound

theorem invariant (P M : Type*) [DecidableEq P] (v₀ : TubeSem T → Nat) : (machine P M v₀).Invariant Meets Sound where
  init h := ⟨.created h.sem, fun p => by rw [h.pc p]; trivial⟩
  step h hm hs := h.step hm hs

-- What `talt` returns tells what it did, and it does not end in `sysfatal`.
structure Completes (s : State P T M) : Prop where
  none  : ∀ p a, s.pc p = .ret a none → Refused a (s.took p) (s.moved p) (s.refused p)
  some  : ∀ p a i, s.pc p = .ret a (some i) → Done a i (s.took p) (s.moved p)
  fatal : ∀ p, s.pc p ≠ .fatal

-- In a run in which `altsems` tells an index up to which no entry is a non-blocking one, and non-blocking downs find a
-- ticket if they decrement the integer.
theorem talt_completes (hr : (machine P M v₀).Reachable Meets s) : Completes s := by
  have h := (invariant P M v₀).holds hr
  constructor
  case none =>
    intro p a hp
    have hat := h.place p
    rwa [hp] at hat
  case some =>
    intro p a i hp
    have hat := h.place p
    rwa [hp] at hat
  case fatal =>
    intro p hp
    have hat := h.place p
    rwa [hp] at hat

-- A tube with one slot, which is free.
def slot : TubeSem Unit → Nat
  | .nhole _ => 1
  | .nmsg _  => 0

-- A process sends, where it might have received.
theorem talt_completes_send :
    ∃ s : State Unit Unit Nat, (machine Unit Nat slot).Reachable Meets s ∧
      s.pc () = .ret [⟨(), 7, .TSND⟩, ⟨(), 0, .TNBRCV⟩] (some 0) ∧ Completes s := by
  have hrun : (((machine Unit Nat slot).guarded Meets).exec (fresh Unit Nat slot)
      (.talt () [⟨(), 7, .TSND⟩, ⟨(), 0, .TNBRCV⟩] :: List.replicate 9 (.run ()))).any
      (fun s : State Unit Unit Nat => s.pc () = .ret [⟨(), 7, .TSND⟩, ⟨(), 0, .TNBRCV⟩] (some 0)) = true := by
    decide +kernel
  obtain ⟨s, hr, hs⟩ := Machine.exists_reachable (fresh_init Unit Nat slot) hrun
  exact ⟨s, hr, of_decide_eq_true hs, talt_completes hr⟩

-- In the other order, the index that `altsems` tells is that of the receive.
theorem talt_fatal :
    ∃ s : State Unit Unit Nat, (machine Unit Nat slot).Reachable (fun _ _ => True) s ∧ s.pc () = .fatal ∧ ¬Completes s := by
  have hrun : (((machine Unit Nat slot).guarded fun _ _ => True).exec (fresh Unit Nat slot)
      (.talt () [⟨(), 0, .TNBRCV⟩, ⟨(), 7, .TSND⟩] :: List.replicate 7 (.run ()))).any
      (fun s : State Unit Unit Nat => s.pc () = .fatal) = true := by decide +kernel
  obtain ⟨s, hr, hs⟩ := Machine.exists_reachable (fresh_init Unit Nat slot) hrun
  have hfatal := of_decide_eq_true hs
  exact ⟨s, hr, hfatal, fun h => h.fatal () hfatal⟩

end

end Port.Talt
