import Nix.Lib.Parties
import Nix.Port.SyssemInvariant

namespace Port.Sem

variable {P X : Type*} [DecidableEq X]

namespace Pc

-- The process has decremented the integer and found no ticket, and is not on the queue yet.
def transit (x : X) : Pc X → Int
  | .undo y _ | .sleeplock y | .sleep y | .queue y => if y = x then 1 else 0
  | .altlock ss i _ | .altqueue ss i _ => if ss[i]? = some x then 1 else 0
  | _ => 0

-- The process has got a ticket, which it did not report yet.
def granted (x : X) : Pc X → Int
  | .ret y | .done y => if y = x then 1 else 0
  | .altdone ss .. => if ss[0]? = some x then 1 else 0
  | .altret ss r => if ss[r]? = some x then 1 else 0
  | _ => 0

-- The process has given back what it reports to have.
def Undone : Pc X → Prop
  | .undo .. | .killedlock _ | .killed _ => True
  | .wakelock _ (.downsem _) | .wakeup _ _ (.downsem _) | .wake _ _ (.downsem _) => True
  | _ => False

theorem transit_nonneg (c : Pc X) (x : X) : 0 ≤ c.transit x := by
  cases c <;> simp only [transit] <;> try split
  all_goals omega

theorem granted_nonneg (c : Pc X) (x : X) : 0 ≤ c.granted x := by
  cases c <;> simp only [granted] <;> try split
  all_goals omega

end Pc

variable [DecidableEq P] [Fintype P] {s s' : State P X}

namespace State

-- The tickets that no process has got.
def free (s : State P X) (x : X) : Int :=
  s.np x + (s.q x).length + tally (Pc.transit x) s.pc

def granted (s : State P X) (x : X) : Int :=
  tally (Pc.granted x) s.pc

end State

-- A non-blocking down decrements the integer only if there is a ticket, and a process that finds a
-- ticket in `semsleep` was woken up before.
def Finds (s : State P X) : Act P X → Prop
  | .run p =>
    match s.pc p with
    | .dec x true _ => 0 < s.np x
    | .sleep x      => 0 ≤ s.np x → s.waitsem p ≠ none
    | _             => True
  | _ => True

structure Tickets (v₀ : X → Nat) (s : State P X) : Prop where
  inv    : Inv s
  total  : ∀ x, s.free x + s.granted x + s.downs x = v₀ x + s.ups x
  free   : ∀ x, 0 ≤ s.free x
  waking : ∀ p x d c, s.pc p = .wake x d c → 0 < (s.q x).length ∧ 1 ≤ s.free x
  given  : ∀ p x, s.pc p = .done x → s.waitsem p ≠ none
  undone : ∀ p, ¬(s.pc p).Undone

theorem Caller.failure_quiet (k : Caller X) :
    (∀ y, k.failure.transit y = 0 ∧ k.failure.granted y = 0) ∧ (∀ x d c, k.failure ≠ .wake x d c) ∧
      (∀ x, k.failure ≠ .done x) ∧ ¬k.failure.Undone := by
  rcases k with _ | ⟨ss, i⟩
  · simp [failure, Pc.transit, Pc.granted, Pc.Undone]
  · simp only [failure]
    split <;> simp [Pc.transit, Pc.granted, Pc.Undone]

namespace Tickets

variable {v₀ : X → Nat}

theorem frame (h : Tickets v₀ s) (hinv : Inv s') (hold : s.pc p = c₀) (hpc : s'.pc = Function.update s.pc p c)
    (hw : ∀ p' ≠ p, s'.waitsem p' = s.waitsem p')
    (hsum : ∀ x, s'.np x + (s'.q x).length + c.transit x + c.granted x + s'.downs x + s.ups x =
      s.np x + (s.q x).length + c₀.transit x + c₀.granted x + s.downs x + s'.ups x)
    (hlen : ∀ x, (s.q x).length ≤ (s'.q x).length)
    (hfree : ∀ x, s.np x + (s.q x).length + c₀.transit x ≤ s'.np x + (s'.q x).length + c.transit x ∨ 0 ≤ s'.np x)
    (hwake : ∀ x d k, c = .wake x d k → 0 < (s'.q x).length ∧ 1 ≤ s'.np x + (s'.q x).length)
    (hdone : ∀ x, c = .done x → s'.waitsem p ≠ none) (hundone : ¬c.Undone) : Tickets v₀ s' := by
  have htransit x : tally (Pc.transit x) s'.pc = tally (Pc.transit x) s.pc - c₀.transit x + c.transit x := by
    rw [hpc, tally_update, hold]
  have hgranted x : tally (Pc.granted x) s'.pc = tally (Pc.granted x) s.pc - c₀.granted x + c.granted x := by
    rw [hpc, tally_update, hold]
  have hnonneg x : 0 ≤ tally (Pc.transit x) s'.pc := tally_nonneg (Pc.transit_nonneg · x) _
  have hother {p'} (hp' : p' ≠ p) : s'.pc p' = s.pc p' := by rw [hpc, Function.update_of_ne hp']
  have hself : s'.pc p = c := by rw [hpc, Function.update_self]
  refine ⟨hinv, fun x => ?total, fun x => ?free, fun p' x d k hp => ?waking, fun p' x hp => ?given, fun p' => ?undone⟩
  case total =>
    have := h.total x
    have := hsum x
    have := htransit x
    have := hgranted x
    simp only [State.free, State.granted] at *
    omega
  case free =>
    have := h.free x
    have := hfree x
    have := htransit x
    have := hnonneg x
    simp only [State.free] at *
    omega
  case waking =>
    have := hnonneg x
    by_cases hp' : p' = p
    case pos =>
      have := hwake x d k (by rw [← hself, ← hp', hp])
      simp only [State.free] at *
      omega
    case neg =>
      have := h.waking p' x d k (hother hp' ▸ hp)
      have := hlen x
      have := hfree x
      have := htransit x
      simp only [State.free] at *
      omega
  case given =>
    by_cases hp' : p' = p
    case pos => exact hp' ▸ hdone x (by rw [← hself, ← hp', hp])
    case neg => exact hw p' hp' ▸ h.given p' x (hother hp' ▸ hp)
  case undone =>
    by_cases hp' : p' = p
    case pos => exact hp' ▸ hself ▸ hundone
    case neg => exact hother hp' ▸ h.undone p'

theorem wake (h : Tickets v₀ s) (hpc : s.pc p = .wake x didwake c) (hs : s.wake p x didwake c = some s') :
    Tickets v₀ s' := by
  have hinv := h.inv.wake hpc hs
  obtain ⟨q₀, l, hq, hne, he⟩ := h.inv.wake_eq hpc hs
  have hundone := h.undone p
  obtain ⟨_, hpos⟩ := h.waking p x didwake c hpc
  have hlock := h.inv.held x p (by rw [hpc]; rfl)
  -- What becomes of the process that is woken up.
  obtain ⟨c₁, hready, hold, hnew, hwake, hun⟩ : ∃ c₁ : Pc X,
      ((s.setq x (unqueue (s.q x) 0)).give q₀ x).ready q₀ = ((s.setq x (unqueue (s.q x) 0)).give q₀ x).goto q₀ c₁ ∧
      (∀ y, (s.pc q₀).transit y = 0 ∧ (s.pc q₀).granted y = 0) ∧
      (∀ y, c₁.transit y = 0 ∧ c₁.granted y = if y = x then 1 else 0) ∧
      (∀ y d k, c₁ ≠ .wake y d k) ∧ ¬c₁.Undone := by
    rcases h.inv.sleeper hq with hc | ⟨ss, hx, hc⟩
    · refine ⟨.done x, Inv.ready_of_asleep hc, ?_⟩
      simp [hc, Pc.transit, Pc.granted, Pc.Undone, eq_comm]
    · refine ⟨.altdone ss 1 0 (-1), Inv.ready_of_altasleep hc, ?_⟩
      simp [hc, Pc.transit, Pc.granted, Pc.Undone, hx, eq_comm]
  rw [hready] at he
  have hpc' : s'.pc = Function.update (Function.update s.pc q₀ c₁) p (.wakeup x true c) := by rw [he]; rfl
  have hp : Function.update s.pc q₀ c₁ p = .wake x didwake c := (Function.update_of_ne hne.symm ..).trans hpc
  have hself : s'.pc p = .wakeup x true c := by rw [hpc', Function.update_self]
  have hq₀ : s'.pc q₀ = c₁ := by rw [hpc', Function.update_of_ne hne, Function.update_self]
  have hother {p'} (hp' : p' ≠ p) (hp₀ : p' ≠ q₀) : s'.pc p' = s.pc p' := by
    rw [hpc', Function.update_of_ne hp', Function.update_of_ne hp₀]
  have htransit y : tally (Pc.transit y) s'.pc = tally (Pc.transit y) s.pc := by
    rw [hpc', tally_update, tally_update, hp, (hold y).left, (hnew y).left]
    simp [Pc.transit]
  have hgranted y : s'.granted y = s.granted y + if y = x then 1 else 0 := by
    rw [State.granted, State.granted, hpc', tally_update, tally_update, hp, (hold y).right, (hnew y).right]
    simp [Pc.granted]
  have hqx : (s'.q x).length + 1 = (s.q x).length := by
    have hperm := (unqueue_perm q₀ l).length_eq
    rw [he]
    simp [State.goto, State.give, State.setq, hq, hperm]
  have hqy y (hy : y ≠ x) : s'.q y = s.q y := by
    rw [he]
    simp [State.goto, State.give, State.setq, hy]
  have hnp : s'.np = s.np := by rw [he]; rfl
  have hcounts : s'.downs = s.downs ∧ s'.ups = s.ups := by rw [he]; exact ⟨rfl, rfl⟩
  have hwaitsem p' : s'.waitsem p' = if p' = q₀ then some x else s.waitsem p' := by
    rw [he]
    simp [State.goto, State.give, State.setq, Function.update_apply]
  have hfree y : s'.free y = if y = x then s.free y - 1 else s.free y := by
    rw [State.free, State.free, htransit, hnp]
    split
    case isTrue hy => subst hy; omega
    case isFalse hy => rw [hqy y hy]
  refine ⟨hinv, fun y => ?total, fun y => ?free, fun p' y d k hp' => ?waking, fun p' y hp' => ?given, fun p' => ?undone⟩
  case total =>
    have := h.total y
    rw [hfree, hgranted, hcounts.left, hcounts.right]
    split <;> omega
  case free =>
    have := h.free y
    rw [hfree]
    split
    case isTrue hy => subst hy; omega
    case isFalse => exact this
  case waking =>
    by_cases hp₁ : p' = p
    case pos => rw [hp₁, hself] at hp'; contradiction
    by_cases hp₂ : p' = q₀
    case pos => rw [hp₂, hq₀] at hp'; exact (hwake _ _ _ hp').elim
    case neg =>
      rw [hother hp₁ hp₂] at hp'
      have hy : y ≠ x := by
        rintro rfl
        have hlock' := h.inv.held y p' (by rw [hp']; rfl)
        exact hp₁ <| Option.some.inj <| hlock'.symm.trans hlock
      rw [hqy y hy, hfree, if_neg hy]
      exact h.waking p' y d k hp'
  case given =>
    rw [hwaitsem]
    split
    case isTrue => simp
    case isFalse hp₀ =>
      by_cases hp₁ : p' = p
      case pos => rw [hp₁, hself] at hp'; contradiction
      case neg => exact h.given p' y (hother hp₁ hp₀ ▸ hp')
  case undone =>
    by_cases hp₁ : p' = p
    case pos =>
      rw [hp₁, hself]
      rw [hpc] at hundone
      exact fun hu => hundone (by cases c <;> exact hu)
    by_cases hp₂ : p' = q₀
    case pos => rwa [hp₂, hq₀]
    case neg => exact hother hp₁ hp₂ ▸ h.undone p'

theorem goto (h : Tickets v₀ s) (hinv : Inv s') (hold : s.pc p = c₀) (hpc : s'.pc = Function.update s.pc p c)
    (hsame : s'.np = s.np ∧ s'.q = s.q ∧ s'.waitsem = s.waitsem ∧ s'.downs = s.downs ∧ s'.ups = s.ups)
    (hsum : ∀ x, c.transit x + c.granted x = c₀.transit x + c₀.granted x)
    (hfree : ∀ x, c₀.transit x ≤ c.transit x ∨ 0 ≤ s.np x)
    (hwake : ∀ x d k, c = .wake x d k → 0 < (s.q x).length ∧ 1 ≤ s.np x + (s.q x).length)
    (hdone : ∀ x, c = .done x → s.waitsem p ≠ none) (hundone : ¬c.Undone) : Tickets v₀ s' := by
  have ⟨hnp, hq, hw, hdowns, hups⟩ := hsame
  refine h.frame hinv hold hpc (fun _ _ => by rw [hw]) (fun x => ?_) (fun x => by rw [hq]) (fun x => ?_)
    (fun x d k hk => ?_) (fun x hx => ?_) hundone
  · have := hsum x
    rw [hnp, hq, hdowns, hups]
    omega
  · have := hfree x
    rw [hnp, hq]
    omega
  · rw [hnp, hq]
    exact hwake x d k hk
  · rw [hw]
    exact hdone x hx

theorem acquire (h : Tickets v₀ s) (hinv : Inv s') (hold : s.pc p = c₀) (hs : s.acquire p x c = some s')
    (hsum : ∀ x, c.transit x = c₀.transit x ∧ c.granted x = c₀.granted x)
    (hwake : ∀ x d k, c ≠ .wake x d k) (hdone : ∀ x, c ≠ .done x) (hundone : ¬c.Undone) : Tickets v₀ s' := by
  rw [State.acquire] at hs
  split at hs
  case isFalse => contradiction
  case isTrue =>
    obtain rfl := Option.some.inj hs
    refine h.goto hinv hold rfl ⟨rfl, rfl, rfl, rfl, rfl⟩ (fun x => ?_) (fun x => .inl ?_)
      (fun x d k hk => (hwake x d k hk).elim) (fun x hx => (hdone x hx).elim) hundone
    · rw [(hsum x).left, (hsum x).right]
    · rw [(hsum x).left]

theorem enqueue (h : Tickets v₀ s) (hinv : Inv s') (hold : s.pc p = c₀) (hpc : s'.pc = Function.update s.pc p c)
    (hw : ∀ p' ≠ p, s'.waitsem p' = s.waitsem p')
    (hsame : s'.np = s.np ∧ s'.downs = s.downs ∧ s'.ups = s.ups) (hq : s'.q = Function.update s.q x (s.q x ++ [p]))
    (hc₀ : ∀ y, c₀.transit y = (if x = y then 1 else 0) ∧ c₀.granted y = 0)
    (hc : ∀ y, c.transit y = 0 ∧ c.granted y = 0)
    (hwake : ∀ x d k, c ≠ .wake x d k) (hdone : ∀ x, c ≠ .done x) (hundone : ¬c.Undone) : Tickets v₀ s' := by
  have ⟨hnp, hdowns, hups⟩ := hsame
  have hlen y : (s'.q y).length = (s.q y).length + if x = y then 1 else 0 := by
    by_cases hy : x = y
    · subst hy
      simp [hq]
    · simp [hq, hy, Ne.symm hy]
  refine h.frame hinv hold hpc hw (fun y => ?_) (fun y => ?_) (fun y => .inl ?_) (fun y d k hk => (hwake y d k hk).elim)
    (fun y hy => (hdone y hy).elim) hundone
  · rw [hnp, hdowns, hups, hlen, (hc₀ y).left, (hc₀ y).right, (hc y).left, (hc y).right]
    split <;> omega
  · rw [hlen]
    omega
  · rw [hnp, hlen, (hc₀ y).left, (hc y).left]
    split <;> omega

theorem semadec (h : Tickets v₀ s) (hinv : Inv ((s.add x (-1)).goto p c)) (hold : s.pc p = c₀)
    (hc₀ : ∀ y, c₀.transit y = 0 ∧ c₀.granted y = 0)
    (hc : 1 ≤ s.np x ∧ (∀ y, c.transit y = 0 ∧ c.granted y = if x = y then 1 else 0) ∨
      ∀ y, (c.transit y = if x = y then 1 else 0) ∧ c.granted y = 0)
    (hwake : ∀ x d k, c ≠ .wake x d k) (hdone : ∀ x, c ≠ .done x) (hundone : ¬c.Undone) :
    Tickets v₀ ((s.add x (-1)).goto p c) := by
  have hnp y : ((s.add x (-1)).goto p c).np y = s.np y - if x = y then 1 else 0 := by
    by_cases hy : x = y
    · subst hy
      simp [State.goto, State.add]
      omega
    · simp [State.goto, State.add, hy, Ne.symm hy]
  refine h.frame hinv hold rfl (fun _ _ => rfl) (fun y => ?_) (fun y => Nat.le_refl _) (fun y => ?_)
    (fun y d k hk => (hwake y d k hk).elim) (fun y hy => (hdone y hy).elim) hundone
  · change _ + ((s.q y).length : Int) + _ + _ + (s.downs y : Int) + _ = _ + _ + _ + _ + _ + (s.ups y : Int)
    rw [hnp, (hc₀ y).left, (hc₀ y).right]
    rcases hc with ⟨_, hc⟩ | hc
    all_goals
      rw [(hc y).left, (hc y).right]
      omega
  · change _ ≤ _ + ((s.q y).length : Int) + _ ∨ _
    rw [hnp, (hc₀ y).left]
    rcases hc with ⟨hpos, hc⟩ | hc
    · rw [(hc y).left]
      by_cases hy : x = y
      · subst hy
        exact .inr (by rw [if_pos rfl]; omega)
      · exact .inl (by rw [if_neg hy]; omega)
    · rw [(hc y).left]
      exact .inl (by omega)

theorem dec (h : Tickets v₀ s) (hinv : Inv (s.dec p x nb k)) (hpc : s.pc p = .dec x nb k) (hc : nb → 0 < s.np x)
    (hv : k.Valid x) : Tickets v₀ (s.dec p x nb k) := by
  have hnp : (s.add x (-1)).np x = s.np x - 1 := by
    simp [State.add]
    omega
  rw [State.dec, hnp] at hinv ⊢
  by_cases hpos : s.np x - 1 ≥ 0
  case pos =>
    rw [if_pos hpos] at hinv ⊢
    cases k
    case proc =>
      refine h.semadec hinv hpc (fun _ => ⟨rfl, rfl⟩) (.inl ⟨by omega, fun y => ⟨rfl, rfl⟩⟩) (by simp [Caller.success]) (by simp [Caller.success]) id
    case altsems ss i =>
      refine h.semadec hinv hpc (fun _ => ⟨rfl, rfl⟩) (.inl ⟨by omega, fun y => ⟨rfl, ?_⟩⟩) (by simp [Caller.success]) (by simp [Caller.success]) id
      have hv : ss[i]? = some x := hv
      simp [Caller.success, Pc.granted, hv]
  case neg =>
    have hnb : ¬nb := fun hnb => hpos (by have := hc hnb; omega)
    rw [if_neg hpos, if_neg hnb] at hinv ⊢
    exact h.semadec hinv hpc (fun _ => ⟨rfl, rfl⟩) (.inr fun y => ⟨rfl, rfl⟩) (by simp) (by simp) id

theorem run (h : Tickets v₀ s) (hc : Finds s (.run p)) (hs : s.run p = some s') : Tickets v₀ s' := by
  have hinv := h.inv.run hs
  have hv := h.inv.valid p
  have hun := h.undone p
  rw [Finds] at hc
  rw [State.run] at hs
  cases hpc : s.pc p <;> rw [hpc] at hs hv hun hc <;> simp only [reduceCtorEq] at hs
  case test x nb k =>
    obtain rfl := Option.some.inj hs
    obtain ⟨hw, hwake, hdone, hu⟩ := k.failure_quiet
    by_cases hif : s.np x ≤ 0 ∧ nb
    case pos =>
      rw [if_pos hif] at hinv ⊢
      exact h.goto hinv hpc rfl ⟨rfl, rfl, rfl, rfl, rfl⟩ (fun y => by rw [(hw y).left, (hw y).right]; rfl)
        (fun y => .inl (by rw [(hw y).left]; rfl)) (fun y d k hk => (hwake y d k hk).elim) (fun y hy => (hdone y hy).elim) hu
    case neg =>
      rw [if_neg hif] at hinv ⊢
      exact h.goto hinv hpc (c := .dec x nb k) rfl ⟨rfl, rfl, rfl, rfl, rfl⟩ (fun _ => rfl) (fun _ => .inl (Int.le_refl _)) (by simp) (by simp) id
  case dec x nb k =>
    obtain rfl := Option.some.inj hs
    exact h.dec hinv hpc (fun hnb => by subst hnb; exact hc) hv.left
  case ret x =>
    obtain rfl := Option.some.inj hs
    refine h.frame hinv hpc (c := .idle) rfl (fun _ _ => rfl) (fun y => ?_) (fun _ => Nat.le_refl _) (fun y => .inl ?_) (by simp) (by simp) id
    · by_cases hy : y = x
      · subst hy
        simp [State.down, State.goto, Pc.transit, Pc.granted]
        omega
      · simp [State.down, State.goto, Pc.transit, Pc.granted, hy, Ne.symm hy]
    · simp [State.down, State.goto, Pc.transit]
  case wakelock x c =>
    refine h.acquire hinv hpc hs (fun _ => ⟨rfl, rfl⟩) (by simp) (by simp) fun hu => hun ?_
    cases c <;> exact hu
  case wakeup x didwake c =>
    obtain rfl := Option.some.inj hs
    rw [State.wakeup] at hinv ⊢
    split
    case isTrue hlt =>
      rw [if_pos hlt] at hinv
      refine h.goto hinv hpc (c := .wake x didwake c) rfl ⟨rfl, rfl, rfl, rfl, rfl⟩ (fun _ => rfl) (fun _ => .inl (Int.le_refl _))
        (fun y d k hk => ?_) (by simp) fun hu => hun ?_
      · cases hk
        omega
      · cases c <;> exact hu
    case isFalse hge =>
      rw [if_neg hge] at hinv
      cases c
      case upsem =>
        exact h.goto hinv hpc (c := .idle) rfl ⟨rfl, rfl, rfl, rfl, rfl⟩ (fun _ => rfl) (fun _ => .inl (Int.le_refl _)) (by simp) (by simp) id
      case downsem => exact (hun trivial).elim
      case semalt => exact hv.left.elim
  case wake x didwake c => exact h.wake hpc hs
  case sleeplock x => exact h.acquire hinv hpc hs (fun _ => ⟨rfl, rfl⟩) (by simp) (by simp) id
  case sleep x =>
    obtain rfl := Option.some.inj hs
    split
    case isTrue hge =>
      rw [if_pos hge] at hinv
      refine h.goto hinv hpc (c := .done x) rfl ⟨rfl, rfl, rfl, rfl, rfl⟩ (fun y => ?_) (fun y => ?_) (by simp) (fun y hy => hc hge) id
      · simp [Pc.transit, Pc.granted]
      · by_cases hy : x = y
        · exact .inr (hy ▸ hge)
        · simp [Pc.transit, hy]
    case isFalse hlt =>
      rw [if_neg hlt] at hinv
      exact h.goto hinv hpc (c := .queue x) rfl ⟨rfl, rfl, rfl, rfl, rfl⟩ (fun _ => rfl) (fun _ => .inl (Int.le_refl _)) (by simp) (by simp) id
  case queue x =>
    obtain rfl := Option.some.inj hs
    exact h.enqueue hinv hpc (c := .asleep x) rfl (fun p' hp' => Function.update_of_ne hp' ..) ⟨rfl, rfl, rfl⟩ rfl
      (fun _ => ⟨rfl, rfl⟩) (fun _ => ⟨rfl, rfl⟩) (by simp) (by simp) id
  case done x =>
    obtain rfl := Option.some.inj hs
    rw [if_neg (h.given p x hpc)] at hinv ⊢
    exact h.goto hinv hpc (c := .ret x) rfl ⟨rfl, rfl, rfl, rfl, rfl⟩ (fun _ => rfl) (fun _ => .inl (Int.le_refl _)) (by simp) (by simp) id
  case altdec ss i =>
    obtain ⟨rfl, x, hx⟩ := hv
    rw [hx, Option.map_some] at hs
    obtain rfl := Option.some.inj hs
    rw [State.altdec] at hinv ⊢
    by_cases hpos : (s.add x (-1)).np x ≥ 0
    case pos =>
      rw [if_pos hpos] at hinv ⊢
      refine h.semadec hinv hpc (fun _ => ⟨rfl, rfl⟩) (.inl ⟨?_, fun y => ⟨rfl, ?_⟩⟩) (by simp) (by simp) id
      · simp [State.add] at hpos
        omega
      · simp [Pc.granted, hx]
    case neg =>
      rw [if_neg hpos] at hinv ⊢
      refine h.semadec hinv hpc (fun _ => ⟨rfl, rfl⟩) (.inr fun y => ⟨?_, rfl⟩) (by simp) (by simp) id
      simp [Pc.transit, hx]
  case altlock ss i n =>
    obtain ⟨rfl, hn, x, hx⟩ := hv
    rw [hx] at hs
    exact h.acquire hinv hpc hs (fun _ => ⟨rfl, rfl⟩) (by simp) (by simp) id
  case altqueue ss i n =>
    obtain ⟨rfl, hn, x, hx⟩ := hv
    rw [hx, Option.map_some] at hs
    obtain rfl := Option.some.inj hs
    rw [if_neg (by omega)] at hinv ⊢
    refine h.enqueue hinv hpc (c := .altasleep ss 1) rfl (fun _ _ => rfl) ⟨rfl, rfl, rfl⟩ rfl
      (fun y => ⟨?_, rfl⟩) (fun _ => ⟨rfl, rfl⟩) (by simp) (by simp) id
    simp [Pc.transit, hx]
  case altdone ss i j r =>
    obtain ⟨⟨x, hx⟩, ⟨rfl, rfl, rfl⟩ | ⟨rfl, hv⟩⟩ := hv
    case inl =>
      obtain rfl := Option.some.inj hs
      exact h.goto hinv hpc (c := .altret ss 0) rfl ⟨rfl, rfl, rfl, rfl, rfl⟩ (fun _ => rfl) (fun _ => .inl (Int.le_refl _)) (by simp) (by simp) id
    case inr =>
      rcases hv with ⟨rfl, rfl, hw⟩ | ⟨rfl, rfl⟩
      · rw [if_pos Nat.zero_lt_one, hx, Option.map_some] at hs
        obtain rfl := Option.some.inj hs
        rw [if_pos (hw.trans hx)] at hinv ⊢
        exact h.goto hinv hpc (c := .altdone ss 1 1 0) rfl ⟨rfl, rfl, rfl, rfl, rfl⟩ (fun _ => rfl) (fun _ => .inl (Int.le_refl _)) (by simp) (by simp) id
      · obtain rfl := Option.some.inj hs
        exact h.goto hinv hpc (c := .altret ss 0) rfl ⟨rfl, rfl, rfl, rfl, rfl⟩ (fun _ => rfl) (fun _ => .inl (Int.le_refl _)) (by simp) (by simp) id
  case altret ss r =>
    obtain ⟨x, hx⟩ := hv
    rw [hx, Option.map_some] at hs
    obtain rfl := Option.some.inj hs
    refine h.frame hinv hpc (c := .idle) rfl (fun _ _ => rfl) (fun y => ?_) (fun _ => Nat.le_refl _) (fun y => .inl ?_) (by simp) (by simp) id
    · by_cases hy : y = x
      · subst hy
        simp [State.down, State.goto, Pc.transit, Pc.granted, hx]
        omega
      · simp [State.down, State.goto, Pc.transit, Pc.granted, hx, hy, Ne.symm hy]
    · simp [State.down, State.goto, Pc.transit]
  all_goals first | exact (hun trivial).elim | exact hv.elim

theorem upsem (h : Tickets v₀ s) (hpc : s.pc p = .idle) : Tickets v₀ (s.upsem p x) := by
  have hinv := h.inv.upsem (x := x) hpc
  have hpc' : ∃ c, (s.upsem p x).pc = Function.update s.pc p c ∧ (c = .idle ∨ c = .wakelock x .upsem) := by
    rw [State.upsem]
    split
    · exact ⟨_, rfl, .inr rfl⟩
    · exact ⟨_, rfl, .inl rfl⟩
  have hsame : (s.upsem p x).np = Function.update s.np x (s.np x + 1) ∧ (s.upsem p x).q = s.q ∧
      (s.upsem p x).waitsem = s.waitsem ∧ (s.upsem p x).downs = s.downs ∧
      (s.upsem p x).ups = Function.update s.ups x (s.ups x + 1) := by
    rw [State.upsem]
    split <;> exact ⟨rfl, rfl, rfl, rfl, rfl⟩
  obtain ⟨c, hpc', hc⟩ := hpc'
  obtain ⟨hnp, hq, hw, hdowns, hups⟩ := hsame
  have hup y : (s.upsem p x).np y = s.np y + (if x = y then 1 else 0) ∧
      ((s.upsem p x).ups y : Int) = s.ups y + if x = y then 1 else 0 := by
    by_cases hy : x = y
    · subst hy
      simp [hnp, hups]
    · simp [hnp, hups, hy, Ne.symm hy]
  rcases hc with rfl | rfl
  all_goals
    refine h.frame hinv hpc hpc' (fun _ _ => by rw [hw]) (fun y => ?_) (fun y => by rw [hq]) (fun y => .inl ?_)
      (by simp) (by simp) id
    · rw [(hup y).left, (hup y).right, hq, hdowns]
      simp only [Pc.transit, Pc.granted]
      omega
    · rw [(hup y).left, hq]
      simp only [Pc.transit]
      split <;> omega

theorem step (h : Tickets v₀ s) (hc : Finds s act) (hs : step s act = some s') : Tickets v₀ s' := by
  have hinv := h.inv.step hs
  cases act
  case upsem p x =>
    obtain ⟨hpc, he⟩ := Option.ite_none_right_eq_some.mp hs
    exact Option.some.inj he ▸ h.upsem hpc
  case downsem p x nb =>
    obtain ⟨hpc, he⟩ := Option.ite_none_right_eq_some.mp hs
    obtain rfl := Option.some.inj he
    exact h.goto hinv hpc rfl ⟨rfl, rfl, rfl, rfl, rfl⟩ (fun _ => rfl) (fun _ => .inl (Int.le_refl _)) nofun nofun id
  case altsems p ss =>
    obtain ⟨hpc, he⟩ := Option.ite_none_right_eq_some.mp hs
    obtain ⟨x, hx, rfl⟩ := Option.map_eq_some_iff.mp he
    exact h.goto hinv hpc rfl ⟨rfl, rfl, rfl, rfl, rfl⟩ (fun _ => rfl) (fun _ => .inl (Int.le_refl _)) nofun nofun id
  case run p => exact h.run hc hs

omit [DecidableEq P] in
theorem created (h : Created v₀ s) : Tickets v₀ s := by
  have hfree x : s.free x = v₀ x := by
    rw [State.free, h.np, h.q, tally_eq_zero fun p => by rw [h.pc]; rfl]
    rfl
  refine ⟨.created h, fun x => ?_, fun x => ?_, fun p x d k hp => ?_, fun p x hp => ?_, fun p => ?_⟩
  · rw [hfree, State.granted, tally_eq_zero fun p => by rw [h.pc]; rfl, h.downs, h.ups]
    rfl
  · rw [hfree]
    omega
  · rw [h.pc] at hp
    contradiction
  · rw [h.pc] at hp
    contradiction
  · rw [h.pc]
    exact id

end Tickets

theorem tickets_invariant {v₀ : X → Nat} : (machine v₀).Invariant Finds (Tickets (P := P) v₀) where
  init := .created
  step h hc hs := h.step hc hs

-- In a run in which no non-blocking down decrements the integer in vain, and no process finds a ticket
-- in `semsleep` without a mark of an earlier wake up, there are never more downs than tickets.
theorem downs_le {v₀ : X → Nat} (hr : (machine v₀).Reachable Finds s) :
    (∀ x, s.downs x ≤ v₀ x + s.ups x) ∧ ∀ p, ¬(s.pc p).Undone := by
  have h := tickets_invariant.holds hr
  refine ⟨fun x => ?_, h.undone⟩
  have := h.total x
  have := h.free x
  have : 0 ≤ s.granted x := tally_nonneg (Pc.granted_nonneg · x) _
  omega

-- One of two processes takes the only ticket.
def taken : State Bool Unit :=
  ((machine fun _ => 1).exec (fresh fun _ => 1) [.downsem true () false, .run true, .run true, .run true]).get (by decide)

theorem downs_le_taken : taken.downs () ≤ 1 + taken.ups () := by
  have hr : (machine fun _ => 1).Reachable Finds (fresh fun _ => 1 : State Bool Unit) := .init (fresh_created _)
  have hr := hr.step (a := Act.downsem true () false) trivial rfl
  have hr := hr.step (a := Act.run true) trivial rfl
  have hr := hr.step (a := Act.run true) trivial rfl
  have hr := hr.step (a := Act.run true) (t := taken) trivial rfl
  exact (downs_le hr).left ()

-- Both take it: one looks at the integer, and decrements it when the other one has the ticket.
def takentwice : State Bool Unit :=
  ((machine fun _ => 1).exec (fresh fun _ => 1)
    [.downsem true () true, .run true, .downsem false () false, .run false, .run false, .run false,
      .run true, .run true, .run true, .run true, .run true]).get (by decide)

theorem takentwice_downs :
    (machine fun _ => 1).Reachable (fun _ _ => True) takentwice ∧ takentwice.downs () = 2 ∧ takentwice.ups () = 0 := by
  have hs : (machine fun _ => 1).exec (fresh fun _ => 1)
      [.downsem true () true, .run true, .downsem false () false, .run false, .run false, .run false,
        .run true, .run true, .run true, .run true, .run true] = some takentwice := (Option.some_get _).symm
  exact ⟨(Machine.Reachable.init (fresh_created _)).exec (fun _ _ _ => trivial) hs, by decide, by decide⟩

end Port.Sem
