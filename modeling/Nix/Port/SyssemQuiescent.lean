import Mathlib.Tactic.FinCases
import Nix.Port.SyssemTickets

namespace Port.Sem

variable {P X : Type*} [DecidableEq X]

namespace Pc

-- The process is going to look for others to wake up.
def Wakes (x : X) : Pc X → Prop
  | .wakelock y _ | .wakeup y .. | .wake y .. => y = x
  | _ => False

-- How many ups the process has under way.
def upping (x : X) : Pc X → Int
  | .wakelock y _ | .wakeup y .. | .wake y .. => if y = x then 1 else 0
  | _ => 0

-- The process does no more than ups and blocking downs.
def Plain : Pc X → Prop
  | .test _ nb k | .dec _ nb k => nb = false ∧ k = .proc
  | .wakelock _ c | .wakeup _ _ c | .wake _ _ c => c = .upsem
  | .idle | .ret _ | .sleeplock _ | .sleep _ | .queue _ | .asleep _ | .done _ => True
  | _ => False

end Pc

variable [DecidableEq P] [Fintype P] {s s' : State P X}

-- The calls of a run of ups and blocking downs.
def Blocking : Act P X → Prop
  | .downsem _ _ dontblock => dontblock = false
  | .altsems ..            => False
  | _                      => True

-- No process gets on a queue after a ticket came that was meant for it, unless some process is about
-- to see to that.
def Orderly (s : State P X) : Act P X → Prop
  | .run p =>
    match s.pc p with
    | .sleep x => 0 ≤ s.np x → s.waitsem p ≠ none
    | .queue x => ((s.q x).length : Int) < -s.np x ∨ ∃ p', (s.pc p').Wakes x
    | _        => True
  | _ => True

namespace State

-- No more processes wait than there are tickets missing.
def Settled (s : State P X) (x : X) : Prop :=
  (s.q x).length = 0 ∨ ((s.q x).length : Int) ≤ -s.np x

-- Every process has returned, or is asleep.
def Quiescent (s : State P X) : Prop :=
  ∀ p, s.pc p = .idle ∨ ∃ x, s.pc p = .asleep x

end State

structure Waiting (s : State P X) : Prop where
  plain   : ∀ p, (s.pc p).Plain
  settled : ∀ x, (∃ p, (s.pc p).Wakes x) ∨ s.Settled x
  upped   : ∀ x, (s.upped x : Int) + tally (Pc.upping x) s.pc = s.ups x

namespace Waiting

theorem frame (h : Waiting s) (hold : s.pc p = c₀) (hpc : s'.pc = Function.update s.pc p c)
    (hplain : c.Plain)
    (hsettled : ∀ x, c.Wakes x ∨ (∃ p' ≠ p, (s.pc p').Wakes x) ∨ s'.Settled x ∨ ¬c₀.Wakes x ∧ (s.Settled x → s'.Settled x))
    (hupped : ∀ x, (s'.upped x : Int) + c.upping x + s.ups x = s.upped x + c₀.upping x + s'.ups x) : Waiting s' := by
  have hother {p'} (hp' : p' ≠ p) : s'.pc p' = s.pc p' := by rw [hpc, Function.update_of_ne hp']
  have hself : s'.pc p = c := by rw [hpc, Function.update_self]
  refine ⟨fun p' => ?plain, fun x => ?settled, fun x => ?upped⟩
  case plain =>
    by_cases hp' : p' = p
    case pos => rwa [hp', hself]
    case neg => exact hother hp' ▸ h.plain p'
  case settled =>
    rcases hsettled x with hc | ⟨p', hne, hp'⟩ | hs | ⟨hc₀, hs⟩
    · exact .inl ⟨p, hself ▸ hc⟩
    · exact .inl ⟨p', hother hne ▸ hp'⟩
    · exact .inr hs
    · refine (h.settled x).imp (fun ⟨p', hp'⟩ => ⟨p', ?_⟩) hs
      have hne : p' ≠ p := fun he => hc₀ (hold ▸ he ▸ hp')
      exact hother hne ▸ hp'
  case upped =>
    have := h.upped x
    have := hupped x
    rw [hpc, tally_update, hold]
    omega

-- A step that leaves the integers, the queues and the counts alone, with no process to wake up others.
theorem goto (h : Waiting s) (hold : s.pc p = c₀) (hpc : s'.pc = Function.update s.pc p c)
    (hplain : c.Plain) (hsame : s'.np = s.np ∧ s'.q = s.q ∧ s'.upped = s.upped ∧ s'.ups = s.ups)
    (hwakes : ∀ x, c₀.Wakes x → c.Wakes x) (hupping : ∀ x, c.upping x = c₀.upping x) : Waiting s' := by
  have ⟨hnp, hq, hupped, hups⟩ := hsame
  refine h.frame hold hpc hplain (fun x => ?_) fun x => by rw [hupped, hups, hupping]
  by_cases hx : c₀.Wakes x
  case pos => exact .inl (hwakes x hx)
  case neg => exact .inr <| .inr <| .inr ⟨hx, fun hs => by rwa [State.Settled, hnp, hq]⟩

theorem acquire (h : Waiting s) (hold : s.pc p = c₀) (hs : s.acquire p x c = some s')
    (hplain : c.Plain) (hwakes : ∀ x, c₀.Wakes x → c.Wakes x) (hupping : ∀ x, c.upping x = c₀.upping x) :
    Waiting s' := by
  rw [State.acquire] at hs
  split at hs
  case isFalse => contradiction
  case isTrue =>
    obtain rfl := Option.some.inj hs
    exact h.goto hold rfl hplain ⟨rfl, rfl, rfl, rfl⟩ hwakes hupping

theorem run {v₀ : X → Nat} (h : Waiting s) (ht : Tickets v₀ s) (hc : Orderly s (.run p)) (hs : s.run p = some s') : Waiting s' := by
  have hplain := h.plain p
  rw [Orderly] at hc
  rw [State.run] at hs
  cases hpc : s.pc p <;> rw [hpc] at hs hplain hc <;> simp only [reduceCtorEq] at hs
  case test x nb k =>
    obtain ⟨rfl, rfl⟩ := hplain
    obtain rfl := Option.some.inj hs
    rw [if_neg (by simp)]
    exact h.goto hpc (c := .dec x false .proc) rfl ⟨rfl, rfl⟩ ⟨rfl, rfl, rfl, rfl⟩ (fun _ => id) fun _ => rfl
  case dec x nb k =>
    obtain ⟨rfl, rfl⟩ := hplain
    obtain rfl := Option.some.inj hs
    have hc : ∃ c, (s.dec p x false .proc) = (s.add x (-1)).goto p c ∧ (c = .ret x ∨ c = .sleeplock x) := by
      rw [State.dec]
      split
      · exact ⟨_, rfl, .inl rfl⟩
      · exact ⟨_, rfl, .inr rfl⟩
    obtain ⟨c, he, hc⟩ := hc
    rw [he]
    refine h.frame hpc rfl (by rcases hc with rfl | rfl <;> trivial) (fun y => .inr <| .inr <| .inr ⟨id, fun hy => ?_⟩) fun y => ?_
    · by_cases hyx : y = x
      · subst hyx
        simp only [State.Settled, State.goto, State.add, Function.update_self] at hy ⊢
        omega
      · simpa [State.Settled, State.goto, State.add, hyx] using hy
    · rcases hc with rfl | rfl <;> rfl
  case ret x =>
    obtain rfl := Option.some.inj hs
    exact h.goto hpc (c := .idle) rfl trivial ⟨rfl, rfl, rfl, rfl⟩ (fun _ => id) fun _ => rfl
  case wakelock x c => exact h.acquire hpc hs hplain (fun _ => id) fun _ => rfl
  case wakeup x didwake c =>
    obtain rfl : c = .upsem := hplain
    obtain rfl := Option.some.inj hs
    rw [State.wakeup]
    split
    case isTrue => exact h.goto hpc (c := .wake x didwake .upsem) rfl rfl ⟨rfl, rfl, rfl, rfl⟩ (fun _ => id) fun _ => rfl
    case isFalse hge =>
      refine h.frame hpc (c := .idle) rfl trivial (fun y => ?_) fun y => ?_
      · by_cases hy : x = y
        · subst hy
          refine .inr <| .inr <| .inl ?_
          change (s.q x).length = 0 ∨ ((s.q x).length : Int) ≤ -s.np x
          omega
        · exact .inr <| .inr <| .inr ⟨hy, id⟩
      · by_cases hy : x = y
        · subst hy
          simp [State.awoken, State.up, State.goto, State.release, Pc.upping]
        · simp [State.awoken, State.up, State.goto, State.release, Pc.upping, hy, Ne.symm hy]
  case wake x didwake c =>
    obtain ⟨q₀, l, hq, hne, he⟩ := ht.inv.wake_eq hpc hs
    have hperm := (unqueue_perm q₀ l).length_eq
    have hq₀ : s.pc q₀ = .asleep x := by
      refine (ht.inv.sleeper hq).resolve_right ?_
      rintro ⟨ss, _, hq₀⟩
      have := h.plain q₀
      rw [hq₀] at this
      exact this
    rw [Inv.ready_of_asleep (s := (s.setq x (unqueue (s.q x) 0)).give q₀ x) hq₀] at he
    have hwoken : Waiting (((s.setq x (unqueue (s.q x) 0)).give q₀ x).goto q₀ (.done x)) := by
      refine h.frame hq₀ rfl trivial (fun y => .inr <| .inr <| .inr ⟨id, fun hy => ?_⟩) fun y => rfl
      by_cases hyx : y = x
      · subst hyx
        simp only [State.Settled, State.goto, State.give, State.setq, Function.update_self, hq, hperm, List.length_cons] at hy ⊢
        omega
      · simpa [State.Settled, State.goto, State.give, State.setq, hyx] using hy
    have hp := (Function.update_of_ne hne.symm (Pc.done x) s.pc).trans hpc
    rw [he]
    exact hwoken.goto hp (c := .wakeup x true c) rfl hplain ⟨rfl, rfl, rfl, rfl⟩ (fun _ => id) fun _ => rfl
  case sleeplock x => exact h.acquire hpc hs trivial (fun _ => id) fun _ => rfl
  case sleep x =>
    obtain rfl := Option.some.inj hs
    by_cases hge : s.np x ≥ 0
    case pos =>
      rw [if_pos hge]
      exact h.goto hpc (c := .done x) rfl trivial ⟨rfl, rfl, rfl, rfl⟩ (fun _ => id) fun _ => rfl
    case neg =>
      rw [if_neg hge]
      exact h.goto hpc (c := .queue x) rfl trivial ⟨rfl, rfl, rfl, rfl⟩ (fun _ => id) fun _ => rfl
  case queue x =>
    obtain rfl := Option.some.inj hs
    refine h.frame hpc (c := .asleep x) rfl trivial (fun y => ?_) fun _ => rfl
    by_cases hyx : y = x
    · subst hyx
      rcases hc with hlt | ⟨p', hp'⟩
      · refine .inr <| .inr <| .inl <| .inr ?_
        simp only [State.goto, State.release, State.setq, Function.update_self, List.length_append, List.length_singleton]
        omega
      · refine .inr <| .inl ⟨p', ?_, hp'⟩
        rintro rfl
        rw [hpc] at hp'
        exact hp'
    · exact .inr <| .inr <| .inr ⟨id, fun hy => by simpa [State.Settled, State.goto, State.release, State.setq, hyx] using hy⟩
  case done x =>
    obtain rfl := Option.some.inj hs
    rw [if_neg (ht.given p x hpc)]
    exact h.goto hpc (c := .ret x) rfl trivial ⟨rfl, rfl, rfl, rfl⟩ (fun _ => id) fun _ => rfl
  all_goals exact hplain.elim

theorem upsem (h : Waiting s) (hpc : s.pc p = .idle) : Waiting (s.upsem p x) := by
  have hup : ∃ c, (s.upsem p x).pc = Function.update s.pc p c ∧
      (c = .wakelock x .upsem ∧ (s.upsem p x).upped = s.upped ∨
        c = .idle ∧ 0 ≤ s.np x ∧ (s.upsem p x).upped = Function.update s.upped x (s.upped x + 1)) := by
    rw [State.upsem]
    split
    case isTrue => exact ⟨_, rfl, .inl ⟨rfl, rfl⟩⟩
    case isFalse hpos =>
      refine ⟨_, rfl, .inr ⟨rfl, ?_, rfl⟩⟩
      simp only [State.add, Function.update_self] at hpos
      omega
  have hsame : (s.upsem p x).np = Function.update s.np x (s.np x + 1) ∧ (s.upsem p x).q = s.q ∧
      (s.upsem p x).ups = Function.update s.ups x (s.ups x + 1) := by
    rw [State.upsem]
    split <;> exact ⟨rfl, rfl, rfl⟩
  obtain ⟨c, hpc', hc⟩ := hup
  obtain ⟨hnp, hq, hups⟩ := hsame
  refine h.frame hpc hpc' (by rcases hc with ⟨rfl, _⟩ | ⟨rfl, _⟩ <;> trivial) (fun y => ?_) fun y => ?_
  all_goals by_cases hy : x = y
  · subst hy
    rcases hc with ⟨rfl, _⟩ | ⟨rfl, hpos, _⟩
    · exact .inl rfl
    · refine .inr <| .inr <| .inr ⟨id, fun hs => ?_⟩
      rw [State.Settled, hq]
      rw [State.Settled] at hs
      omega
  · exact .inr <| .inr <| .inr ⟨id, fun hs => by simpa [State.Settled, hnp, hq, Ne.symm hy] using hs⟩
  · subst hy
    rcases hc with ⟨rfl, he⟩ | ⟨rfl, _, he⟩
    all_goals
      simp [he, hups, Pc.upping]
      omega
  · rcases hc with ⟨rfl, he⟩ | ⟨rfl, _, he⟩
    all_goals simp [he, hups, Pc.upping, hy, Ne.symm hy]

theorem step {v₀ : X → Nat} (h : Waiting s) (ht : Tickets v₀ s) (hb : Blocking act) (hc : Orderly s act)
    (hs : step s act = some s') : Waiting s' := by
  cases act
  case upsem p x =>
    obtain ⟨hpc, he⟩ := Option.ite_none_right_eq_some.mp hs
    exact Option.some.inj he ▸ h.upsem hpc
  case downsem p x nb =>
    obtain ⟨hpc, he⟩ := Option.ite_none_right_eq_some.mp hs
    obtain rfl := Option.some.inj he
    exact h.goto hpc (c := .test x nb .proc) rfl ⟨hb, rfl⟩ ⟨rfl, rfl, rfl, rfl⟩ (fun _ => id) fun _ => rfl
  case altsems => exact hb.elim
  case run p => exact h.run ht hc hs

omit [DecidableEq P] in
theorem created (h : Created v₀ s) : Waiting s where
  plain p := h.pc p ▸ trivial
  settled x := .inr <| .inl <| by rw [h.q]; rfl
  upped x := by
    rw [tally_eq_zero fun p => by rw [h.pc]; rfl, h.upped, h.ups]
    rfl

omit [DecidableEq P] in
theorem finds (h : Waiting s) (hc : Orderly s act) : Finds s act := by
  cases act
  case run p =>
    have hplain := h.plain p
    rw [Orderly] at hc
    rw [Finds]
    cases hpc : s.pc p <;> rw [hpc] at hplain hc
    case dec x nb k =>
      obtain ⟨rfl, -⟩ := hplain
      trivial
    case sleep x => exact hc
    all_goals trivial
  all_goals trivial

end Waiting

theorem waiting_invariant {v₀ : X → Nat} :
    (machine v₀).Invariant (fun s act => Blocking act ∧ Orderly s act) fun s : State P X => Tickets v₀ s ∧ Waiting s where
  init h := ⟨.created h, .created h⟩
  step := fun ⟨ht, h⟩ ⟨hb, hc⟩ hs => ⟨ht.step (h.finds hc) hs, h.step ht hb hc hs⟩

-- Two processes find no ticket. One is posted, and then both get on the queue.
def missed : State (Fin 3) Unit :=
  ((machine fun _ => 0).exec (fresh fun _ => 0)
    [.downsem 0 () false, .run 0, .run 0, .downsem 1 () false, .run 1, .run 1, .upsem 2 (), .run 2, .run 2,
      .run 0, .run 0, .run 0, .run 1, .run 1, .run 1]).get (by decide)

end Port.Sem
