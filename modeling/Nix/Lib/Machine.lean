import Mathlib.Data.List.Basic
import Mathlib.Algebra.Order.Ring.Int

-- The numerals of the small types that runs are over.
instance neZero_two : NeZero 2 := ⟨by decide⟩
instance neZero_three : NeZero 3 := ⟨by decide⟩
instance neZero_four : NeZero 4 := ⟨by decide⟩
instance neZero_sixteen : NeZero 16 := ⟨by decide⟩

-- A machine moves from state to state by the actions that are possible there.
structure Machine (σ α : Type*) where
  init : σ → Prop
  step : σ → α → Option σ

namespace Machine

variable {m : Machine σ α} {cond cond' : σ → α → Prop} {I J : σ → Prop}

-- The states of the runs all of whose actions are taken where `cond` allows them.
inductive Reachable (m : Machine σ α) (cond : σ → α → Prop) : σ → Prop
  | init : m.init s → Reachable m cond s
  | step : Reachable m cond s → cond s a → m.step s a = some t → Reachable m cond t

structure Invariant (m : Machine σ α) (cond : σ → α → Prop) (I : σ → Prop) : Prop where
  init : m.init s → I s
  step : I s → cond s a → m.step s a = some s' → I s'

theorem Invariant.holds (h : m.Invariant cond I) (hr : m.Reachable cond s) : I s := by
  induction hr
  case init hi => exact h.init hi
  case step _ hc hs ih => exact h.step ih hc hs

theorem Reachable.mono (h : ∀ s a, cond s a → cond' s a) (hr : m.Reachable cond s) :
    m.Reachable cond' s := by
  induction hr
  case init hi => exact .init hi
  case step _ hc hs ih => exact ih.step (h _ _ hc) hs

-- The state that a list of actions leads to.
def exec (m : Machine σ α) (s : σ) : List α → Option σ
  | [] => some s
  | a :: as => m.step s a >>= fun s' => m.exec s' as

theorem Reachable.exec (hr : m.Reachable cond s) (hc : ∀ a ∈ as, ∀ s, cond s a)
    (h : m.exec s as = some s') : m.Reachable cond s' := by
  induction as generalizing s
  case nil => exact Option.some.inj h ▸ hr
  case cons a as ih =>
    obtain ⟨t, ht, h⟩ := Option.bind_eq_some_iff.mp h
    rw [List.forall_mem_cons] at hc
    exact ih (hr.step (hc.left s) ht) hc.right h

-- What comes to hold in no more than `k` actions, whatever they are.
def Within (m : Machine σ α) (P : σ → Prop) : Nat → σ → Prop
  | 0, s     => P s
  | k + 1, s => P s ∨ (∃ a t, m.step s a = some t) ∧ ∀ a t, m.step s a = some t → m.Within P k t

-- The machine that takes no action where `cond` does not allow it.
def guarded (m : Machine σ α) (cond : σ → α → Prop) [∀ s a, Decidable (cond s a)] : Machine σ α where
  init     := m.init
  step s a := if cond s a then m.step s a else none

theorem Reachable.guarded [∀ s a, Decidable (cond s a)] (hr : m.Reachable cond s)
    (h : (m.guarded cond).exec s as = some s') : m.Reachable cond s' := by
  induction as generalizing s
  case nil => exact Option.some.inj h ▸ hr
  case cons a as ih =>
    obtain ⟨t, ht, h⟩ := Option.bind_eq_some_iff.mp h
    obtain ⟨hc, ht⟩ := Option.ite_none_right_eq_some.mp ht
    exact ih (hr.step hc ht) h

theorem exists_reachable [∀ s a, Decidable (cond s a)] {p : σ → Bool} (hi : m.init s)
    (h : ((m.guarded cond).exec s as).any p = true) : ∃ t, m.Reachable cond t ∧ p t = true := by
  obtain ⟨t, ht, hp⟩ := (Option.any_eq_true _ _).mp h
  exact ⟨t, (Reachable.init hi).guarded ht, hp⟩

-- The machine along with a record of what it did. `note` tells what becomes of the record when an
-- action is taken.
def track (m : Machine σ α) (γ : Type*) (init : σ → γ) (note : σ → α → γ → γ) : Machine (σ × γ) α where
  init s   := m.init s.fst ∧ s.snd = init s.fst
  step s a := (m.step s.fst a).map fun s' => (s', note s.fst a s.snd)

theorem track_step_eq {γ : Type*} {f : σ → γ} {note : σ → α → γ → γ} {s s' : σ × γ} :
    (m.track γ f note).step s a = some s' ↔
      m.step s.fst a = some s'.fst ∧ s'.snd = note s.fst a s.snd := by
  simp only [track, Option.map_eq_some_iff, Prod.ext_iff]
  constructor
  · rintro ⟨_, hs, rfl, he⟩
    exact ⟨hs, he.symm⟩
  · exact fun ⟨hs, he⟩ => ⟨_, hs, rfl, he.symm⟩

theorem Reachable.track {γ : Type*} (f : σ → γ) (note : σ → α → γ → γ) (hr : m.Reachable cond s) :
    ∃ r, (m.track γ f note).Reachable (fun s a => cond s.fst a) (s, r) := by
  induction hr
  case init hi => exact ⟨f _, .init ⟨hi, rfl⟩⟩
  case step hc hs ih =>
    have ⟨_, ih⟩ := ih
    exact ⟨_, ih.step hc (track_step_eq.mpr ⟨hs, rfl⟩)⟩

end Machine
