import Mathlib.Algebra.BigOperators.Group.Finset.Piecewise
import Mathlib.Algebra.Order.BigOperators.Group.Finset
import Mathlib.Algebra.Order.Ring.Int

section

-- What the parties of a system amount to, by a weight for what each of them is doing.
variable {P C : Type*} [Fintype P]

def tally (w : C → Int) (f : P → C) : Int :=
  ∑ p, w (f p)

theorem tally_update [DecidableEq P] (w : C → Int) (f : P → C) (p : P) (c : C) :
    tally w (Function.update f p c) = tally w f - w (f p) + w c := by
  have hcomp : (fun q => w (Function.update f p c q)) = Function.update (fun q => w (f q)) p (w c) :=
    funext fun q => Function.apply_update (fun _ => w) f p c q
  have hrest := Finset.sum_erase_eq_sub (f := fun q => w (f q)) (Finset.mem_univ p)
  rw [tally, hcomp, Finset.sum_update_of_mem (Finset.mem_univ p), Finset.sdiff_singleton_eq_erase, hrest, tally]
  omega

theorem tally_nonneg {w : C → Int} (h : ∀ c, 0 ≤ w c) (f : P → C) : 0 ≤ tally w f :=
  Finset.sum_nonneg fun p _ => h (f p)

theorem le_tally {w : C → Int} (h : ∀ c, 0 ≤ w c) (f : P → C) (p : P) : w (f p) ≤ tally w f :=
  Finset.single_le_sum (fun q _ => h (f q)) (Finset.mem_univ p)

theorem tally_eq_zero {w : C → Int} {f : P → C} (h : ∀ p, w (f p) = 0) : tally w f = 0 :=
  Finset.sum_eq_zero fun p _ => h p

end

-- How a lock changes hands when `a` takes a step. `old` and `new` tell whether it was where only the holder
-- is, and whether it is there now.
def Passes {α : Type*} (own own' : Option α) (a : α) (old new : Prop) : Prop :=
  (own' = own ∧ (new ↔ old)) ∨ (own = none ∧ own' = some a ∧ new) ∨ (own' = none ∧ old ∧ ¬new)

namespace Passes

variable {α : Type*} {own own' : Option α} {has has' : α → Prop} {a : α}

theorem owner (has' : α → Prop) (hp : Passes own own' a (has a) (has' a)) (h : ∀ b, own = some b ↔ has b)
    (hne : ∀ b, b ≠ a → (has' b ↔ has b)) (b : α) : own' = some b ↔ has' b := by
  by_cases hb : b = a
  case pos =>
    subst hb
    rcases hp with ⟨rfl, hiff⟩ | ⟨-, rfl, hnew⟩ | ⟨rfl, -, hnew⟩
    · rw [h, hiff]
    · simp [hnew]
    · simp [hnew]
  case neg =>
    rw [hne b hb, ← h]
    rcases hp with ⟨rfl, -⟩ | ⟨rfl, rfl, -⟩ | ⟨rfl, hold, -⟩
    · exact Iff.rfl
    · simp [Ne.symm hb]
    · rw [(h a).mpr hold]
      simp [Ne.symm hb]

end Passes
