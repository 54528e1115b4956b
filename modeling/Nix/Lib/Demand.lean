import Mathlib.Algebra.BigOperators.Group.List.Lemmas
import Mathlib.Algebra.Order.BigOperators.Group.List
import Mathlib.Algebra.Order.BigOperators.GroupWithZero.List
import Mathlib.Algebra.Order.Ring.Int

-- Tasks that are released with a period, have to be done by a deadline after each release and cost at most
-- so much time. The time is counted from an instant at which all of them are released.
structure RtTask where
  T : Int
  D : Int
  C : Int
deriving DecidableEq, Repr

namespace RtTask

structure Sound (x : RtTask) : Prop where
  pos  : 0 < x.C
  le_D : x.C ≤ x.D
  le_T : x.D ≤ x.T

instance (x : RtTask) : Decidable x.Sound :=
  decidable_of_iff (0 < x.C ∧ x.C ≤ x.D ∧ x.D ≤ x.T) ⟨fun ⟨h₁, h₂, h₃⟩ => ⟨h₁, h₂, h₃⟩, fun ⟨h₁, h₂, h₃⟩ => ⟨h₁, h₂, h₃⟩⟩

variable {x : RtTask} {t b : Int} {k : Nat} {l : List RtTask}

namespace Sound

theorem D_pos (h : x.Sound) : 0 < x.D :=
  lt_of_lt_of_le h.pos h.le_D

theorem T_pos (h : x.Sound) : 0 < x.T :=
  lt_of_lt_of_le h.D_pos h.le_T

end Sound

-- How many deadlines there are at `t` or before.
def deadlines (x : RtTask) (t : Int) : Nat :=
  ((t - x.D) / x.T + 1).toNat

-- How many releases there are before `b`.
def releases (x : RtTask) (b : Int) : Nat :=
  ((b - 1) / x.T + 1).toNat

theorem lt_deadlines_iff (h : x.Sound) : k < x.deadlines t ↔ k * x.T + x.D ≤ t := by
  have hk : (k : Int) ≤ (t - x.D) / x.T ↔ k * x.T ≤ t - x.D := Int.le_ediv_iff_mul_le h.T_pos
  rw [deadlines, Int.lt_toNat]
  omega

theorem lt_releases_iff (h : x.Sound) : k < x.releases b ↔ k * x.T < b := by
  have hk : (k : Int) ≤ (b - 1) / x.T ↔ k * x.T ≤ b - 1 := Int.le_ediv_iff_mul_le h.T_pos
  rw [releases, Int.lt_toNat]
  omega

theorem deadlines_le_iff (h : x.Sound) : x.deadlines t ≤ k ↔ t < k * x.T + x.D := by
  rw [← not_lt, lt_deadlines_iff h, not_le]

theorem releases_le_iff (h : x.Sound) : x.releases b ≤ k ↔ b ≤ k * x.T := by
  rw [← not_lt, lt_releases_iff h, not_lt]

-- A deadline after `b` is of a release before `b`, or it is as far after `b` as a deadline is that comes from
-- the start.
theorem deadlines_le_add (h : x.Sound) : x.deadlines t ≤ x.releases b + x.deadlines (t - b) := by
  have hr : b ≤ x.releases b * x.T := (releases_le_iff h).mp le_rfl
  have hd : t - b < x.deadlines (t - b) * x.T + x.D := (deadlines_le_iff h).mp le_rfl
  rw [deadlines_le_iff h, Nat.cast_add, add_mul]
  omega

-- What has to be done by `t`.
def demand (l : List RtTask) (t : Int) : Int :=
  (l.map fun x => (x.deadlines t : Int) * x.C).sum

-- What is asked for before `b`.
def work (l : List RtTask) (b : Int) : Int :=
  (l.map fun x => (x.releases b : Int) * x.C).sum

-- The releases before `b` and the deadlines up to `b`.
def events (l : List RtTask) (b : Int) : Nat :=
  (l.map fun x => x.releases b + x.deadlines b).sum

theorem demand_sublist {l' : List RtTask} (h : l'.Sublist l) (hl : ∀ x ∈ l, x.Sound) : demand l' t ≤ demand l t := by
  refine (h.map _).sum_le_sum fun n hn => ?_
  obtain ⟨x, hx, rfl⟩ := List.mem_map.mp hn
  exact mul_nonneg (Int.natCast_nonneg _) (hl x hx).pos.le

theorem demand_le_add (hl : ∀ x ∈ l, x.Sound) : demand l t ≤ work l b + demand l (t - b) := by
  rw [work, demand, demand, ← List.sum_map_add]
  refine List.sum_le_sum fun x hx => ?_
  have hd : (x.deadlines t : Int) ≤ x.releases b + x.deadlines (t - b) := by
    exact_mod_cast deadlines_le_add (hl x hx)
  rw [← add_mul]
  exact mul_le_mul_of_nonneg_right hd (hl x hx).pos.le

-- When all that was asked for before `b` can be done by then, what comes afterwards is as if it came from the
-- start.
theorem demand_le_of_work_le (hl : ∀ x ∈ l, x.Sound) (hb : 0 < b) (hw : work l b ≤ b)
    (hd : ∀ t, 0 ≤ t → t < b → demand l t ≤ t) (ht : 0 ≤ t) : demand l t ≤ t := by
  obtain ⟨n, rfl⟩ := Int.eq_ofNat_of_zero_le ht
  induction n using Nat.strong_induction_on
  case h n ih =>
    by_cases hn : (n : Int) < b
    case pos => exact hd n ht hn
    case neg =>
      have hlt : ((n - b).toNat : Int) = n - b := Int.toNat_of_nonneg (by omega)
      have hrest := ih (n - b).toNat (by omega) (by omega)
      have hadd := demand_le_add (t := n) (b := b) hl
      rw [hlt] at hrest
      omega

end RtTask
