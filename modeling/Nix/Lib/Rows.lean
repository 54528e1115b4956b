import Mathlib.Data.List.ReduceOption
import Mathlib.Algebra.Order.Ring.Int

-- A table of rows of `w` places each. A row that is absent has nothing at any of them.
namespace Rows

variable {α : Type*} {w lo hi k : Nat} {l l' : List (Option α)} {rows : List (Option (List (Option α)))}

-- All places of the table, one row after the other.
def flat (w : Nat) (rows : List (Option (List (Option α)))) : List (Option α) :=
  rows.flatMap fun row => row.getD (List.replicate w none)

def Wide (w : Nat) (rows : List (Option (List (Option α)))) : Prop :=
  ∀ row ∈ rows, ∀ l ∈ row, l.length = w

-- The table has nothing at the places from `lo` to `hi`.
def clear (lo hi : Nat) (l : List (Option α)) : List (Option α) :=
  l.mapIdx fun k x => if lo ≤ k ∧ k < hi then none else x

-- What is at the places from `lo` to `hi`.
def found (lo hi : Nat) (l : List (Option α)) : List α :=
  ((l.take hi).drop lo).reduceOption

@[simp]
theorem flat_nil : flat w ([] : List (Option (List (Option α)))) = [] :=
  rfl

theorem flat_cons (row : Option (List (Option α))) :
    flat w (row :: rows) = row.getD (List.replicate w none) ++ flat w rows :=
  List.flatMap_cons

theorem flat_append (rows' : List (Option (List (Option α)))) : flat w (rows ++ rows') = flat w rows ++ flat w rows' :=
  List.flatMap_append

theorem wide_cons {row : Option (List (Option α))} :
    Wide w (row :: rows) ↔ (∀ l ∈ row, l.length = w) ∧ Wide w rows :=
  List.forall_mem_cons

theorem wide_append {rows' : List (Option (List (Option α)))} :
    Wide w (rows ++ rows') ↔ Wide w rows ∧ Wide w rows' :=
  List.forall_mem_append

theorem length_getD {row : Option (List (Option α))} (h : ∀ l ∈ row, l.length = w) :
    (row.getD (List.replicate w none)).length = w := by
  cases row
  case none   => exact List.length_replicate
  case some l => exact h l rfl

theorem length_flat (h : Wide w rows) : (flat w rows).length = rows.length * w := by
  induction rows
  case nil => simp
  case cons row rows ih =>
    rw [wide_cons] at h
    rw [flat_cons, List.length_append, length_getD h.left, ih h.right, List.length_cons, Nat.succ_mul, Nat.add_comm]

theorem get_flat (hw : 0 < w) (h : Wide w rows) :
    (flat w rows)[k]?.join = rows[k / w]?.join.bind fun l => l[k % w]?.join := by
  induction rows generalizing k
  case nil => simp
  case cons row rows ih =>
    rw [wide_cons] at h
    rw [flat_cons]
    by_cases hk : k < w
    · rw [List.getElem?_append_left (by rwa [length_getD h.left]), Nat.div_eq_of_lt hk, Nat.mod_eq_of_lt hk]
      cases row
      case none   => simp [hk]
      case some l => simp
    · obtain ⟨k, rfl⟩ := Nat.exists_eq_add_of_le' (Nat.le_of_not_lt hk)
      rw [List.getElem?_append_right (by rw [length_getD h.left]; omega), length_getD h.left, Nat.add_sub_cancel,
        ih h.right, Nat.add_div_right _ hw, Nat.add_mod_right, List.getElem?_cons_succ]

theorem mem_reduceOption {x : α} : x ∈ l.reduceOption ↔ ∃ k : Nat, l[k]?.join = some x := by
  rw [List.reduceOption_mem_iff, List.mem_iff_getElem?]
  simp only [Option.join_eq_some_iff]

theorem ext_get (hl : l.length = l'.length) (h : ∀ k : Nat, l[k]?.join = l'[k]?.join) : l = l' := by
  refine List.ext_getElem hl fun k hk hk' => ?_
  have hj := h k
  rwa [List.getElem?_eq_getElem hk, List.getElem?_eq_getElem hk'] at hj

theorem nodup_iff : l.reduceOption.Nodup ↔
    ∀ (i k : Nat) (x : α), l[i]?.join = some x → l[k]?.join = some x → i = k := by
  simp only [Option.join_eq_some_iff, List.getElem?_eq_some_iff]
  rw [List.reduceOption, List.Nodup, List.pairwise_filterMap, List.pairwise_iff_getElem]
  constructor
  · rintro h i k x ⟨hi, hx⟩ ⟨hk, hy⟩
    rcases Nat.lt_trichotomy i k with hlt | rfl | hlt
    · exact absurd rfl (h i k hi hk hlt x hx x hy)
    · rfl
    · exact absurd rfl (h k i hk hi hlt x hy x hx)
  · rintro h i k hi hk hlt x hx y hy rfl
    exact Nat.ne_of_lt hlt (h i k x ⟨hi, hx⟩ ⟨hk, hy⟩)

@[simp]
theorem length_clear : (clear lo hi l).length = l.length :=
  List.length_mapIdx

theorem get_clear : (clear lo hi l)[k]?.join = if lo ≤ k ∧ k < hi then none else l[k]?.join := by
  rw [clear, List.getElem?_mapIdx]
  cases l[k]? <;> simp

theorem nodup_clear (h : l.reduceOption.Nodup) : (clear lo hi l).reduceOption.Nodup := by
  refine nodup_iff.mpr fun i k x hi hk => ?_
  rw [get_clear, Option.ite_none_left_eq_some] at hi hk
  exact nodup_iff.mp h i k x hi.right hk.right

theorem clear_append : clear lo hi (l ++ l') = clear lo hi l ++ clear (lo - l.length) (hi - l.length) l' := by
  rw [clear, List.mapIdx_append]
  congr 1
  refine List.ext_getElem? fun k => ?_
  simp only [clear, List.getElem?_mapIdx]
  have hk : lo ≤ k + l.length ∧ k + l.length < hi ↔ lo - l.length ≤ k ∧ k < hi - l.length := by omega
  simp only [hk]

theorem clear_of_le (h : hi ≤ lo) : clear lo hi l = l := by
  refine List.ext_getElem? fun k => ?_
  have hn : ¬(lo ≤ k ∧ k < hi) := by omega
  simp [clear, List.getElem?_mapIdx, hn]

theorem clear_of_length_le (h : l.length ≤ lo) : clear lo hi l = l := by
  refine List.ext_getElem? fun k => ?_
  rw [clear, List.getElem?_mapIdx]
  by_cases hk : lo ≤ k
  · simp [List.getElem?_eq_none (h.trans hk)]
  · simp [hk]

theorem clear_replicate (n : Nat) : clear lo hi (List.replicate n (none : Option α)) = List.replicate n none := by
  refine List.ext_getElem? fun k => ?_
  rw [clear, List.getElem?_mapIdx, List.getElem?_replicate]
  split <;> simp

theorem clear_set (h : lo < hi) : clear (lo + 1) hi (l.set lo none) = clear lo hi l := by
  refine List.ext_getElem? fun k => ?_
  simp only [clear, List.getElem?_mapIdx, List.getElem?_set]
  by_cases hk : lo = k
  · subst hk
    by_cases hl : lo < l.length <;> simp [hl, h]
  · have hk' : lo + 1 ≤ k ∧ k < hi ↔ lo ≤ k ∧ k < hi := by omega
    rw [if_neg hk]
    simp only [hk']

theorem set_eq_clear : l.set lo none = clear lo (lo + 1) l := by
  rw [← clear_set (Nat.lt_succ_self lo), clear_of_le (Nat.le_refl _)]

theorem found_append : found lo hi (l ++ l') = found lo hi l ++ found (lo - l.length) (hi - l.length) l' := by
  rw [found, List.take_append, List.drop_append, List.reduceOption_append, List.length_take]
  by_cases h : l.length ≤ hi
  · rw [Nat.min_eq_right h]
    rfl
  · simp [found, show hi - l.length = 0 by omega]

theorem found_of_le (h : hi ≤ lo) : found lo hi l = [] := by
  rw [found, List.drop_eq_nil_of_le (by simp; omega)]
  rfl

theorem found_of_length_le (h : l.length ≤ lo) : found lo hi l = [] := by
  rw [found, List.drop_eq_nil_of_le (by rw [List.length_take]; omega)]
  rfl

theorem mem_found {x : α} : x ∈ found lo hi l ↔ ∃ k, (lo ≤ k ∧ k < hi) ∧ l[k]?.join = some x := by
  rw [found, mem_reduceOption]
  simp only [List.getElem?_drop, List.getElem?_take]
  constructor
  · rintro ⟨k, hk⟩
    split at hk
    case isTrue h  => exact ⟨lo + k, ⟨Nat.le_add_right lo k, h⟩, hk⟩
    case isFalse h => simp at hk
  · rintro ⟨k, hk, h⟩
    refine ⟨k - lo, ?_⟩
    rw [Nat.add_sub_cancel' hk.left, if_pos hk.right, h]

theorem found_sublist : (found lo hi l).Sublist l.reduceOption :=
  ((List.drop_sublist lo _).trans (List.take_sublist hi l)).filterMap id

theorem found_eq (h : lo < hi) : found lo hi l = l[lo]?.join.toList ++ found (lo + 1) hi l := by
  by_cases hl : lo < l.length
  · have hd : lo < (l.take hi).length := by rw [List.length_take]; omega
    rw [found, List.drop_eq_getElem_cons hd, List.getElem_take, List.getElem?_eq_getElem hl]
    cases l[lo] <;> simp [found]
  · rw [found_of_length_le (Nat.le_of_not_lt hl), found_of_length_le (by omega), List.getElem?_eq_none (by omega)]
    rfl

theorem found_eq_all (h : ∀ k : Nat, l[k]?.join ≠ none → lo ≤ k ∧ k < hi) : found lo hi l = l.reduceOption := by
  have hlo : ((l.take hi).take lo).reduceOption = [] := by
    refine List.eq_nil_iff_forall_not_mem.mpr fun x hx => ?_
    obtain ⟨k, hk⟩ := mem_reduceOption.mp hx
    rw [List.take_take, List.getElem?_take] at hk
    split at hk
    case isTrue hlt => have := h k (by rw [hk]; simp); omega
    case isFalse    => simp at hk
  have hhi : (l.drop hi).reduceOption = [] := by
    refine List.eq_nil_iff_forall_not_mem.mpr fun x hx => ?_
    obtain ⟨k, hk⟩ := mem_reduceOption.mp hx
    rw [List.getElem?_drop] at hk
    have := h (hi + k) (by rw [hk]; simp)
    omega
  have hs := congrArg List.reduceOption (List.take_append_drop hi l)
  have ht := congrArg List.reduceOption (List.take_append_drop lo (l.take hi))
  rw [List.reduceOption_append, hhi, List.append_nil] at hs
  rw [List.reduceOption_append, hlo, List.nil_append, hs] at ht
  exact ht

theorem found_set : found (lo + 1) hi (l.set lo none) = found (lo + 1) hi l := by
  rw [found, List.take_set, List.drop_set_of_lt (Nat.lt_succ_self lo), found]

theorem found_replicate (n : Nat) : found lo hi (List.replicate n (none : Option α)) = [] := by
  simp [found]

end Rows
