import Mathlib.Algebra.Order.Ring.Int
import Mathlib.Data.Finset.Sort

namespace List

variable {α : Type*} {R r : α → α → Prop} [DecidableRel r] {a : α} {l : List α}

-- An insertion by `r` keeps a list in the order `R` when `r` tells right where the new element belongs.
theorem Pairwise.insert_of (hl : l.Pairwise R) (before : ∀ b ∈ l, r a b → R a b) (after : ∀ b ∈ l, ¬r a b → R b a)
    (trans : ∀ b ∈ l, ∀ c ∈ l, r a b → R b c → R a c) : (l.orderedInsert r a).Pairwise R := by
  induction l
  case nil => exact pairwise_singleton R a
  case cons b l ih =>
    obtain ⟨hb, hl⟩ := pairwise_cons.mp hl
    rw [orderedInsert_cons]
    split
    case isTrue hlt =>
      refine pairwise_cons.mpr ⟨fun c hc => ?_, pairwise_cons.mpr ⟨hb, hl⟩⟩
      rcases mem_cons.mp hc with rfl | hc
      · exact before c mem_cons_self hlt
      · exact trans b mem_cons_self c (mem_cons_of_mem b hc) hlt (hb c hc)
    case isFalse hlt =>
      refine pairwise_cons.mpr ⟨fun c hc => ?_, ih hl ?_ ?_ ?_⟩
      · rcases mem_cons.mp <| (perm_orderedInsert r a l).mem_iff.mp hc with rfl | hc
        · exact after b mem_cons_self hlt
        · exact hb c hc
      · exact fun c hc => before c (mem_cons_of_mem b hc)
      · exact fun c hc => after c (mem_cons_of_mem b hc)
      · exact fun c hc d hd => trans c (mem_cons_of_mem b hc) d (mem_cons_of_mem b hd)

section
variable [DecidableEq α] {m : List α}

-- What follows `a` on a list.
def follower (a : α) : List α → Option α
  | []     => none
  | x :: l => if x = a then l.head? else follower a l

theorem follower_append_left (h : a ∈ l) : follower a (l ++ m) = (follower a l).or m.head? := by
  induction l
  case nil => contradiction
  case cons x l ih =>
    rw [cons_append, follower, follower]
    split
    case isTrue => rw [head?_append]
    case isFalse hx => exact ih <| (mem_cons.mp h).resolve_left (Ne.symm hx)

theorem follower_append_right (h : a ∉ l) : follower a (l ++ m) = follower a m := by
  induction l
  case nil => rfl
  case cons x l ih =>
    rw [mem_cons, not_or] at h
    rw [cons_append, follower, if_neg (Ne.symm h.left), ih h.right]

theorem follower_cons_self : follower a (a :: l) = l.head? :=
  if_pos rfl

theorem follower_eq_find? [DecidableRel R] (hl : l.Pairwise R) (hirr : ¬R a a) (hasymm : ∀ x, R x a → ¬R a x) (h : a ∈ l) :
    follower a l = l.find? (R a ·) := by
  induction l
  case nil => contradiction
  case cons x l ih =>
    obtain ⟨hx, hl⟩ := pairwise_cons.mp hl
    rw [follower, find?_cons]
    split
    case isTrue he =>
      subst he
      rw [decide_eq_false hirr]
      rcases l with _ | ⟨y, l⟩
      · rfl
      · simp [hx y mem_cons_self]
    case isFalse he =>
      have ha : a ∈ l := (mem_cons.mp h).resolve_left (Ne.symm he)
      rw [decide_eq_false (hasymm x (hx a ha))]
      exact ih hl ha

end

-- What a predicate finds first on a sorted list, where it holds from some element on.
theorem find?_eq_find?_iff {P Q : α → Bool} (hl : l.Pairwise R) (hQ : ∀ x y, R x y → Q x → Q y)
    (hPQ : ∀ x ∈ l, Q x → P x) : l.find? P = l.find? Q ↔ ∀ x ∈ l, P x → Q x := by
  induction l
  case nil => simp
  case cons x l ih =>
    obtain ⟨hx, hl⟩ := pairwise_cons.mp hl
    obtain ⟨hPx, hPQ⟩ := forall_mem_cons.mp hPQ
    rw [find?_cons, find?_cons, forall_mem_cons]
    cases hP : P x <;> cases hq : Q x
    case false.false => simp [ih hl hPQ]
    case false.true => simp [hPx hq] at hP
    case true.false =>
      simp only [reduceCtorEq, imp_false, not_true_eq_false, false_and, iff_false]
      intro he
      simp [find?_some he.symm] at hq
    case true.true => simpa using fun y hy _ => hQ x y (hx y hy) hq

theorem find?_eq_some_iff_of_pairwise {P : α → Bool} (hl : l.Pairwise R) (hasymm : ∀ x y, R x y → ¬R y x) :
    l.find? P = some a ↔ a ∈ l ∧ P a ∧ ∀ x ∈ l, P x → x = a ∨ R a x := by
  induction l
  case nil => simp
  case cons x l ih =>
    obtain ⟨hx, hl⟩ := pairwise_cons.mp hl
    rw [find?_cons, mem_cons, forall_mem_cons]
    cases hP : P x
    case false =>
      have hne : P a → a ≠ x := fun ha he => by simp [he, hP] at ha
      simp only [ih hl, reduceCtorEq, false_imp_iff, true_and]
      tauto
    case true =>
      simp only [Option.some.injEq, true_imp_iff]
      constructor
      · rintro rfl
        exact ⟨.inl rfl, hP, .inl rfl, fun y hy _ => .inr (hx y hy)⟩
      · rintro ⟨ha | ha, -, he | hlt, -⟩
        · exact he
        · exact ha.symm
        · exact he
        · exact absurd hlt (hasymm x a (hx a ha))

end List

-- The elements of a finite set in order, by how many are before one of them.
namespace Finset

variable {α : Type*} [LinearOrder α] {s t : Finset α} {a : α} {n : Nat}

theorem sort_eq_append (s : Finset α) (a : α) : s.sort = {b ∈ s | b < a}.sort ++ {b ∈ s | a ≤ b}.sort := by
  have hnodup : ({b ∈ s | b < a}.sort ++ {b ∈ s | a ≤ b}.sort).Nodup := by
    refine (sort_nodup _ _).append (sort_nodup _ _) fun b hb hb' => ?_
    rw [mem_sort, mem_filter] at hb hb'
    exact not_le_of_gt hb.right hb'.right
  have hsorted : ({b ∈ s | b < a}.sort ++ {b ∈ s | a ≤ b}.sort).Pairwise (· ≤ ·) := by
    refine List.pairwise_append.mpr ⟨pairwise_sort _ _, pairwise_sort _ _, fun b hb c hc => ?_⟩
    rw [mem_sort, mem_filter] at hb hc
    exact hb.right.le.trans hc.right
  have hmem : ({b ∈ s | b < a}.sort ++ {b ∈ s | a ≤ b}.sort).toFinset = s := by
    ext b
    simp only [List.mem_toFinset, List.mem_append, mem_sort, mem_filter, ← and_or_left]
    exact and_iff_left (lt_or_ge b a)
  rw [← (List.toFinset_sort (· ≤ ·) hnodup).mpr hsorted, hmem]

-- The first elements do not change where the sets agree up to one that is not among them.
theorem take_sort_eq (h : ∀ b < a, b ∈ s ↔ b ∈ t) (hn : n ≤ #{b ∈ s | b < a}) : s.sort.take n = t.sort.take n := by
  have heq : ({b ∈ s | b < a} : Finset α) = {b ∈ t | b < a} := by
    ext b
    rw [mem_filter, mem_filter]
    exact and_congr_left (h b)
  have hle : n ≤ ({b ∈ t | b < a} : Finset α).sort.length := by rwa [length_sort, ← heq]
  rw [sort_eq_append s a, sort_eq_append t a, heq, List.take_append_of_le_length hle, List.take_append_of_le_length hle]

theorem getElem?_sort (ha : a ∈ s) : s.sort[#{b ∈ s | b < a}]? = some a := by
  have hmin : ∀ b ∈ ({b ∈ s | a < b} : Finset α), a ≤ b := fun b hb => (mem_filter.mp hb).right.le
  have hnot : a ∉ ({b ∈ s | a < b} : Finset α) := fun h => lt_irrefl a (mem_filter.mp h).right
  have hge : ({b ∈ s | a ≤ b} : Finset α) = insert a {b ∈ s | a < b} := by
    ext b
    simp only [mem_filter, mem_insert, le_iff_eq_or_lt]
    grind
  rw [sort_eq_append s a, List.getElem?_append_right (length_sort _).le, length_sort, Nat.sub_self, hge,
    sort_insert _ hmin hnot]
  rfl

end Finset

-- A function that compares by the sign of an integer, as `strcmp` does. What compares as equal has the same key.
structure Comparison {A : Type*} (cmp : A → A → Int) : Prop where
  swap  : cmp x y < 0 ↔ 0 < cmp y x
  trans : cmp x y ≤ 0 → cmp y z ≤ 0 → cmp x z ≤ 0

namespace Comparison

variable {A : Type*} {cmp : A → A → Int} {x y z r : A} {l left right : List A}

theorem refl (h : Comparison cmp) : cmp x x = 0 := by
  have := h.swap (x := x) (y := x)
  omega

theorem le_swap (h : Comparison cmp) : cmp x y ≤ 0 ↔ 0 ≤ cmp y x := by
  have := h.swap (x := y) (y := x)
  omega

theorem lt_of_lt_of_le (h : Comparison cmp) (hxy : cmp x y < 0) (hyz : cmp y z ≤ 0) : cmp x z < 0 := by
  by_contra hzx
  have := h.trans hyz (h.le_swap.mpr (Int.not_lt.mp hzx))
  have := h.swap.mp hxy
  omega

theorem lt_of_le_of_lt (h : Comparison cmp) (hxy : cmp x y ≤ 0) (hyz : cmp y z < 0) : cmp x z < 0 := by
  by_contra hzx
  have := h.trans (h.le_swap.mpr (Int.not_lt.mp hzx)) hxy
  have := h.swap.mp hyz
  omega

theorem lt_trans (h : Comparison cmp) (hxy : cmp x y < 0) (hyz : cmp y z < 0) : cmp x z < 0 :=
  h.lt_of_lt_of_le hxy (Int.le_of_lt hyz)

abbrev Sorted (cmp : A → A → Int) (l : List A) : Prop :=
  l.Pairwise fun x y => cmp x y < 0

-- Where a key belongs in a sorted list: what comes before it, the element that has it, and what comes after it.
structure Cut (cmp : A → A → Int) (r : A) (l left : List A) (old : Option A) (right : List A) : Prop where
  eq   : l = left ++ (old.toList ++ right)
  gt   : ∀ x ∈ left, 0 < cmp r x
  same : ∀ x ∈ old, cmp r x = 0
  lt   : ∀ x ∈ right, cmp r x < 0

namespace Cut

variable {old : Option A}

theorem nil : Cut cmp r [] [] none [] where
  eq   := rfl
  gt   := by simp
  same := by simp
  lt   := by simp

theorem append_left (hc : Cut cmp r l left old right) {m : List A} (hm : ∀ x ∈ m, 0 < cmp r x) :
    Cut cmp r (m ++ l) (m ++ left) old right where
  eq   := by rw [hc.eq, List.append_assoc]
  gt   := List.forall_mem_append.mpr ⟨hm, hc.gt⟩
  same := hc.same
  lt   := hc.lt

theorem append_right (hc : Cut cmp r l left old right) {m : List A} (hm : ∀ x ∈ m, cmp r x < 0) :
    Cut cmp r (l ++ m) left old (right ++ m) where
  eq   := by rw [hc.eq]; simp only [List.append_assoc]
  gt   := hc.gt
  same := hc.same
  lt   := List.forall_mem_append.mpr ⟨hc.lt, hm⟩

theorem mem_iff (hc : Cut cmp r l left old right) : x ∈ l ↔ x ∈ left ∨ x ∈ old ∨ x ∈ right := by
  rw [hc.eq, List.mem_append, List.mem_append, Option.mem_toList, Option.mem_def]

theorem old_iff (hc : Cut cmp r l left old right) : x ∈ old ↔ x ∈ l ∧ cmp r x = 0 := by
  rw [hc.mem_iff]
  constructor
  · exact fun hx => ⟨.inr <| .inl hx, hc.same x hx⟩
  · rintro ⟨hx | hx | hx, h0⟩
    · have := hc.gt x hx; omega
    · exact hx
    · have := hc.lt x hx; omega

-- The others.
theorem mem_append_iff (hc : Cut cmp r l left old right) : x ∈ left ++ right ↔ x ∈ l ∧ cmp r x ≠ 0 := by
  rw [hc.mem_iff, List.mem_append]
  constructor
  · rintro (hx | hx)
    · have := hc.gt x hx; exact ⟨.inl hx, by omega⟩
    · have := hc.lt x hx; exact ⟨.inr <| .inr hx, by omega⟩
  · rintro ⟨hx | hx | hx, h0⟩
    · exact .inl hx
    · exact absurd (hc.same x hx) h0
    · exact .inr hx

theorem sorted_append (hc : Cut cmp r l left old right) (hl : Sorted cmp l) : Sorted cmp (left ++ right) := by
  refine hl.sublist ?_
  rw [hc.eq]
  exact (List.sublist_append_right ..).append_left left

theorem sorted_insert (h : Comparison cmp) (hc : Cut cmp r l left old right) (hl : Sorted cmp l) :
    Sorted cmp (left ++ r :: right) := by
  obtain ⟨hleft, hright, hlr⟩ := List.pairwise_append.mp (hc.sorted_append hl)
  refine List.pairwise_append.mpr ⟨hleft, List.pairwise_cons.mpr ⟨hc.lt, hright⟩, fun x hx y hy => ?_⟩
  rcases List.mem_cons.mp hy with rfl | hy
  · exact h.swap.mpr (hc.gt x hx)
  · exact hlr x hx y hy

end Cut

end Comparison
