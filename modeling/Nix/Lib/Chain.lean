import Mathlib.Data.List.Nodup
import Mathlib.Algebra.Order.Ring.Int

-- Singly linked lists: `next` gives the link of each node and `nil` ends the list.
variable {α : Type*} {next next' : α → α} {nil a b head : α} {l l' : List α}

-- `l` lists the nodes found from a head on.
def Chain (next : α → α) (nil : α) : α → List α → Prop
  | head, []     => head = nil
  | head, a :: l => head = a ∧ a ≠ nil ∧ Chain next nil (next a) l

namespace Chain

theorem eq_of_chain (h : Chain next nil head l) (h' : Chain next nil head l') : l = l' := by
  induction l generalizing head l' with
  | nil =>
    cases l' with
    | nil => rfl
    | cons => exact absurd (h'.left.symm.trans h) h'.right.left
  | cons a l ih =>
    cases l' with
    | nil => exact absurd (h.left.symm.trans h') h.right.left
    | cons b l' =>
      obtain rfl : a = b := h.left.symm.trans h'.left
      rw [ih h.right.right h'.right.right]

theorem suffix (h : Chain next nil head (l ++ b :: l')) : Chain next nil b (b :: l') := by
  induction l generalizing head with
  | nil => exact ⟨rfl, h.right⟩
  | cons a l ih => exact ih h.right.right

theorem nodup (h : Chain next nil head l) : l.Nodup := by
  induction l generalizing head with
  | nil => exact .nil
  | cons a l ih =>
    refine .cons (fun ha => ?_) (ih h.right.right)
    have ⟨pre, post, hl⟩ := List.append_of_mem ha
    have hlong : Chain next nil a (a :: l) := ⟨rfl, h.right⟩
    have hshort : Chain next nil a (a :: post) :=
      suffix (l := a :: pre) (by rw [List.cons_append, ← hl]; exact hlong)
    have heq := congrArg List.length (eq_of_chain hlong hshort)
    simp only [hl, List.length_cons, List.length_append] at heq
    omega

theorem congr (h : Chain next nil head l) (hn : ∀ a ∈ l, next a = next' a) :
    Chain next' nil head l := by
  induction l generalizing head with
  | nil => exact h
  | cons a l ih =>
    rw [List.forall_mem_cons] at hn
    exact ⟨h.left, h.right.left, hn.left ▸ ih h.right.right hn.right⟩

section Update

variable [DecidableEq α]

theorem update (h : Chain next nil head l) (ha : a ∉ l) (v : α) :
    Chain (Function.update next a v) nil head l :=
  h.congr fun _ hb => (Function.update_of_ne (ne_of_mem_of_not_mem hb ha) ..).symm

theorem push (h : Chain next nil head l) (ha : a ∉ l) (hn : a ≠ nil) :
    Chain (Function.update next a head) nil a (a :: l) :=
  ⟨rfl, hn, by rw [Function.update_self]; exact h.update ha head⟩

theorem relink (h : Chain next nil head (l ++ a :: l')) (ha : a ∉ l) {v : α} {l'' : List α}
    (hv : Chain (Function.update next a v) nil v l'') :
    Chain (Function.update next a v) nil head (l ++ a :: l'') := by
  induction l generalizing head with
  | nil => exact ⟨h.left, h.right.left, by rwa [Function.update_self]⟩
  | cons b l ih =>
    rw [List.mem_cons, not_or] at ha
    refine ⟨h.left, h.right.left, ?_⟩
    rw [Function.update_of_ne (Ne.symm ha.left)]
    exact ih h.right.right ha.right

end Update

theorem pop (h : Chain next nil head l) (hn : head ≠ nil) :
    ∃ t, l = head :: t ∧ Chain next nil (next head) t := by
  cases l with
  | nil => exact absurd h hn
  | cons a t =>
    obtain rfl := h.left
    exact ⟨t, rfl, h.right.right⟩

end Chain
