import Mathlib.Data.List.Basic
import Mathlib.Algebra.Order.Ring.Int

section

-- Files as arrays of values that can be written at any place and cut or extended to any length.
variable {α : Type*}

-- `d` with `l` in place of what it had from `off` on.
def overwrite (d : Nat → α) (off : Nat) (l : List α) : Nat → α :=
  fun k => if off ≤ k then l[k - off]?.getD (d k) else d k

theorem overwrite_nil (d : Nat → α) (off : Nat) : overwrite d off [] = d := by
  funext k
  simp [overwrite]

theorem overwrite_of_lt {d : Nat → α} {l : List α} (h : k < off) : overwrite d off l k = d k :=
  if_neg (Nat.not_le.mpr h)

theorem overwrite_of_le {d : Nat → α} {l : List α} (h : off + l.length ≤ k) : overwrite d off l k = d k := by
  have hnone : l[k - off]? = none := List.getElem?_eq_none (by omega)
  rw [overwrite, if_pos (by omega), hnone]
  rfl

theorem overwrite_of_mem {d : Nat → α} {l : List α} (h : off ≤ k) (hk : k < off + l.length) :
    some (overwrite d off l k) = l[k - off]? := by
  have hlt : k - off < l.length := by omega
  simp [overwrite, h, hlt]

theorem map_overwrite (d : Nat → α) (off : Nat) (l : List α) :
    (List.range' off l.length).map (overwrite d off l) = l := by
  refine List.ext_getElem (by simp) fun k hk hk' => ?_
  have := overwrite_of_mem (d := d) (k := off + k) (Nat.le_add_right off k) (Nat.add_lt_add_left hk' off)
  rw [Nat.add_sub_cancel_left, List.getElem?_eq_getElem hk'] at this
  simpa using this

theorem overwrite_congr {d d' : Nat → α} {l : List α} (h : k < off ∨ off + l.length ≤ k → d k = d' k) :
    overwrite d off l k = overwrite d' off l k := by
  by_cases hin : off ≤ k ∧ k < off + l.length
  case pos =>
    have he := (overwrite_of_mem (d := d) hin.left hin.right).trans
      (overwrite_of_mem (d := d') hin.left hin.right).symm
    exact Option.some.inj he
  case neg =>
    have hk : k < off ∨ off + l.length ≤ k := by omega
    rcases hk with hlt | hle
    · rw [overwrite_of_lt hlt, overwrite_of_lt hlt, h (.inl hlt)]
    · rw [overwrite_of_le hle, overwrite_of_le hle, h (.inr hle)]

theorem overwrite_append (d : Nat → α) (off : Nat) (l m : List α) :
    overwrite (overwrite d off l) (off + l.length) m = overwrite d off (l ++ m) := by
  funext k
  by_cases hk : off + l.length ≤ k
  case pos =>
    have hsub : k - off = l.length + (k - (off + l.length)) := by omega
    have hget : (l ++ m)[k - off]? = m[k - (off + l.length)]? := by
      rw [List.getElem?_append_right (by omega)]
      congr 1
      omega
    rw [overwrite, if_pos hk, overwrite_of_le hk, overwrite, if_pos (by omega), hget]
  case neg =>
    have hk := Nat.not_le.mp hk
    rw [overwrite_of_lt hk]
    by_cases hoff : off ≤ k
    case pos => rw [overwrite, overwrite, if_pos hoff, if_pos hoff, List.getElem?_append_left (by omega)]
    case neg =>
      have hoff := Nat.not_le.mp hoff
      rw [overwrite_of_lt hoff, overwrite_of_lt hoff]

structure Contents (α : Type*) where
  length : Nat
  -- the value at each place, and 0 past the end
  val    : Nat → α

namespace Contents

variable [Zero α]

def empty : Contents α where
  length := 0
  val _  := 0

def read (a : Contents α) (count off : Nat) : List α :=
  (List.range (min count (a.length - off))).map fun k => a.val (off + k)

-- What lies between the end and `off` stays 0.
def write (a : Contents α) (l : List α) (off : Nat) : Contents α where
  length := if l = [] then a.length else max a.length (off + l.length)
  val    := overwrite a.val off l

def resize (a : Contents α) (n : Nat) : Contents α where
  length := n
  val k  := if k < n then a.val k else 0

-- There is nothing past the end.
def Ends (a : Contents α) : Prop :=
  ∀ k ≥ a.length, a.val k = 0

theorem Ends.empty : (empty : Contents α).Ends :=
  fun _ _ => rfl

theorem Ends.write {a : Contents α} (h : a.Ends) (l : List α) (off : Nat) : (a.write l off).Ends := by
  intro k hk
  simp only [Contents.write] at hk ⊢
  split at hk
  case isTrue he =>
    rw [he, overwrite_nil]
    exact h k hk
  case isFalse =>
    rw [overwrite_of_le (by omega)]
    exact h k (by omega)

theorem Ends.resize {a : Contents α} (n : Nat) : (a.resize n).Ends :=
  fun _ hk => if_neg (Nat.not_lt.mpr hk)

end Contents

end

-- Values found by paths of `n` steps through tables. Where there is nothing, there is `nil`.
inductive Sparse (α : Type*) : Nat → Type _
  | nil  : Sparse α n
  | leaf : α → Sparse α 0
  | node : (Nat → Sparse α n) → Sparse α (n + 1)

namespace Sparse

variable {α : Type*}

def isNil : Sparse α n → Bool
  | nil => true
  | _   => false

def get : Sparse α n → List Nat → Option α
  | leaf a, []     => some a
  | node c, i :: p => (c i).get p
  | _,      _      => none

-- `f` applied to the value at the end of the path, or to `a` if there is none. The tables that are
-- missing are made.
def modify (a : α) (f : α → α) : (n : Nat) → Sparse α n → List Nat → Sparse α n
  | 0,     leaf b, _      => leaf (f b)
  | 0,     nil,    _      => leaf (f a)
  | _ + 1, s,      []     => s
  | n + 1, nil,    i :: p => node (Function.update (fun _ => nil) i (modify a f n nil p))
  | n + 1, node c, i :: p => node (Function.update c i (modify a f n (c i) p))

variable {a : α} {f : α → α} {p q : List Nat}

@[simp]
theorem get_nil : (nil : Sparse α n).get p = none := by
  cases p <;> rfl

theorem get_modify_self (s : Sparse α n) (hp : p.length = n) :
    (s.modify a f n p).get p = some (f ((s.get p).getD a)) := by
  induction n generalizing p
  case zero =>
    obtain rfl := List.length_eq_zero_iff.mp hp
    cases s <;> rfl
  case succ n ih =>
    obtain ⟨i, p, rfl⟩ := List.exists_cons_of_length_eq_add_one hp
    have hp := Nat.succ.inj hp
    cases s <;> simp [modify, get, ih _ hp]

theorem get_modify_of_ne (s : Sparse α n) (hp : p.length = n) (hq : q.length = n) (hne : q ≠ p) :
    (s.modify a f n p).get q = s.get q := by
  induction n generalizing p q
  case zero => exact absurd ((List.length_eq_zero_iff.mp hq).trans (List.length_eq_zero_iff.mp hp).symm) hne
  case succ n ih =>
    obtain ⟨i, p, rfl⟩ := List.exists_cons_of_length_eq_add_one hp
    obtain ⟨j, q, rfl⟩ := List.exists_cons_of_length_eq_add_one hq
    have hp' : p.length = n := Nat.succ.inj hp
    have hq' : q.length = n := Nat.succ.inj hq
    by_cases hij : j = i
    case neg => cases s <;> simp [modify, get, hij]
    case pos =>
      subst hij
      have hne' : q ≠ p := fun he => hne (he ▸ rfl)
      cases s <;> simp [modify, get, ih _ hp' hq' hne']

end Sparse
