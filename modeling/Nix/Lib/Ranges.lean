import Mathlib.Tactic.Ring
import Mathlib.Algebra.Order.Ring.Int

-- Ranges of a linear order.
@[ext]
structure Range (A : Type*) [LinearOrder A] where
  lo : A
  hi : A
  le : lo ≤ hi

namespace Range

variable {A : Type*} [LinearOrder A] {r s t : Range A} {x : A}

instance : Membership A (Range A) where
  mem r x := r.lo ≤ x ∧ x ≤ r.hi

instance : DecidableEq (Range A) :=
  fun _ _ => decidable_of_iff _ Range.ext_iff.symm

def Before (r s : Range A) : Prop :=
  r.hi < s.lo

-- Not all of it.
def Within (r s : Range A) : Prop :=
  s.lo ≤ r.lo ∧ r.hi ≤ s.hi ∧ r ≠ s

-- They do not overlap but where one is in the other.
def Nested (r s : Range A) : Prop :=
  r.Before s ∨ s.Before r ∨ r = s ∨ r.Within s ∨ s.Within r

-- Nothing of `s` is in `r` but where `r` is in `s`.
def Below (r s : Range A) : Prop :=
  r.Before s ∨ s.Before r ∨ r.Within s

theorem lo_mem (r : Range A) : r.lo ∈ r :=
  ⟨le_rfl, r.le⟩

theorem Before.trans (h : r.Before s) (h' : s.Before t) : r.Before t :=
  lt_trans h (lt_of_le_of_lt s.le h')

theorem Before.of_within (h : s.Before t) (hr : r.Within s) : r.Before t :=
  hr.right.left.trans_lt h

theorem Before.to_within (h : s.Before t) (hr : r.Within t) : s.Before r :=
  lt_of_lt_of_le h hr.left

theorem Before.not_mem (h : r.Before s) (hx : x ∈ r) : x ∉ s :=
  fun hs => not_le_of_gt h (hs.left.trans hx.right)

theorem Before.ne (h : r.Before s) : r ≠ s := by
  rintro rfl
  exact h.not_mem r.lo_mem r.lo_mem

theorem Within.mem (h : r.Within s) (hx : x ∈ r) : x ∈ s :=
  ⟨h.left.trans hx.left, hx.right.trans h.right.left⟩

theorem Before.not_within (h : r.Before s) : ¬r.Within s ∧ ¬s.Within r :=
  ⟨fun hw => h.not_mem r.lo_mem (hw.mem r.lo_mem), fun hw => h.not_mem (hw.mem s.lo_mem) s.lo_mem⟩

theorem Before.asymm (h : r.Before s) : ¬s.Before r :=
  fun h' => (h.trans h').ne rfl

theorem Within.trans (h : r.Within s) (h' : s.Within t) : r.Within t := by
  refine ⟨h'.left.trans h.left, h.right.left.trans h'.right.left, ?_⟩
  rintro rfl
  exact h.right.right (Range.ext (le_antisymm h'.left h.left) (le_antisymm h.right.left h'.right.left))

theorem Within.asymm (h : r.Within s) : ¬s.Within r :=
  fun h' => (h.trans h').right.right rfl

theorem Below.ne (h : r.Below s) : r ≠ s := by
  rcases h with h | h | h
  · exact h.ne
  · exact h.ne.symm
  · exact h.right.right

theorem Nested.symm (h : r.Nested s) : s.Nested r := by
  rcases h with h | h | h | h | h
  · exact .inr (.inl h)
  · exact .inl h
  · exact .inr (.inr (.inl h.symm))
  · exact .inr (.inr (.inr (.inr h)))
  · exact .inr (.inr (.inr (.inl h)))

-- Numbers that agree in all but their last bits, from the first to the last of them.
def Block (a b : Nat) : Prop :=
  ∃ n k, a = k * 2 ^ n ∧ b + 1 = (k + 1) * 2 ^ n

variable {a b c d y : Nat}

theorem block_of_le {n n' k k' : Nat} (hn : n ≤ n') (ha : a = k * 2 ^ n) (hb : b + 1 = (k + 1) * 2 ^ n)
    (hc : c = k' * 2 ^ n') (hd : d + 1 = (k' + 1) * 2 ^ n') : b < c ∨ d < a ∨ (c ≤ a ∧ b ≤ d) := by
  obtain ⟨m, rfl⟩ := Nat.exists_eq_add_of_le hn
  have hc' : c = k' * 2 ^ m * 2 ^ n := by rw [hc, pow_add, mul_assoc, mul_comm (2 ^ m)]
  have hd' : d + 1 = (k' + 1) * 2 ^ m * 2 ^ n := by rw [hd, pow_add, mul_assoc, mul_comm (2 ^ m)]
  have hstep {i j : Nat} (h : i * 2 ^ n < j * 2 ^ n) : (i + 1) * 2 ^ n ≤ j * 2 ^ n :=
    Nat.mul_le_mul_right _ (lt_of_mul_lt_mul_right h (Nat.zero_le _))
  by_cases hlow : a < c
  · rw [ha, hc'] at hlow
    have hle := hstep hlow
    omega
  · by_cases hhigh : d < a
    · exact .inr (.inl hhigh)
    · have hlt : a < d + 1 := by omega
      rw [ha, hd'] at hlt
      have hle := hstep hlt
      omega

theorem Block.nested (h : Block a b) (h' : Block c d) :
    b < c ∨ d < a ∨ (c ≤ a ∧ b ≤ d) ∨ (a ≤ c ∧ d ≤ b) := by
  obtain ⟨n, k, ha, hb⟩ := h
  obtain ⟨n', k', hc, hd⟩ := h'
  rcases Nat.le_total n n' with hn | hn
  · have := block_of_le hn ha hb hc hd
    omega
  · have := block_of_le hn hc hd ha hb
    omega

-- What some bits of a number are lies between what they are at the two ends.
theorem Block.bits (h : Block a b) (hay : a ≤ y) (hyb : y ≤ b) (p q : Nat) :
    a % 2 ^ p / 2 ^ q ≤ y % 2 ^ p / 2 ^ q ∧ y % 2 ^ p / 2 ^ q ≤ b % 2 ^ p / 2 ^ q := by
  obtain ⟨n, k, ha, hb⟩ := h
  suffices hmod : a % 2 ^ p ≤ y % 2 ^ p ∧ y % 2 ^ p ≤ b % 2 ^ p from
    ⟨Nat.div_le_div_right hmod.left, Nat.div_le_div_right hmod.right⟩
  rcases Nat.le_total n p with hn | hn
  · obtain ⟨m, rfl⟩ := Nat.exists_eq_add_of_le hn
    have hblock (z : Nat) (haz : a ≤ z) (hzb : z ≤ b) : z / 2 ^ (n + m) = a / 2 ^ (n + m) := by
      have hz : z / 2 ^ n = k := by
        refine Nat.div_eq_of_lt_le ?_ ?_ <;> omega
      have ha' : a / 2 ^ n = k := by
        refine Nat.div_eq_of_lt_le ?_ ?_ <;> omega
      rw [pow_add, ← Nat.div_div_eq_div_mul, ← Nat.div_div_eq_div_mul, hz, ha']
    have hdiv (z : Nat) := Nat.div_add_mod z (2 ^ (n + m))
    have hy := hdiv y
    have hb' := hdiv b
    have ha' := hdiv a
    rw [hblock y hay hyb] at hy
    rw [hblock b (by omega) le_rfl] at hb'
    omega
  · obtain ⟨m, rfl⟩ := Nat.exists_eq_add_of_le hn
    have ha0 : a % 2 ^ p = 0 := by
      rw [ha, pow_add, ← mul_assoc, mul_right_comm]
      exact Nat.mul_mod_left _ _
    have hb0 : (b + 1) % 2 ^ p = 0 := by
      rw [hb, pow_add, ← mul_assoc, mul_right_comm]
      exact Nat.mul_mod_left _ _
    have hpos := Nat.two_pow_pos p
    have hlt := Nat.mod_lt y hpos
    have hbmod : b % 2 ^ p = 2 ^ p - 1 := by
      obtain ⟨j, hj⟩ := Nat.dvd_of_mod_eq_zero hb0
      have hj0 : j ≠ 0 := by
        rintro rfl
        omega
      obtain ⟨j, rfl⟩ := Nat.exists_eq_succ_of_ne_zero hj0
      have hb1 : b = 2 ^ p * j + (2 ^ p - 1) := by
        rw [Nat.mul_succ] at hj
        omega
      rw [hb1, Nat.mul_add_mod, Nat.mod_eq_of_lt (by omega)]
    omega

theorem Block.of_testBit {n : Nat} (ha : ∀ j, a.testBit j = (y.testBit j && decide (n ≤ j)))
    (hb : ∀ j, b.testBit j = (y.testBit j || decide (j < n))) : Block a b := by
  have hlt : 2 ^ n - 1 < 2 ^ n := Nat.sub_lt (Nat.two_pow_pos n) Nat.one_pos
  refine ⟨n, y / 2 ^ n, Nat.eq_of_testBit_eq fun j => ?_, ?_⟩
  · rw [ha, mul_comm, Nat.testBit_two_pow_mul, Nat.testBit_div_two_pow]
    by_cases hj : n ≤ j
    · rw [Nat.sub_add_cancel hj, Bool.and_comm]
    · simp [hj]
  · have hb' : b = 2 ^ n * (y / 2 ^ n) + (2 ^ n - 1) := by
      refine Nat.eq_of_testBit_eq fun j => ?_
      rw [hb, Nat.testBit_two_pow_mul_add _ hlt, Nat.testBit_two_pow_sub_one, Nat.testBit_div_two_pow]
      by_cases hj : j < n
      · simp [hj]
      · rw [if_neg hj, Nat.sub_add_cancel (Nat.le_of_not_lt hj)]
        simp [hj]
    rw [hb', Nat.add_mul, Nat.one_mul, mul_comm]
    omega

end Range
