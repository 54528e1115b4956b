import Mathlib.Algebra.Order.Ring.Int
import Mathlib.Data.Nat.ModEq

-- The value that a 32-bit `int` has after a computation.
def int32 (n : Int) : Int :=
  n.bmod (2 ^ 32)

theorem int32_add (x y : Int) : int32 (int32 x + y) = int32 (x + y) :=
  Int.bmod_add_bmod

theorem int32_sub (x y : Int) : int32 (int32 x - y) = int32 (x - y) :=
  Int.bmod_sub_bmod

theorem int32_eq_self {n : Nat} (h : n < 2 ^ 31) : int32 n = n := by
  rw [int32, Int.bmod_eq_emod_of_lt (by omega)]
  omega

-- Words of sixteen bits that are added with end-around carry.
namespace OnesComplement

def add (a b : Nat) : Nat :=
  (a + b) / 65536 + (a + b) % 65536

-- The words that bytes make, with the most significant byte first. A zero goes with an odd byte at the end.
def words : List UInt8 → List Nat
  | []          => []
  | [a]         => [256 * a.toNat]
  | a :: b :: l => (256 * a.toNat + b.toNat) :: words l

def sum (l : List UInt8) : Nat :=
  (words l).foldl add 0

-- The word that a number comes to when all of its carries are added in.
def reduce (n : Nat) : Nat :=
  if n = 0 then 0 else (n - 1) % 65535 + 1

-- Bytes that count `v` and `w` in turn.
def weigh (v w : Nat) : List UInt8 → Nat
  | []     => 0
  | a :: l => v * a.toNat + weigh w v l

-- The bytes of a number's word are swapped, and what is above them goes along with the upper one.
def swap (n : Nat) : Nat :=
  n / 256 + n % 256 * 256

variable {a b n v w : Nat}

theorem reduce_lt (n : Nat) : reduce n < 65536 := by
  rw [reduce]
  split <;> omega

theorem reduce_of_lt (h : n < 65536) : reduce n = n := by
  rw [reduce]
  split <;> omega

theorem reduce_le (n : Nat) : reduce n ≤ n := by
  rw [reduce]
  split <;> omega

-- Only zero comes to zero, and other numbers come to the same word where they differ by a multiple of 65535.
theorem reduce_eq_iff : reduce a = reduce b ↔ a % 65535 = b % 65535 ∧ (a = 0 ↔ b = 0) := by
  rw [reduce, reduce]
  split <;> split <;> omega

theorem reduce_congr (h : a % 65535 = b % 65535) (h₀ : a = 0 ↔ b = 0) : reduce a = reduce b :=
  reduce_eq_iff.mpr ⟨h, h₀⟩

theorem reduce_add (h : reduce a = reduce b) (n : Nat) : reduce (n + a) = reduce (n + b) := by
  obtain ⟨h, h₀⟩ := reduce_eq_iff.mp h
  exact reduce_congr (by omega) (by omega)

theorem reduce_reduce (n : Nat) : reduce (reduce n) = reduce n :=
  reduce_of_lt <| reduce_lt n

theorem reduce_mul (k : Nat) (h : reduce a = reduce b) : reduce (k * a) = reduce (k * b) := by
  obtain ⟨h, h₀⟩ := reduce_eq_iff.mp h
  refine reduce_congr (Nat.ModEq.mul_left k h) ?_
  rw [Nat.mul_eq_zero, Nat.mul_eq_zero, h₀]

theorem reduce_carry (n : Nat) : reduce (n / 65536 + n % 65536) = reduce n :=
  reduce_congr (by omega) (by omega)

theorem reduce_swap (n : Nat) : reduce (swap n) = reduce (256 * n) := by
  rw [swap]
  exact reduce_congr (by omega) (by omega)

theorem add_eq (ha : a < 65536) (hb : b < 65536) : add a b = reduce (a + b) := by
  rw [add, reduce]
  split <;> omega

theorem swap_add_le (a b : Nat) : swap (a + b) ≤ swap a + swap b := by
  simp only [swap]
  omega

theorem swap_reduce_le (n : Nat) : swap (reduce n) ≤ swap n := by
  induction n using Nat.strong_induction_on
  case _ n hi =>
    by_cases hn : n < 65536
    case pos => rw [reduce_of_lt hn]
    case neg =>
      have hsub : reduce n = reduce (n - 65535) := reduce_congr (by omega) (by omega)
      have hle : swap (n - 65535) ≤ swap n := by
        simp only [swap]
        omega
      rw [hsub]
      exact (hi _ <| by omega).trans hle

theorem weigh_append (v w : Nat) (l m : List UInt8) :
    weigh v w (l ++ m) = weigh v w l + if l.length % 2 = 0 then weigh v w m else weigh w v m := by
  induction l generalizing v w
  case nil => simp [weigh]
  case cons a l hi =>
    have hlen : (a :: l).length % 2 = 0 ↔ ¬ l.length % 2 = 0 := by
      rw [List.length_cons]
      omega
    rw [List.cons_append, weigh, hi, weigh, Nat.add_assoc]
    by_cases hl : l.length % 2 = 0
    case pos => rw [if_pos hl, if_neg (mt hlen.mp <| not_not.mpr hl)]
    case neg => rw [if_neg hl, if_pos (hlen.mpr hl)]

theorem weigh_mul (k v w : Nat) (l : List UInt8) : weigh (k * v) (k * w) l = k * weigh v w l := by
  induction l generalizing v w
  case nil => rfl
  case cons a l hi => rw [weigh, weigh, hi, Nat.mul_add, Nat.mul_assoc]

-- What the bytes come to in the one order of bytes, by what they come to in the other one.
theorem reduce_weigh (l : List UInt8) : reduce (256 * weigh 256 1 l) = reduce (weigh 1 256 l) := by
  rw [← weigh_mul]
  induction l using words.induct
  case case1 => rfl
  case case2 a =>
    simp only [weigh]
    exact reduce_congr (by omega) (by omega)
  case case3 a b l hi =>
    obtain ⟨h, h₀⟩ := reduce_eq_iff.mp hi
    simp only [weigh]
    exact reduce_congr (by omega) (by omega)

theorem reduce_weigh' (l : List UInt8) : reduce (256 * weigh 1 256 l) = reduce (weigh 256 1 l) := by
  have h := reduce_mul 256 <| reduce_weigh l
  rw [← h]
  exact reduce_congr (by omega) (by omega)

theorem swap_weigh_le (l : List UInt8) : swap (weigh 256 1 l) ≤ weigh 1 256 l := by
  induction l using words.induct
  case case1 => exact Nat.le_refl _
  case case2 a =>
    simp only [weigh, swap]
    omega
  case case3 a b l hi =>
    simp only [weigh]
    have hab := swap_add_le (256 * a.toNat + b.toNat) (weigh 256 1 l)
    have hw : swap (256 * a.toNat + b.toNat) ≤ a.toNat + 256 * b.toNat := by
      simp only [swap]
      omega
    rw [Nat.one_mul, Nat.one_mul, ← Nat.add_assoc, ← Nat.add_assoc]
    omega

theorem weigh_le (h : v + w ≤ 257) (hv : v ≤ 257) (l : List UInt8) :
    weigh v w l ≤ 65535 * ((l.length + 1) / 2) := by
  induction l using words.induct
  case case1 => exact Nat.zero_le _
  case case2 a =>
    have hmul : v * a.toNat ≤ 257 * 255 := Nat.mul_le_mul hv <| Nat.le_of_lt_succ a.toNat_lt
    simp only [weigh, List.length_singleton]
    omega
  case case3 a b l hi =>
    have ha : v * a.toNat ≤ v * 255 := Nat.mul_le_mul_left _ <| Nat.le_of_lt_succ a.toNat_lt
    have hb : w * b.toNat ≤ w * 255 := Nat.mul_le_mul_left _ <| Nat.le_of_lt_succ b.toNat_lt
    simp only [weigh, List.length_cons]
    omega

theorem foldl_add (l : List UInt8) (ha : a < 65536) : (words l).foldl add a = reduce (a + weigh 256 1 l) := by
  induction l using words.induct generalizing a
  case case1 => exact (reduce_of_lt ha).symm
  case case2 b =>
    have := b.toNat_lt
    rw [words, List.foldl_cons, List.foldl_nil, add_eq ha (by omega)]
    simp only [weigh, Nat.add_zero]
  case case3 b c l hi =>
    have hb := b.toNat_lt
    have hc := c.toNat_lt
    rw [words, List.foldl_cons, add_eq ha (by omega), hi <| reduce_lt _, Nat.add_comm, reduce_add <| reduce_reduce _]
    simp only [weigh]
    congr 1
    omega

theorem sum_eq (l : List UInt8) : sum l = reduce (weigh 256 1 l) := by
  rw [sum, foldl_add l (by decide), Nat.zero_add]

end OnesComplement
