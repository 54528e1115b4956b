import Mathlib.Tactic.Linarith
import Mathlib.Tactic.Ring

-- Numbers by their digits, in some base, the least significant first.
namespace Digits

variable {b m n i : Nat} {d e : Nat → Nat} {x : Nat}

-- The number that the first `n` digits are.
def val (b : Nat) (d : Nat → Nat) : Nat → Nat
  | 0     => 0
  | n + 1 => val b d n + d n * b ^ n

theorem val_congr (h : ∀ i < n, d i = e i) : val b d n = val b e n := by
  induction n
  case zero      => rfl
  case succ n ih => rw [val, val, ih fun i hi => h i (Nat.lt_succ_of_lt hi), h n (Nat.lt_succ_self n)]

theorem val_lt (h : ∀ i < n, d i < b) : val b d n < b ^ n := by
  induction n
  case zero      => exact Nat.one_pos
  case succ n ih =>
    have hlow := ih fun i hi => h i (Nat.lt_succ_of_lt hi)
    have htop := Nat.mul_le_mul_right (b ^ n) (h n (Nat.lt_succ_self n))
    rw [val, pow_succ]
    rw [Nat.succ_mul] at htop
    linarith

theorem val_add : val b d (m + n) = val b d m + b ^ m * val b (fun i => d (m + i)) n := by
  induction n
  case zero      => rfl
  case succ n ih =>
    rw [← Nat.add_assoc, val, val, ih, pow_add]
    ring

theorem val_zero (h : ∀ i < n, d i = 0) : val b d n = 0 := by
  induction n
  case zero      => rfl
  case succ n ih => rw [val, ih fun i hi => h i (Nat.lt_succ_of_lt hi), h n (Nat.lt_succ_self n), Nat.zero_mul]

theorem val_extend (hmn : m ≤ n) (h : ∀ i, m ≤ i → i < n → d i = 0) : val b d n = val b d m := by
  obtain ⟨k, rfl⟩ := Nat.exists_eq_add_of_le hmn
  rw [val_add, val_zero fun i hi => h (m + i) (Nat.le_add_right m i) (Nat.add_lt_add_left hi m), Nat.mul_zero,
    Nat.add_zero]

theorem val_mono (hmn : m ≤ n) : val b d m ≤ val b d n := by
  obtain ⟨k, rfl⟩ := Nat.exists_eq_add_of_le hmn
  rw [val_add]
  exact Nat.le_add_right _ _

theorem eq_zero_of_val_lt (hb : 0 < b) (h : val b d n < b ^ m) (him : m ≤ i) (hin : i < n) : d i = 0 := by
  by_contra hne
  have hle : val b d (i + 1) ≤ val b d n := val_mono hin
  have hpow : b ^ m ≤ b ^ i := Nat.pow_le_pow_right hb him
  have hmul : 1 * b ^ i ≤ d i * b ^ i := Nat.mul_le_mul_right _ (Nat.pos_of_ne_zero hne)
  rw [val] at hle
  omega

-- The digits of a number.
def digit (b x i : Nat) : Nat :=
  x / b ^ i % b

theorem digit_val (h : ∀ i < n, d i < b) (hi : i < n) : digit b (val b d n) i = d i := by
  obtain ⟨k, rfl⟩ := Nat.exists_eq_add_of_le hi
  have hb : 0 < b := (Nat.zero_le _).trans_lt (h i hi)
  have hlow := val_lt fun j hj => h j (by omega : j < i + 1 + k)
  rw [digit, val_add, val, pow_succ]
  have hsum : val b d i + d i * b ^ i + b ^ i * b * val b (fun j => d (i + 1 + j)) k =
      val b d i + b ^ i * (d i + b * val b (fun j => d (i + 1 + j)) k) := by ring
  rw [hsum, Nat.add_mul_div_left _ _ (Nat.pow_pos hb), Nat.div_eq_of_lt (val_lt fun j hj => h j (by omega)),
    Nat.zero_add,
    Nat.add_mul_mod_self_left, Nat.mod_eq_of_lt (h i hi)]

theorem val_div (h : ∀ i < m, d i < b) : val b d (m + n) / b ^ m = val b (fun i => d (m + i)) n := by
  have hlt := val_lt h
  rw [val_add, Nat.add_mul_div_left _ _ ((Nat.zero_le _).trans_lt hlt), Nat.div_eq_of_lt hlt, Nat.zero_add]

-- The number that digits are, the most significant first.
def num (b : Nat) (ds : List Nat) : Nat :=
  ds.foldl (fun n d => n * b + d) 0

theorem num_foldl (b : Nat) (ds : List Nat) (n : Nat) :
    ds.foldl (fun n d => n * b + d) n = n * b ^ ds.length + num b ds := by
  induction ds generalizing n
  case nil          => simp [num]
  case cons d ds ih =>
    have hcons : num b (d :: ds) = (0 * b + d) * b ^ ds.length + num b ds := ih _
    rw [List.foldl_cons, ih, hcons, List.length_cons, pow_succ]
    ring

theorem num_cons (b d : Nat) (ds : List Nat) : num b (d :: ds) = d * b ^ ds.length + num b ds := by
  rw [num, List.foldl_cons, num_foldl, Nat.zero_mul, Nat.zero_add]

theorem num_append (b : Nat) (ds es : List Nat) : num b (ds ++ es) = num b ds * b ^ es.length + num b es := by
  rw [num, List.foldl_append, num_foldl, ← num]

theorem num_lt {ds : List Nat} (h : ∀ d ∈ ds, d < b) : num b ds < b ^ ds.length := by
  induction ds
  case nil          => exact Nat.one_pos
  case cons d ds ih =>
    have hlow := ih fun e he => h e (List.mem_cons_of_mem d he)
    have hd := Nat.mul_le_mul_right (b ^ ds.length) (h d List.mem_cons_self)
    rw [num_cons, List.length_cons, pow_succ, Nat.mul_comm (b ^ ds.length)]
    rw [Nat.succ_mul] at hd
    omega

theorem num_dropWhile (b : Nat) (ds : List Nat) : num b (ds.dropWhile (· = 0)) = num b ds := by
  induction ds
  case nil          => rfl
  case cons d ds ih =>
    rw [List.dropWhile_cons]
    split
    case isTrue h  => rw [ih, num_cons, of_decide_eq_true h, Nat.zero_mul, Nat.zero_add]
    case isFalse h => rfl

theorem num_flatMap {α : Type} {k : Nat} {f : α → List Nat} {g : α → Nat}
    (h : ∀ x, num b (f x) = g x ∧ (f x).length = k) (l : List α) :
    num b (l.flatMap f) = num (b ^ k) (l.map g) ∧ (l.flatMap f).length = k * l.length := by
  induction l
  case nil         => exact ⟨rfl, rfl⟩
  case cons x l ih =>
    obtain ⟨hnum, hlen⟩ := ih
    constructor
    case left  =>
      rw [List.flatMap_cons, num_append, hnum, (h x).left, List.map_cons, num_cons, List.length_map, hlen, pow_mul]
    case right =>
      rw [List.flatMap_cons, List.length_append, hlen, (h x).right, List.length_cons, Nat.mul_succ, Nat.add_comm]

section

-- Division by trial, where `u` is to be divided by `v`, and all that is looked at is what is above the `p`s.
variable {u v p u' v' q : Nat}

theorem le_trial (hu : u / p = u') (hv : v / p = v') : u / v * v' ≤ u' := by
  subst hu hv
  rcases Nat.eq_zero_or_pos p with rfl | hp
  · simp
  · rw [Nat.le_div_iff_mul_le hp]
    calc u / v * (v / p) * p = u / v * (v / p * p) := Nat.mul_assoc ..
      _ ≤ u / v * v := Nat.mul_le_mul_left _ (Nat.div_mul_le_self v p)
      _ ≤ u := Nat.div_mul_le_self u v

-- A trial that is not too high for the part that is looked at is no more than `c` too high.
theorem trial_le {c : Nat} (hp : 0 < p) (hu : u / p = u') (hv : v / p = v') (hq : q * v' ≤ u') (hqb : q < b)
    (hc : b * p ≤ c * v) : q ≤ u / v + c := by
  subst hu hv
  rcases Nat.eq_zero_or_pos q with rfl | hqpos
  · exact Nat.zero_le _
  have hbp : 0 < b * p := Nat.mul_pos ((Nat.zero_le q).trans_lt hqb) hp
  have hv : 0 < v := Nat.pos_of_ne_zero fun h => by
    rw [h, Nat.mul_zero] at hc
    omega
  have hvlt : v < (v / p + 1) * p := by
    rw [Nat.mul_comm]
    exact Nat.lt_mul_div_succ v hp
  have hult : u < (u / v + 1) * v := by
    rw [Nat.mul_comm]
    exact Nat.lt_mul_div_succ u hv
  have hlt : q * v < (u / v + 1 + c) * v := by
    calc q * v < q * ((v / p + 1) * p) := Nat.mul_lt_mul_of_pos_left hvlt hqpos
      _ = q * (v / p) * p + q * p := by ring
      _ ≤ u / p * p + b * p := Nat.add_le_add (Nat.mul_le_mul_right p hq) (Nat.mul_le_mul_right p hqb.le)
      _ ≤ u + c * v := Nat.add_le_add (Nat.div_mul_le_self u p) hc
      _ ≤ (u / v + 1) * v + c * v := Nat.add_le_add_right hult.le _
      _ = (u / v + 1 + c) * v := by ring
  have := Nat.lt_of_mul_lt_mul_right hlt
  omega

end

end Digits
