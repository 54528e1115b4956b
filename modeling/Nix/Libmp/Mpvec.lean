import Mathlib.Data.BitVec
import Nix.Lib.Digits

-- Vectors of digits.
namespace Libmp

abbrev Digit := BitVec 32

-- The digits from where a pointer points on, also those after the end of the vector.
abbrev Vec := Nat → Digit

def base : Nat := 2 ^ 32

-- Digits that are stored.
abbrev Vec.set (p : Vec) (i : Nat) (x : Digit) : Vec :=
  Function.update p i x

-- The vector that begins `n` digits later.
def Vec.drop (p : Vec) (n : Nat) : Vec :=
  fun i => p (n + i)

-- What is done to the vector that begins `n` digits later.
def Vec.paste (p : Vec) (n : Nat) (q : Vec) : Vec :=
  fun i => if i < n then p i else q (i - n)

-- What `mallocz` gives.
def zeros : Vec :=
  fun _ => 0

-- The state after `n` turns of a loop.
def turns {σ : Type} (f : Nat → σ → σ) (s : σ) : Nat → σ
  | 0     => s
  | n + 1 => f n (turns f s n)

def bit (p : Prop) [Decidable p] : Digit :=
  if p then 1 else 0

-- One digit of a sum, or of a difference, and what is carried to the next.
def mpvecadd.digit (a b : Vec) (blen i : Nat) (r : Vec × Digit) : Vec × Digit :=
  let x := a i + r.snd
  let carry := bit (x < r.snd)
  if i < blen then
    let y := b i
    (r.fst.set i (x + y), carry + bit (x + y < y))
  else
    (r.fst.set i x, carry)

-- The sum may be at `a`.
def mpvecadd (a : Vec) (alen : Nat) (b : Vec) (blen : Nat) (sum : Vec) : Vec :=
  let r := turns (mpvecadd.digit a b blen) (sum, 0) (max alen blen)
  r.fst.set (max alen blen) r.snd

def mpvecsub.digit (a b : Vec) (blen i : Nat) (r : Vec × Digit) : Vec × Digit :=
  let x := a i
  if i < blen then
    let y := b i + r.snd
    (r.fst.set i (x - y), bit (y < r.snd) + bit (x < y))
  else
    let y := x - r.snd
    (r.fst.set i y, bit (x < y))

def mpvecsub (a : Vec) (alen : Nat) (b : Vec) (blen : Nat) (diff : Vec) : Vec :=
  (turns (mpvecsub.digit a b blen) (diff, 0) (max alen blen)).fst

-- A digit that is not zero, from `lo` on.
def mpvecany (a : Vec) (lo : Nat) : Nat → Bool
  | 0     => false
  | n + 1 => if a (lo + n) ≠ 0 then true else mpvecany a lo n

def mpveccmpn (a b : Vec) : Nat → Int
  | 0     => 0
  | n + 1 =>
    let x := a n - b n
    if x = 0 then mpveccmpn a b n else if a n < x then -1 else 1

def mpveccmp (a : Vec) (alen : Nat) (b : Vec) (blen : Nat) : Int :=
  if mpvecany a blen (alen - blen) then
    1
  else if mpvecany b alen (blen - alen) then
    -1
  else
    mpveccmpn a b (min alen blen)

def LO (x : Digit) : Digit :=
  x &&& 0xffff

def HI (x : Digit) : Digit :=
  x >>> 16

-- The two digits of a product.
def mpdigmul (a b : Digit) : Digit × Digit :=
  let p1 := HI a * LO b
  let p2 := HI b * LO a
  let p3 := LO b * LO a
  let p4 := HI a * HI b
  let x := p1 <<< 16
  let p3 := p3 + x
  let carry := bit (p3 < x)
  let x := p2 <<< 16
  let p3 := p3 + x
  let carry := carry + bit (p3 < x)
  (p3, p4 + (carry + HI p1 + HI p2))

structure Part where
  p     : Vec
  carry : Digit
  part1 : Digit

def mpvecdigmuladd.digit (b : Vec) (m : Digit) (i : Nat) (r : Part) : Part :=
  let x := r.part1 + r.carry
  let carry := bit (x < r.carry)
  let y := r.p i
  let part := mpdigmul (b i) m
  let x := x + part.fst
  let carry := carry + bit (x < part.fst)
  let x := x + y
  let carry := carry + bit (x < y)
  ⟨r.p.set i x, carry, part.snd⟩

def mpvecdigmuladd (b : Vec) (n : Nat) (m : Digit) (p : Vec) : Vec :=
  let r := turns (mpvecdigmuladd.digit b m) ⟨p, 0, 0⟩ n
  r.p.set n (r.part1 + r.carry)

def mpvecdigmulsub.digit (b : Vec) (m : Digit) (i : Nat) (r : Part) : Part :=
  let x := r.p i
  let y := x - r.carry
  let borrow := bit (x < y)
  let part := mpdigmul (b i) m
  let x := r.part1 + part.fst
  let borrow := borrow + bit (x < part.fst)
  let x := y - x
  let borrow := borrow + bit (y < x)
  ⟨r.p.set i x, borrow, part.snd⟩

-- The difference, and -1 if there is a borrow.
def mpvecdigmulsub (b : Vec) (n : Nat) (m : Digit) (p : Vec) : Vec × Int :=
  let r := turns (mpvecdigmulsub.digit b m) ⟨p, 0, 0⟩ n
  let x := r.p n
  let y := x - r.carry - r.part1
  (r.p.set n y, if x < y then -1 else 1)

def val (p : Vec) (n : Nat) : Nat :=
  Digits.val base (fun i => (p i).toNat) n

section

variable {a b p q : Vec} {alen blen n m i k : Nat} {x y c d : Digit}

theorem base_pos : 0 < base := by
  decide

theorem digit_lt (p : Vec) (i : Nat) : (p i).toNat < base :=
  (p i).isLt

theorem val_lt (p : Vec) (n : Nat) : val p n < base ^ n :=
  Digits.val_lt fun i _ => digit_lt p i

@[simp]
theorem val_zero (p : Vec) : val p 0 = 0 :=
  rfl

theorem val_succ (p : Vec) (n : Nat) : val p (n + 1) = val p n + (p n).toNat * base ^ n :=
  rfl

theorem val_congr (h : ∀ i < n, p i = q i) : val p n = val q n :=
  Digits.val_congr fun i hi => congrArg BitVec.toNat (h i hi)

theorem val_add (p : Vec) (m n : Nat) : val p (m + n) = val p m + base ^ m * val (p.drop m) n :=
  Digits.val_add

-- Digits from `i` on that are as they were.
def Same (i : Nat) (p q : Vec) : Prop :=
  ∀ j, i ≤ j → p j = q j

theorem val_zeros (n : Nat) : val zeros n = 0 :=
  Digits.val_zero fun _ _ => rfl

theorem val_eq_of_lt (hmn : m ≤ n) (h : val p n < base ^ m) : val p m = val p n :=
  (Digits.val_extend hmn fun _ hmi hin => Digits.eq_zero_of_val_lt base_pos h hmi hin).symm

theorem val_same_zeros (h : Same m p zeros) (hmn : m ≤ n) : val p n = val p m :=
  Digits.val_extend hmn fun i hmi _ => congrArg BitVec.toNat (h i hmi)

theorem drop_paste (p : Vec) (n : Nat) (q : Vec) : (p.paste n q).drop n = q := by
  funext i
  rw [Vec.drop, Vec.paste, if_neg (Nat.not_lt_of_le (Nat.le_add_right n i)), Nat.add_sub_cancel_left]

theorem val_paste (p : Vec) (n : Nat) (q : Vec) (m : Nat) :
    val (p.paste n q) (n + m) = val p n + base ^ n * val q m := by
  have hlow : val (p.paste n q) n = val p n := val_congr fun i hi => if_pos hi
  rw [val_add, drop_paste, hlow]

theorem val_split (h : n ≤ m) (p : Vec) : val p n + base ^ n * val (p.drop n) (m - n) = val p m := by
  obtain ⟨k, rfl⟩ := Nat.exists_eq_add_of_le h
  rw [Nat.add_sub_cancel_left, val_add]

theorem val_set_of_le (h : n ≤ i) (x : Digit) : val (p.set i x) n = val p n :=
  val_congr fun _ hj => Function.update_of_ne (hj.trans_le h).ne ..

theorem bit_toNat (p : Prop) [Decidable p] : (bit p).toNat = if p then 1 else 0 := by
  rw [bit]
  split <;> rfl

theorem bit_le (p : Prop) [Decidable p] : (bit p).toNat ≤ 1 := by
  rw [bit_toNat]
  split <;> omega

-- Whether a sum wraps, and whether a difference does, by either of its numbers.
theorem wrap_add (x y : Digit) : (x + y).toNat + base * (bit (x + y < y)).toNat = x.toNat + y.toNat := by
  have hx := x.isLt
  have hy := y.isLt
  have hadd := BitVec.toNat_add x y
  rw [bit_toNat]
  unfold base
  split
  case isTrue h  => rw [BitVec.lt_def] at h; omega
  case isFalse h => rw [BitVec.lt_def] at h; omega

theorem wrap_sub_lt (x y : Digit) : (x - y).toNat + y.toNat = x.toNat + base * (bit (x < y)).toNat := by
  have hx := x.isLt
  have hy := y.isLt
  have hsub := BitVec.toNat_sub x y
  rw [bit_toNat]
  unfold base
  split
  case isTrue h  => rw [BitVec.lt_def] at h; omega
  case isFalse h => rw [BitVec.lt_def] at h; omega

theorem wrap_sub (x y : Digit) : (x - y).toNat + y.toNat = x.toNat + base * (bit (x < x - y)).toNat := by
  have hx := x.isLt
  have hy := y.isLt
  have hsub := BitVec.toNat_sub x y
  rw [bit_toNat]
  unfold base
  split
  case isTrue h  => rw [BitVec.lt_def] at h; omega
  case isFalse h => rw [BitVec.lt_def] at h; omega

theorem lt_sub_iff (x y : Digit) : x < x - y ↔ x < y := by
  have hsub := wrap_sub x y
  have hlt := wrap_sub_lt x y
  have hbit := Nat.eq_of_mul_eq_mul_left base_pos
    (by omega : base * (bit (x < x - y)).toNat = base * (bit (x < y)).toNat)
  rw [bit_toNat, bit_toNat] at hbit
  constructor
  case mp =>
    intro h
    by_contra hn
    rw [if_pos h, if_neg hn] at hbit
    exact absurd hbit (by decide)
  case mpr =>
    intro h
    by_contra hn
    rw [if_neg hn, if_pos h] at hbit
    exact absurd hbit (by decide)

theorem add_of_lt {x y : Digit} (h : x.toNat + y.toNat < base) : (x + y).toNat = x.toNat + y.toNat := by
  rw [BitVec.toNat_add]
  exact Nat.mod_eq_of_lt h

theorem carry_add {x y : Digit} (hx : x.toNat ≤ 2) (hy : y.toNat ≤ 1) : (x + y).toNat = x.toNat + y.toNat :=
  add_of_lt (by unfold base; omega)

theorem turns_induct {σ : Type} {f : Nat → σ → σ} {s : σ} {I : Nat → σ → Prop} (h0 : I 0 s)
    (hstep : ∀ i s, i < n → I i s → I (i + 1) (f i s)) : I n (turns f s n) := by
  induction n
  case zero      => exact h0
  case succ n ih =>
    exact hstep n _ (Nat.lt_succ_self n) (ih fun i s hi => hstep i s (Nat.lt_succ_of_lt hi))

theorem val_set_succ (p : Vec) (i : Nat) (x : Digit) : val (p.set i x) (i + 1) = val p i + x.toNat * base ^ i := by
  have hx : p.set i x i = x := Function.update_self ..
  rw [val_succ, val_set_of_le le_rfl, hx]

theorem Same.set (h : Same i p q) (x : Digit) : Same (i + 1) (p.set i x) q := by
  intro j hj
  have hne : j ≠ i := Nat.ne_of_gt hj
  exact (Function.update_of_ne hne ..).trans (h j (Nat.le_of_succ_le hj))

theorem add_digit {r s B c c' d e : Nat} (h : r + B * c = s) (hd : d + base * c' = e + c) :
    r + d * B + B * base * c' = s + e * B := by
  calc r + d * B + B * base * c' = r + B * (d + base * c') := by ring
    _ = r + B * c + e * B := by rw [hd]; ring
    _ = s + e * B := by rw [h]

theorem sub_digit {r s t B c c' d e f : Nat} (h : r + s = t + B * c) (hd : d + e + c = f + base * c') :
    r + d * B + (s + e * B) = t + f * B + B * base * c' := by
  have hB : B * (d + e + c) = B * (f + base * c') := by rw [hd]
  linarith

theorem sub_borrow {r s t B c c' d f : Nat} (h : r + s = t + B * c) (hd : d + c = f + base * c') :
    r + d * B + s = t + f * B + B * base * c' := by
  have hB : B * (d + c) = B * (f + base * c') := by rw [hd]
  linarith

-- Adding

def mpvecadd.Inv (a b sum : Vec) (blen i : Nat) (r : Vec × Digit) : Prop :=
  val r.fst i + base ^ i * r.snd.toNat = val a i + val b (min i blen) ∧ r.snd.toNat ≤ 1 ∧ Same i r.fst sum

theorem mpvecadd.Inv.digit {sum : Vec} {r : Vec × Digit} (h : Inv a b sum blen i r) :
    Inv a b sum blen (i + 1) (mpvecadd.digit a b blen i r) := by
  obtain ⟨hval, hcarry, hsame⟩ := h
  have hx := wrap_add (a i) r.snd
  have ha := digit_lt a i
  rcases Nat.lt_or_ge i blen with hi | hi
  · have hy := wrap_add (a i + r.snd) (b i)
    have hb := digit_lt b i
    have hsum := carry_add ((bit_le (a i + r.snd < r.snd)).trans (by decide)) (bit_le (a i + r.snd + b i < b i))
    have hd : (a i + r.snd + b i).toNat + base * ((bit (a i + r.snd < r.snd)).toNat +
        (bit (a i + r.snd + b i < b i)).toNat) = ((a i).toNat + (b i).toNat) + r.snd.toNat := by
      rw [Nat.mul_add]
      omega
    rw [min_eq_left hi.le] at hval
    simp only [mpvecadd.digit, if_pos hi, Inv]
    rw [min_eq_left hi, val_set_succ, val_succ a, val_succ b, hsum, pow_succ, add_digit hval hd]
    refine ⟨by ring, ?_, hsame.set _⟩
    unfold base at *
    omega
  · rw [min_eq_right hi] at hval
    simp only [mpvecadd.digit, if_neg (Nat.not_lt_of_le hi), Inv]
    rw [min_eq_right (hi.trans (Nat.le_succ i)), val_set_succ, val_succ a, pow_succ, add_digit hval hx]
    exact ⟨by ring, bit_le _, hsame.set _⟩

theorem mpvecadd_val (h : blen ≤ alen) (sum : Vec) :
    val (mpvecadd a alen b blen sum) (alen + 1) = val a alen + val b blen ∧
    Same (alen + 1) (mpvecadd a alen b blen sum) sum := by
  have h0 : mpvecadd.Inv a b sum blen 0 (sum, 0) := ⟨by simp, by simp, fun _ _ => rfl⟩
  obtain ⟨hval, -, hsame⟩ := turns_induct (n := alen) h0 fun i r _ => mpvecadd.Inv.digit
  rw [min_eq_right h] at hval
  rw [mpvecadd, max_eq_left h]
  refine ⟨?_, hsame.set _⟩
  rw [val_set_succ, ← hval, Nat.mul_comm]

-- Subtracting

def mpvecsub.Inv (a b diff : Vec) (blen i : Nat) (r : Vec × Digit) : Prop :=
  val r.fst i + val b (min i blen) = val a i + base ^ i * r.snd.toNat ∧ r.snd.toNat ≤ 1 ∧ Same i r.fst diff

theorem mpvecsub.Inv.digit {diff : Vec} {r : Vec × Digit} (h : Inv a b diff blen i r) :
    Inv a b diff blen (i + 1) (mpvecsub.digit a b blen i r) := by
  obtain ⟨hval, hcarry, hsame⟩ := h
  have ha := digit_lt a i
  rcases Nat.lt_or_ge i blen with hi | hi
  · have hy := wrap_add (b i) r.snd
    have hx := wrap_sub_lt (a i) (b i + r.snd)
    have hb := digit_lt b i
    have hsum := carry_add ((bit_le (b i + r.snd < r.snd)).trans (by decide)) (bit_le (a i < b i + r.snd))
    have hd : (a i - (b i + r.snd)).toNat + (b i).toNat + r.snd.toNat = (a i).toNat +
        base * ((bit (b i + r.snd < r.snd)).toNat + (bit (a i < b i + r.snd)).toNat) := by
      rw [Nat.mul_add]
      omega
    rw [min_eq_left hi.le] at hval
    simp only [mpvecsub.digit, if_pos hi, Inv]
    rw [min_eq_left hi, val_set_succ, val_succ a, val_succ b, hsum, pow_succ]
    refine ⟨sub_digit hval hd, ?_, hsame.set _⟩
    unfold base at *
    omega
  · have hx := wrap_sub (a i) r.snd
    rw [min_eq_right hi] at hval
    simp only [mpvecsub.digit, if_neg (Nat.not_lt_of_le hi), Inv]
    rw [min_eq_right (hi.trans (Nat.le_succ i)), val_set_succ, val_succ a, pow_succ]
    exact ⟨sub_borrow hval hx, bit_le _, hsame.set _⟩

theorem mpvecsub_val {N : Nat} (hN : max alen blen = N) (h : val b blen ≤ val a N) (diff : Vec) :
    val (mpvecsub a alen b blen diff) N + val b blen = val a N ∧ Same N (mpvecsub a alen b blen diff) diff := by
  have h0 : mpvecsub.Inv a b diff blen 0 (diff, 0) := ⟨by simp, by simp, fun _ _ => rfl⟩
  obtain ⟨hval, hborrow, hsame⟩ := turns_induct (n := N) h0 fun i r _ => mpvecsub.Inv.digit
  rw [min_eq_right (hN ▸ le_max_right alen blen)] at hval
  rw [mpvecsub, hN]
  refine ⟨?_, hsame⟩
  have hlt := val_lt (turns (mpvecsub.digit a b blen) (diff, 0) N).fst N
  rcases Nat.le_one_iff_eq_zero_or_eq_one.mp hborrow with hzero | hone
  · rw [hzero, Nat.mul_zero, Nat.add_zero] at hval
    exact hval
  · rw [hone, Nat.mul_one] at hval
    omega

-- Comparing

theorem val_lt_of_top_lt (h : (a n).toNat < (b n).toNat) : val a (n + 1) < val b (n + 1) := by
  have hlow := val_lt a n
  have htop := Nat.mul_le_mul_right (base ^ n) (Nat.succ_le_of_lt h)
  rw [Nat.succ_mul] at htop
  rw [val_succ, val_succ]
  omega

theorem mpvecany_eq_true {lo : Nat} : mpvecany a lo n = true ↔ ∃ i < n, a (lo + i) ≠ 0 := by
  induction n
  case zero      => simp [mpvecany]
  case succ n ih =>
    rw [mpvecany]
    split
    case isTrue h  => exact iff_of_true rfl ⟨n, Nat.lt_succ_self n, h⟩
    case isFalse h =>
      rw [ih]
      constructor
      case mp  => rintro ⟨i, hi, hne⟩; exact ⟨i, Nat.lt_succ_of_lt hi, hne⟩
      case mpr =>
        rintro ⟨i, hi, hne⟩
        rcases Nat.lt_succ_iff_lt_or_eq.mp hi with hi | rfl
        · exact ⟨i, hi, hne⟩
        · exact absurd hne h

theorem mpveccmpn_eq : mpveccmpn a b n = if val a n < val b n then -1 else if val b n < val a n then 1 else 0 := by
  induction n
  case zero      => rfl
  case succ n ih =>
    rw [mpveccmpn]
    split
    case isTrue h =>
      have heq : a n = b n := by rwa [sub_eq_zero] at h
      rw [ih, val_succ, val_succ, heq]
      simp only [Nat.add_lt_add_iff_right]
    case isFalse h =>
      have hne : (a n).toNat ≠ (b n).toNat := fun heq => h (by rw [BitVec.eq_of_toNat_eq heq, sub_self])
      have hiff : a n < a n - b n ↔ (a n).toNat < (b n).toNat := lt_sub_iff (a n) (b n)
      rcases Nat.lt_or_gt_of_ne hne with hab | hba
      · rw [if_pos (hiff.mpr hab), if_pos (val_lt_of_top_lt hab)]
      · have hval := val_lt_of_top_lt hba
        rw [if_neg fun h => Nat.lt_asymm hba (hiff.mp h), if_neg (Nat.lt_asymm hval), if_pos hval]

theorem val_lt_of_digit (hmn : m ≤ n) (h : ∃ i < n - m, a (m + i) ≠ 0) (b : Vec) : val b m < val a n := by
  obtain ⟨i, hi, hne⟩ := h
  by_contra hle
  have hlt : val a n < base ^ m := (Nat.le_of_not_lt hle).trans_lt (val_lt b m)
  have hzero := Digits.eq_zero_of_val_lt base_pos hlt (Nat.le_add_right m i) (by omega : m + i < n)
  exact hne (BitVec.eq_of_toNat_eq hzero)

theorem val_eq_of_zero (hmn : m ≤ n) (h : ¬∃ i < n - m, a (m + i) ≠ 0) : val a n = val a m := by
  push Not at h
  refine Digits.val_extend hmn fun i hmi hin => ?_
  have hzero := h (i - m) (by omega)
  rw [Nat.add_sub_cancel' hmi] at hzero
  rw [hzero]
  rfl

theorem mpveccmp_eq : mpveccmp a alen b blen =
    if val a alen < val b blen then -1 else if val b blen < val a alen then 1 else 0 := by
  rw [mpveccmp, mpveccmpn_eq]
  rcases Nat.le_total alen blen with hlen | hlen
  · have hnone : ¬∃ i < alen - blen, a (blen + i) ≠ 0 := by
      rintro ⟨i, hi, -⟩
      omega
    rw [if_neg (mpvecany_eq_true.not.mpr hnone), min_eq_left hlen]
    split
    case isTrue h =>
      rw [if_pos (val_lt_of_digit hlen (mpvecany_eq_true.mp h) a)]
    case isFalse h =>
      rw [val_eq_of_zero hlen (mpvecany_eq_true.not.mp h)]
  · have hnone : ¬∃ i < blen - alen, b (alen + i) ≠ 0 := by
      rintro ⟨i, hi, -⟩
      omega
    rw [if_neg (mpvecany_eq_true.not.mpr hnone), min_eq_right hlen]
    split
    case isTrue h =>
      have hlt := val_lt_of_digit hlen (mpvecany_eq_true.mp h) b
      rw [if_neg (Nat.lt_asymm hlt), if_pos hlt]
    case isFalse h =>
      rw [val_eq_of_zero hlen (mpvecany_eq_true.not.mp h)]

theorem mpveccmp_neg : mpveccmp a alen b blen < 0 ↔ val a alen < val b blen := by
  rw [mpveccmp_eq]
  split_ifs <;> simp_all

theorem mpveccmp_pos : 0 < mpveccmp a alen b blen ↔ val b blen < val a alen := by
  rw [mpveccmp_eq]
  split_ifs <;> simp_all
  omega

-- Multiplying by a digit

theorem HI_LO (x : Digit) :
    x.toNat = (HI x).toNat * 2 ^ 16 + (LO x).toNat ∧ (HI x).toNat < 2 ^ 16 ∧ (LO x).toNat < 2 ^ 16 := by
  have hx := x.isLt
  have hhi : (HI x).toNat = x.toNat / 2 ^ 16 := by
    rw [HI, BitVec.toNat_ushiftRight, Nat.shiftRight_eq_div_pow]
  have hlo : (LO x).toNat = x.toNat % 2 ^ 16 := by
    rw [LO, BitVec.toNat_and]
    exact Nat.and_two_pow_sub_one_eq_mod x.toNat 16
  omega

theorem half_mul {x y : Digit} (hx : x.toNat < 2 ^ 16) (hy : y.toNat < 2 ^ 16) : (x * y).toNat = x.toNat * y.toNat := by
  have hmul : x.toNat * y.toNat ≤ (2 ^ 16 - 1) * (2 ^ 16 - 1) := Nat.mul_le_mul (by omega) (by omega)
  rw [BitVec.toNat_mul, Nat.mod_eq_of_lt (by omega)]

theorem shift_half (x : Digit) : (x <<< 16).toNat = (LO x).toNat * 2 ^ 16 := by
  have hx := HI_LO x
  rw [BitVec.toNat_shiftLeft, Nat.shiftLeft_eq]
  omega

theorem mpdigmul_val (a b : Digit) :
    (mpdigmul a b).fst.toNat + base * (mpdigmul a b).snd.toNat = a.toNat * b.toNat := by
  obtain ⟨ha, hah, hal⟩ := HI_LO a
  obtain ⟨hb, hbh, hbl⟩ := HI_LO b
  have h1 := half_mul hah hbl
  have h2 := half_mul hbh hal
  have h3 := half_mul hbl hal
  have h4 := half_mul hah hbh
  obtain ⟨hp1, hp1h, -⟩ := HI_LO (HI a * LO b)
  obtain ⟨hp2, hp2h, -⟩ := HI_LO (HI b * LO a)
  have hs1 := shift_half (HI a * LO b)
  have hs2 := shift_half (HI b * LO a)
  have hlow1 := wrap_add (LO b * LO a) ((HI a * LO b) <<< 16)
  have hlow2 := wrap_add (LO b * LO a + (HI a * LO b) <<< 16) ((HI b * LO a) <<< 16)
  have hprod : a.toNat * b.toNat = (HI a * HI b).toNat * 2 ^ 32 +
      ((HI a * LO b).toNat + (HI b * LO a).toNat) * 2 ^ 16 + (LO b * LO a).toNat := by
    rw [ha, hb, h1, h2, h3, h4]
    ring
  have hlt : a.toNat * b.toNat ≤ (2 ^ 32 - 1) * (2 ^ 32 - 1) :=
    Nat.mul_le_mul (Nat.le_pred_of_lt a.isLt) (Nat.le_pred_of_lt b.isLt)
  simp only [mpdigmul]
  generalize HI a * LO b = p1, HI b * LO a = p2, LO b * LO a = p3, HI a * HI b = p4 at *
  have hbit1 := bit_le (p3 + p1 <<< 16 < p1 <<< 16)
  have hbit2 := bit_le (p3 + p1 <<< 16 + p2 <<< 16 < p2 <<< 16)
  generalize bit (p3 + p1 <<< 16 < p1 <<< 16) = c1, bit (p3 + p1 <<< 16 + p2 <<< 16 < p2 <<< 16) = c2 at *
  unfold base at *
  have htop : (p4 + (c1 + c2 + HI p1 + HI p2)).toNat =
      p4.toNat + (c1.toNat + c2.toNat + (HI p1).toNat + (HI p2).toNat) := by
    simp only [BitVec.toNat_add]
    omega
  omega

theorem carry_lt {r s B c : Nat} (h : r + B * c = s) (hs : s < B * base) : c < base := by
  by_contra hle
  have hmul := Nat.mul_le_mul_left B (Nat.le_of_not_lt hle)
  omega

theorem val_mul_add_lt (b p : Vec) (m : Digit) (n : Nat) : val b n * m.toNat + val p n < base ^ n * base := by
  have hb := val_lt b n
  have hp := val_lt p n
  have hm : m.toNat ≤ base - 1 := Nat.le_pred_of_lt m.isLt
  have hmul := Nat.mul_le_mul hb.le hm
  rw [Nat.mul_sub, Nat.mul_one] at hmul
  have hle : base ^ n * 1 ≤ base ^ n * base := Nat.mul_le_mul_left _ base_pos
  omega

def mpvecdigmuladd.Inv (b : Vec) (m : Digit) (p : Vec) (i : Nat) (r : Part) : Prop :=
  val r.p i + base ^ i * (r.part1.toNat + r.carry.toNat) = val b i * m.toNat + val p i ∧ r.carry.toNat ≤ 2 ∧
    Same i r.p p

theorem mpvecdigmuladd.Inv.carry_lt {m : Digit} {r : Part} (h : Inv b m p i r) : r.part1.toNat + r.carry.toNat < base :=
  Libmp.carry_lt h.left (val_mul_add_lt b p m i)

theorem mpvecdigmuladd.Inv.digit {m : Digit} {r : Part} (h : Inv b m p i r) :
    Inv b m p (i + 1) (mpvecdigmuladd.digit b m i r) := by
  have hfit := h.carry_lt
  obtain ⟨hval, hcarry, hsame⟩ := h
  have hx := wrap_add r.part1 r.carry
  have hmul := mpdigmul_val (b i) m
  have hlow := wrap_add (r.part1 + r.carry) (mpdigmul (b i) m).fst
  have hy := wrap_add (r.part1 + r.carry + (mpdigmul (b i) m).fst) (r.p i)
  simp only [mpvecdigmuladd.digit, Inv, val_set_succ, val_succ b, val_succ p, pow_succ]
  rw [hsame i le_rfl] at hy ⊢
  have hbit := bit_le (r.part1 + r.carry < r.carry)
  have hbit1 := bit_le (r.part1 + r.carry + (mpdigmul (b i) m).fst < (mpdigmul (b i) m).fst)
  have hbit2 := bit_le (r.part1 + r.carry + (mpdigmul (b i) m).fst + p i < p i)
  generalize bit (r.part1 + r.carry < r.carry) = c, (r.part1 + r.carry + (mpdigmul (b i) m).fst + p i) = x,
    bit (r.part1 + r.carry + (mpdigmul (b i) m).fst < (mpdigmul (b i) m).fst) = c1,
    bit (r.part1 + r.carry + (mpdigmul (b i) m).fst + p i < p i) = c2 at *
  have hc : c.toNat = 0 := by
    rcases Nat.le_one_iff_eq_zero_or_eq_one.mp hbit with hzero | hone
    · exact hzero
    · rw [hone, Nat.mul_one] at hx
      omega
  rw [hc, Nat.mul_zero] at hx
  have hsum1 : (c + c1).toNat = c1.toNat := by rw [carry_add (hbit.trans (by decide)) hbit1, hc, Nat.zero_add]
  have hsum : (c + c1 + c2).toNat = c1.toNat + c2.toNat := by rw [carry_add (by omega) hbit2, hsum1]
  have hd : x.toNat + base * ((mpdigmul (b i) m).snd.toNat + (c + c1 + c2).toNat) =
      ((b i).toNat * m.toNat + (p i).toNat) + (r.part1.toNat + r.carry.toNat) := by
    rw [hsum, Nat.mul_add, Nat.mul_add]
    omega
  refine ⟨?_, by omega, hsame.set _⟩
  rw [add_digit hval hd]
  ring

theorem mpvecdigmuladd_val (b : Vec) (n : Nat) (m : Digit) (p : Vec) :
    val (mpvecdigmuladd b n m p) (n + 1) = val b n * m.toNat + val p n ∧ Same (n + 1) (mpvecdigmuladd b n m p) p := by
  have h0 : mpvecdigmuladd.Inv b m p 0 ⟨p, 0, 0⟩ := ⟨by simp, by simp, fun _ _ => rfl⟩
  have hinv := turns_induct (n := n) h0 fun i r _ => mpvecdigmuladd.Inv.digit
  have hfit := hinv.carry_lt
  obtain ⟨hval, -, hsame⟩ := hinv
  rw [mpvecdigmuladd]
  refine ⟨?_, hsame.set _⟩
  rw [val_set_succ, add_of_lt hfit, ← hval, Nat.mul_comm]

def mpvecdigmulsub.Inv (b : Vec) (m : Digit) (p : Vec) (i : Nat) (r : Part) : Prop :=
  val r.p i + val b i * m.toNat = val p i + base ^ i * (r.part1.toNat + r.carry.toNat) ∧ r.carry.toNat ≤ 3 ∧
    Same i r.p p

theorem mpvecdigmulsub.Inv.carry_lt {m : Digit} {r : Part} (h : Inv b m p i r) :
    r.part1.toNat + r.carry.toNat < base := by
  have hlt := val_mul_add_lt b r.p m i
  refine Libmp.carry_lt (r := val p i) (s := val p i + base ^ i * (r.part1.toNat + r.carry.toNat)) rfl ?_
  rw [← h.left]
  omega

theorem mpvecdigmulsub.Inv.digit {m : Digit} {r : Part} (h : Inv b m p i r) :
    Inv b m p (i + 1) (mpvecdigmulsub.digit b m i r) := by
  obtain ⟨hval, hcarry, hsame⟩ := h
  have hmul := mpdigmul_val (b i) m
  have hx := wrap_sub (r.p i) r.carry
  have hlow := wrap_add r.part1 (mpdigmul (b i) m).fst
  have hy := wrap_sub (r.p i - r.carry) (r.part1 + (mpdigmul (b i) m).fst)
  simp only [mpvecdigmulsub.digit, Inv, val_set_succ, val_succ b, val_succ p, pow_succ]
  rw [hsame i le_rfl] at hx hy ⊢
  have hbit := bit_le (p i < p i - r.carry)
  have hbit1 := bit_le (r.part1 + (mpdigmul (b i) m).fst < (mpdigmul (b i) m).fst)
  have hbit2 := bit_le (p i - r.carry < p i - r.carry - (r.part1 + (mpdigmul (b i) m).fst))
  generalize bit (p i < p i - r.carry) = c, p i - r.carry - (r.part1 + (mpdigmul (b i) m).fst) = x,
    bit (r.part1 + (mpdigmul (b i) m).fst < (mpdigmul (b i) m).fst) = c1,
    bit (p i - r.carry < p i - r.carry - (r.part1 + (mpdigmul (b i) m).fst)) = c2 at *
  have hsum1 := carry_add (hbit.trans (by decide)) hbit1
  have hsum : (c + c1 + c2).toNat = c.toNat + c1.toNat + c2.toNat := by rw [carry_add (by omega) hbit2, hsum1]
  have hd : x.toNat + (b i).toNat * m.toNat + (r.part1.toNat + r.carry.toNat) =
      (p i).toNat + base * ((mpdigmul (b i) m).snd.toNat + (c + c1 + c2).toNat) := by
    rw [hsum, Nat.mul_add, Nat.mul_add, Nat.mul_add]
    omega
  refine ⟨?_, by omega, hsame.set _⟩
  rw [← sub_digit hval hd]
  ring

theorem mpvecdigmulsub_val (b : Vec) (n : Nat) (m : Digit) (p : Vec) :
    ((mpvecdigmulsub b n m p).snd = -1 ↔ val p (n + 1) < val b n * m.toNat) ∧
    ((mpvecdigmulsub b n m p).snd = 1 ↔ val b n * m.toNat ≤ val p (n + 1)) ∧
    val (mpvecdigmulsub b n m p).fst (n + 1) + val b n * m.toNat =
      val p (n + 1) + (if val p (n + 1) < val b n * m.toNat then base ^ (n + 1) else 0) ∧
    Same (n + 1) (mpvecdigmulsub b n m p).fst p := by
  have h0 : mpvecdigmulsub.Inv b m p 0 ⟨p, 0, 0⟩ := ⟨by simp, by simp, fun _ _ => rfl⟩
  have hinv := turns_induct (n := n) h0 fun i r _ => mpvecdigmulsub.Inv.digit
  have hfit := hinv.carry_lt
  obtain ⟨hval, -, hsame⟩ := hinv
  simp only [mpvecdigmulsub]
  generalize turns (mpvecdigmulsub.digit b m) ⟨p, 0, 0⟩ n = r at *
  rw [hsame n le_rfl]
  have hlow := val_lt r.p n
  have hsum : (r.carry + r.part1).toNat = r.part1.toNat + r.carry.toNat := by
    rw [add_of_lt (by omega), Nat.add_comm]
  have hsub := wrap_sub (p n) (r.carry + r.part1)
  rw [sub_sub, val_set_succ, val_succ p]
  generalize p n - (r.carry + r.part1) = y at *
  have hnew := val_lt (r.p.set n y) (n + 1)
  rw [hsum] at hsub
  have hd := sub_borrow hval hsub
  rw [val_set_succ, pow_succ] at hnew
  rw [bit_toNat] at hd
  rw [pow_succ]
  by_cases hborrow : p n < y
  · rw [if_pos hborrow] at hd ⊢
    have hlt : val p n + (p n).toNat * base ^ n < val b n * m.toNat := by omega
    rw [if_pos hlt]
    exact ⟨iff_of_true rfl hlt, iff_of_false (by decide) (Nat.not_le_of_lt hlt), by omega, hsame.set _⟩
  · rw [if_neg hborrow] at hd ⊢
    have hle : val b n * m.toNat ≤ val p n + (p n).toNat * base ^ n := by omega
    rw [if_neg (Nat.not_lt_of_le hle)]
    exact ⟨iff_of_false (by decide) (Nat.not_lt_of_le hle), iff_of_true rfl hle, by omega, hsame.set _⟩

end

end Libmp
