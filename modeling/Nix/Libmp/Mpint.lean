import Nix.Libmp.Mpvec

-- Numbers with a sign.
namespace Libmp

structure Mpint where
  sign : Int
  top  : Nat
  p    : Vec

def DIGITS (x : Nat) : Nat :=
  (32 - 1 + x) / 32

def mpzero : Mpint :=
  ⟨1, 0, zeros⟩

def mpnew : Mpint :=
  ⟨1, 0, zeros⟩

-- At least `m` bits.
def mpbits (b : Mpint) (m : Nat) : Mpint :=
  let n := DIGITS m
  if n ≤ b.top then b else { b with top := n, p := fun i => if b.top ≤ i ∧ i < n then 0 else b.p i }

-- The digits that are left when the zeros at the top are not counted.
def normtop (p : Vec) : Nat → Nat
  | 0     => 0
  | i + 1 => if p i ≠ 0 then i + 1 else normtop p i

def mpnorm (b : Mpint) : Mpint :=
  let top := normtop b.p b.top
  { b with top, sign := if top = 0 then 1 else b.sign }

def mpassign (old new : Mpint) : Mpint :=
  let new := mpbits new (32 * old.top)
  { sign := old.sign, top := old.top, p := fun i => if i < old.top then old.p i else new.p i }

def uitomp (i : Nat) : Mpint :=
  { mpzero with top := if i ≠ 0 then 1 else 0, p := zeros.set 0 (BitVec.ofNat 32 i) }

def mpmagcmp (b1 b2 : Mpint) : Int :=
  let i : Int := b1.top - b2.top
  if i ≠ 0 then i else mpveccmp b1.p b1.top b2.p b2.top

-- The bits of two digits, the higher first, from bit `r` of the lower on.
def shiftdigit (hi lo : Digit) (r : Nat) : Digit :=
  hi <<< (32 - r) ||| lo >>> r

-- The digits of a vector, with zeros above.
def Vec.upto (p : Vec) (n : Nat) : Vec :=
  fun i => if i < n then p i else 0

-- The digits `d` digits and `l` bits higher, and what was there above.
def shiftleft.digits (b : Mpint) (d l : Nat) (rest : Vec) : Vec :=
  fun i =>
    if i < d then
      0
    else if l = 0 then
      if i < d + b.top then b.p (i - d) else rest i
    else if i = d then
      b.p 0 <<< l
    else if i ≤ d + b.top then
      shiftdigit (b.p.upto b.top (i - d)) (b.p (i - d - 1)) (32 - l)
    else
      rest i

-- Where `shift` is not negative.
def shiftleft (b : Mpint) (shift : Nat) (res : Mpint) : Mpint :=
  let res := mpbits res (b.top * 32 + shift)
  let d := shift / 32
  let p := shiftleft.digits b d (shift - d * 32) res.p
  { sign := b.sign, top := normtop p (DIGITS (b.top * 32 + shift)), p }

-- The digits `d` digits and `r` bits lower.
def shiftright.digits (b : Mpint) (d r : Nat) (rest : Vec) : Vec :=
  fun i =>
    if i < b.top - d then
      if r = 0 then b.p (i + d) else shiftdigit (b.p.upto b.top (i + d + 1)) (b.p (i + d)) r
    else
      rest i

def shiftright (b : Mpint) (shift : Nat) (res : Mpint) : Mpint :=
  let res := mpbits res (b.top * 32 - shift)
  let d := shift / 32
  if b.top ≤ d then
    { res with sign := b.sign, top := 0 }
  else
    let p := shiftright.digits b d (shift - d * 32) res.p
    let top := normtop p (b.top - d)
    { sign := if top = 0 then 1 else b.sign, top, p }

-- A shift that is negative is one to the other side.
def mpleft (b : Mpint) (shift : Int) (res : Mpint) : Mpint :=
  if b.top = 0 then
    { res with sign := b.sign, top := 0 }
  else if shift < 0 then
    shiftright b shift.natAbs res
  else
    shiftleft b shift.natAbs res

def mpright (b : Mpint) (shift : Int) (res : Mpint) : Mpint :=
  if b.top = 0 then
    { res with sign := b.sign, top := 0 }
  else if shift < 0 then
    shiftleft b shift.natAbs res
  else
    shiftright b shift.natAbs res

namespace Mpint

def mag (b : Mpint) : Nat :=
  val b.p b.top

-- No zeros at the top.
def Normal (b : Mpint) : Prop :=
  0 < b.top → b.p (b.top - 1) ≠ 0

end Mpint

section

variable {p : Vec} {n i r : Nat} {b b1 b2 res : Mpint} {x y : Digit}

theorem normtop_val (p : Vec) (n : Nat) : val p (normtop p n) = val p n := by
  induction n
  case zero      => rfl
  case succ n ih =>
    rw [normtop]
    split
    case isTrue    => rfl
    case isFalse h => rw [ih, val_succ, not_not.mp h]; simp

theorem normtop_ne_zero (h : 0 < normtop p n) : p (normtop p n - 1) ≠ 0 := by
  induction n
  case zero      => exact absurd h (Nat.lt_irrefl 0)
  case succ n ih =>
    rw [normtop] at h ⊢
    split at h
    case isTrue hne  => rwa [if_pos hne]
    case isFalse heq => rw [if_neg heq]; exact ih h

theorem Mpint.mag_lt (b : Mpint) : b.mag < base ^ b.top :=
  val_lt b.p b.top

theorem Mpint.Normal.le_mag (h : b.Normal) (htop : 0 < b.top) : base ^ (b.top - 1) ≤ b.mag := by
  obtain ⟨n, hn⟩ : ∃ n, b.top = n + 1 := ⟨b.top - 1, by omega⟩
  have hne := h htop
  rw [mag, hn, Nat.add_sub_cancel, val_succ]
  rw [hn, Nat.add_sub_cancel] at hne
  have hpos : 0 < (b.p n).toNat := Nat.pos_of_ne_zero fun heq => hne (BitVec.eq_of_toNat_eq heq)
  have hmul := Nat.mul_le_mul_right (base ^ n) hpos
  omega

theorem Mpint.Normal.top_le (h : b.Normal) (hlt : b.mag < base ^ n) : b.top ≤ n := by
  by_contra hle
  have hmag := h.le_mag (by omega)
  have hpow : base ^ n ≤ base ^ (b.top - 1) := Nat.pow_le_pow_right base_pos (by omega)
  omega

theorem Mpint.Normal.top_eq_zero (h : b.Normal) : b.top = 0 ↔ b.mag = 0 := by
  constructor
  case mp  => intro htop; rw [mag, htop, val_zero]
  case mpr => intro hmag; exact Nat.le_zero.mp (h.top_le (by rw [hmag, pow_zero]; exact Nat.one_pos))

theorem Mpint.Normal.mag_lt_of_top_lt (h : b2.Normal) (htop : b1.top < b2.top) : b1.mag < b2.mag :=
  (b1.mag_lt.trans_le (Nat.pow_le_pow_right base_pos (by omega))).trans_le (h.le_mag (by omega))

theorem mpmagcmp_neg (h1 : b1.Normal) (h2 : b2.Normal) : mpmagcmp b1 b2 < 0 ↔ b1.mag < b2.mag := by
  rw [mpmagcmp]
  split
  case isTrue h  =>
    rcases Nat.lt_or_gt_of_ne (by omega : b1.top ≠ b2.top) with hlt | hgt
    · exact iff_of_true (by omega) (h2.mag_lt_of_top_lt hlt)
    · exact iff_of_false (by omega) (Nat.lt_asymm (h1.mag_lt_of_top_lt hgt))
  case isFalse => exact mpveccmp_neg

theorem mpnorm_normal (b : Mpint) : (mpnorm b).Normal :=
  normtop_ne_zero

theorem mpnorm_mag (b : Mpint) : (mpnorm b).mag = b.mag :=
  normtop_val b.p b.top

theorem mpnorm_sign (b : Mpint) : (mpnorm b).sign = if b.mag = 0 then 1 else b.sign := by
  have htop := (mpnorm_normal b).top_eq_zero
  rw [mpnorm_mag] at htop
  simp only [← htop]
  rfl

theorem mpassign_mag (old new : Mpint) : (mpassign old new).mag = old.mag :=
  val_congr fun _ hi => if_pos hi

theorem mpassign_normal (h : b.Normal) (new : Mpint) : (mpassign b new).Normal := by
  intro htop
  have hlt : b.top - 1 < b.top := Nat.sub_one_lt (Nat.ne_of_gt htop)
  exact (if_pos hlt).trans_ne (h htop)

-- Shifting

theorem val_one (p : Vec) : val p 1 = (p 0).toNat := by
  rw [val_succ, val_zero, pow_zero, Nat.mul_one, Nat.zero_add]

theorem uitomp_spec {i : Nat} (h : i < base) :
    (uitomp i).mag = i ∧ (uitomp i).Normal ∧ (uitomp i).sign = 1 ∧ (uitomp i).top ≤ 1 := by
  have hset : (zeros.set 0 (BitVec.ofNat 32 i)) 0 = BitVec.ofNat 32 i := Function.update_self ..
  rw [uitomp]
  split
  case isTrue hne  =>
    have hval := val_one (zeros.set 0 (BitVec.ofNat 32 i))
    rw [hset, BitVec.toNat_ofNat] at hval
    have hval := hval.trans (Nat.mod_eq_of_lt h)
    refine ⟨hval, fun _ hzero => hne ?_, rfl, le_rfl⟩
    have hzero : BitVec.ofNat 32 i = 0 := hset.symm.trans hzero
    have hmod : i % 2 ^ 32 = 0 := by rw [← BitVec.toNat_ofNat, hzero]; rfl
    exact (Nat.mod_eq_of_lt h).symm.trans hmod
  case isFalse hzero =>
    rw [not_not] at hzero
    exact ⟨by rw [hzero]; exact val_zero _, fun h => absurd h (Nat.lt_irrefl 0), rfl, Nat.zero_le 1⟩

theorem shiftdigit_toNat (hr : r ≤ 32) (y x : Digit) :
    (shiftdigit y x r).toNat = y.toNat % 2 ^ r * 2 ^ (32 - r) + x.toNat / 2 ^ r := by
  have hpow : 2 ^ 32 = 2 ^ (32 - r) * 2 ^ r := by rw [← pow_add, Nat.sub_add_cancel hr]
  have hlt : x.toNat / 2 ^ r < 2 ^ (32 - r) := by
    rw [Nat.div_lt_iff_lt_mul (Nat.two_pow_pos r), ← hpow]
    exact x.isLt
  rw [shiftdigit, BitVec.toNat_or, BitVec.toNat_shiftLeft, BitVec.toNat_ushiftRight, Nat.shiftRight_eq_div_pow,
    Nat.shiftLeft_eq, hpow, Nat.mul_comm y.toNat, Nat.mul_mod_mul_left, Nat.mul_comm, ← Nat.shiftLeft_eq,
    ← Nat.shiftLeft_add_eq_or_of_lt hlt]

-- Digits that are shifted, with what is left over below and what is not there yet above.
theorem shift_val {q : Vec} (hr : r ≤ 32) (h : ∀ i < n, q i = shiftdigit (p (i + 1)) (p i) r) :
    val q n * 2 ^ r + (p 0).toNat % 2 ^ r = val p n + (p n).toNat % 2 ^ r * base ^ n := by
  have hpow : base = 2 ^ (32 - r) * 2 ^ r := by rw [← pow_add, Nat.sub_add_cancel hr]; rfl
  induction n
  case zero      => simp
  case succ n ih =>
    have hlow := ih fun i hi => h i (Nat.lt_succ_of_lt hi)
    have hdiv := Nat.mod_add_div (p n).toNat (2 ^ r)
    rw [val_succ, h n (Nat.lt_succ_self n), shiftdigit_toNat hr, val_succ, pow_succ]
    calc (val q n + ((p (n + 1)).toNat % 2 ^ r * 2 ^ (32 - r) + (p n).toNat / 2 ^ r) * base ^ n) * 2 ^ r +
          (p 0).toNat % 2 ^ r
      _ = (val q n * 2 ^ r + (p 0).toNat % 2 ^ r) + ((p (n + 1)).toNat % 2 ^ r * (2 ^ (32 - r) * 2 ^ r) +
          2 ^ r * ((p n).toNat / 2 ^ r)) * base ^ n := by ring
      _ = val p n + ((p n).toNat % 2 ^ r + 2 ^ r * ((p n).toNat / 2 ^ r)) * base ^ n +
          (p (n + 1)).toNat % 2 ^ r * (base ^ n * base) := by
        rw [hlow, ← hpow]
        ring
      _ = val p n + (p n).toNat * base ^ n + (p (n + 1)).toNat % 2 ^ r * (base ^ n * base) := by rw [hdiv]

-- The digits with a zero below.
def Vec.push (p : Vec) : Vec
  | 0     => 0
  | i + 1 => p i

theorem val_push (p : Vec) (n : Nat) : val p.push (n + 1) = base * val p n := by
  induction n
  case zero      => simp [val_succ, Vec.push]
  case succ n ih =>
    rw [val_succ, ih, val_succ, Vec.push, pow_succ]
    ring

theorem val_upto (p : Vec) (n : Nat) : val (p.upto n) n = val p n :=
  val_congr fun _ hi => if_pos hi

theorem upto_of_le (h : n ≤ i) (p : Vec) : p.upto n i = 0 :=
  if_neg (Nat.not_lt_of_le h)

theorem shiftleft_val {s : Nat} (hpos : 0 < s) (hs : s < 32) (htop : 0 < b.top) (rest : Vec) :
    val (shiftleft.digits b 0 s rest) (b.top + 1) = b.mag * 2 ^ s := by
  have hdigit : ∀ i < b.top + 1, shiftleft.digits b 0 s rest i =
      shiftdigit ((b.p.upto b.top).push (i + 1)) ((b.p.upto b.top).push i) (32 - s) := by
    intro i hi
    rw [shiftleft.digits, if_neg (Nat.not_lt_zero i), if_neg hpos.ne', Nat.zero_add]
    cases i
    case zero      =>
      have hback : 32 - (32 - s) = s := by omega
      have hzero : (0 : Digit) >>> (32 - s) = 0 := BitVec.zero_ushiftRight
      rw [if_pos rfl, Vec.push, Vec.push, Vec.upto, if_pos htop, shiftdigit, hback, hzero]
      exact BitVec.or_zero.symm
    case succ i =>
      have hlow : (b.p.upto b.top).push (i + 1) = b.p i := if_pos (Nat.lt_of_succ_lt_succ hi)
      rw [if_neg (Nat.succ_ne_zero i), if_pos (Nat.le_of_lt_succ hi), hlow]
      rfl
  have hval := shift_val (Nat.sub_le 32 s) hdigit
  have hlast : (b.p.upto b.top).push (b.top + 1) = 0 := upto_of_le le_rfl b.p
  have hbase : base = 2 ^ s * 2 ^ (32 - s) := by
    rw [← pow_add, Nat.add_sub_cancel' hs.le]
    rfl
  rw [val_push, val_upto, hlast, Vec.push] at hval
  have hmul : val (shiftleft.digits b 0 s rest) (b.top + 1) * 2 ^ (32 - s) = b.mag * 2 ^ s * 2 ^ (32 - s) := by
    calc val (shiftleft.digits b 0 s rest) (b.top + 1) * 2 ^ (32 - s) = base * val b.p b.top := by simpa using hval
      _ = b.mag * 2 ^ s * 2 ^ (32 - s) := by rw [hbase, Mpint.mag]; ring
  exact Nat.eq_of_mul_eq_mul_right (Nat.two_pow_pos _) hmul

theorem shiftleft_mag {s : Nat} (hs : s < 32) (htop : 0 < b.top) (res : Mpint) :
    (shiftleft b s res).mag = b.mag * 2 ^ s := by
  have hd : s / 32 = 0 := Nat.div_eq_of_lt hs
  simp only [Mpint.mag, shiftleft, hd, Nat.zero_mul, Nat.sub_zero, normtop_val]
  rcases Nat.eq_zero_or_pos s with rfl | hpos
  · have hn : DIGITS (b.top * 32 + 0) = b.top := by
      rw [DIGITS]
      omega
    rw [hn, pow_zero, Nat.mul_one]
    refine val_congr fun i hi => ?_
    rw [shiftleft.digits, if_neg (Nat.not_lt_zero i), if_pos rfl, Nat.zero_add, if_pos hi]
    rfl
  · have hn : DIGITS (b.top * 32 + s) = b.top + 1 := by
      rw [DIGITS]
      omega
    rw [hn]
    exact shiftleft_val hpos hs htop _

theorem shiftright_val {s : Nat} (hpos : 0 < s) (hs : s < 32) (rest : Vec) :
    val (shiftright.digits b 0 s rest) b.top = b.mag / 2 ^ s := by
  have hdigit : ∀ i < b.top,
      shiftright.digits b 0 s rest i = shiftdigit (b.p.upto b.top (i + 1)) (b.p.upto b.top i) s := by
    intro i hi
    have hlow : b.p.upto b.top i = b.p i := if_pos hi
    rw [shiftright.digits, Nat.sub_zero, if_pos hi, if_neg hpos.ne', hlow]
    rfl
  have hval := shift_val hs.le hdigit
  have hlt : (b.p.upto b.top 0).toNat % 2 ^ s < 2 ^ s := Nat.mod_lt _ (Nat.two_pow_pos s)
  rw [val_upto, upto_of_le le_rfl] at hval
  have hmag : b.mag = (b.p.upto b.top 0).toNat % 2 ^ s + 2 ^ s * val (shiftright.digits b 0 s rest) b.top := by
    rw [Nat.add_comm, Nat.mul_comm, Mpint.mag]
    simpa using hval.symm
  rw [hmag, Nat.add_mul_div_left _ _ (Nat.two_pow_pos s), Nat.div_eq_of_lt hlt, Nat.zero_add]

theorem shiftright_mag {s : Nat} (hs : s < 32) (htop : 0 < b.top) (res : Mpint) :
    (shiftright b s res).mag = b.mag / 2 ^ s := by
  have hd : s / 32 = 0 := Nat.div_eq_of_lt hs
  simp only [Mpint.mag, shiftright, hd, Nat.not_le_of_lt htop, if_false, Nat.zero_mul, Nat.sub_zero, normtop_val]
  rcases Nat.eq_zero_or_pos s with rfl | hpos
  · rw [pow_zero, Nat.div_one]
    refine val_congr fun i hi => ?_
    rw [shiftright.digits, Nat.sub_zero, if_pos hi, if_pos rfl]
    rfl
  · exact shiftright_val hpos hs _

theorem shiftright_normal (b : Mpint) (s : Nat) (res : Mpint) : (shiftright b s res).Normal := by
  rw [shiftright]
  dsimp only
  split
  case isTrue  => exact fun h => absurd h (Nat.lt_irrefl 0)
  case isFalse => exact normtop_ne_zero

theorem shiftleft_normal (b : Mpint) (s : Nat) (res : Mpint) : (shiftleft b s res).Normal :=
  normtop_ne_zero

theorem mpleft_mag {s : Nat} (hs : s < 32) (htop : 0 < b.top) (res : Mpint) :
    (mpleft b s res).mag = b.mag * 2 ^ s ∧ (mpleft b s res).Normal := by
  rw [mpleft, if_neg htop.ne', if_neg (by omega), Int.natAbs_natCast]
  exact ⟨shiftleft_mag hs htop res, shiftleft_normal b s res⟩

theorem mpright_mag {s : Nat} (hs : s < 32) (htop : 0 < b.top) (res : Mpint) :
    (mpright b s res).mag = b.mag / 2 ^ s ∧ (mpright b s res).Normal := by
  rw [mpright, if_neg htop.ne', if_neg (by omega), Int.natAbs_natCast]
  exact ⟨shiftright_mag hs htop res, shiftright_normal b s res⟩

end

end Libmp
