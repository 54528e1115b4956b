import Nix.Libmp.Mpint

-- Multiplying, in halves where the numbers are long.
namespace Libmp

-- The sum and the difference with what is from digit `n` of `res` on.
def addat (res : Vec) (reslen n : Nat) (b : Vec) (blen : Nat) : Vec :=
  res.paste n (mpvecadd (res.drop n) (reslen - n) b blen (res.drop n))

def subat (res : Vec) (reslen n : Nat) (b : Vec) (blen : Nat) : Vec :=
  res.paste n (mpvecsub (res.drop n) (reslen - n) b blen (res.drop n))

-- The partial products, put together.
def mpkaratsuba.res (n u1len v0len v1len : Nat) (sign : Int) (u0v0 u1v1 diffprod : Vec) : Vec :=
  let reslen := 4 * n + 1
  -- res = u0*v0<<n + u0*v0
  let res := addat zeros reslen 0 u0v0 (n + v0len)
  let res := addat res reslen n u0v0 (n + v0len)
  -- res += u1*v1<<n + u1*v1<<2*n
  let res :=
    if 0 < v1len then
      addat (addat res reslen n u1v1 (u1len + v1len)) reslen (2 * n) u1v1 (u1len + v1len)
    else
      res
  -- res += (u1-u0)*(v0-v1)<<n
  if sign < 0 then
    subat res reslen n diffprod (n + v0len)
  else
    addat res reslen n diffprod (n + v0len)

-- The product of `a`, of `n` and `u1len` digits, and `b`, of `v0len` and `v1len`.
def mpkaratsuba.halves (mul : Vec → Nat → Vec → Nat → Vec → Option Vec) (a : Vec) (n u1len : Nat) (b : Vec)
    (v0len v1len : Nat) : Option Vec := do
  let u0 := a
  let u1 := a.drop n
  let v0 := b
  let v1 := b.drop v0len
  -- t[0] = (u1-u0)
  let (usign, u0v0) : Int × Vec :=
    if mpveccmp u1 u1len u0 n < 0 then
      (-1, mpvecsub u0 n u1 u1len zeros)
    else
      (1, mpvecsub u1 u1len u0 u1len zeros)
  -- t[1] = (v0-v1)
  let (sign, u1v1) :=
    if mpveccmp v0 v0len v1 v1len < 0 then
      (-usign, mpvecsub v1 v1len v0 v1len zeros)
    else
      (usign, mpvecsub v0 v0len v1 v1len zeros)
  let diffprod ← mul u0v0 n u1v1 v0len zeros
  let u1v1 ← (if 0 < v1len then mul u1 u1len v1 v1len zeros else some zeros)
  let u0v0 ← mul u0 n v0 v0len zeros
  return mpkaratsuba.res n u1len v0len v1len sign u0v0 u1v1 diffprod

def mpkaratsuba (mul : Vec → Nat → Vec → Nat → Vec → Option Vec) (a : Vec) (alen : Nat) (b : Vec) (blen : Nat)
    (p : Vec) : Option Vec := do
  -- divide each piece in half
  let n := alen / 2 + alen % 2
  let v0len := if n < blen then n else blen
  let v1len := if n < blen then blen - n else 0
  let res ← mpkaratsuba.halves mul a n (alen - n) b v0len v1len
  return fun i => if i < alen + blen then res i else p i

def KARATSUBAMIN : Nat := 32

def mpvecmul.row (a : Vec) (alen : Nat) (b : Vec) (i : Nat) (p : Vec) : Vec :=
  let d := b i
  if d ≠ 0 then p.paste i (mpvecdigmuladd a alen d (p.drop i)) else p

-- Where `a` is the longer vector.
def mpvecmul.longer (mul : Vec → Nat → Vec → Nat → Vec → Option Vec) (a : Vec) (alen : Nat) (b : Vec) (blen : Nat)
    (p : Vec) : Option Vec :=
  if blen = 0 then
    some fun i => if i < alen + blen then 0 else p i
  else if KARATSUBAMIN ≤ alen ∧ 1 < blen then
    mpkaratsuba mul a alen b blen p
  else
    some (turns (mpvecmul.row a alen b) p blen)

-- Calls are `k` deep at most.
def mpvecmul : Nat → Vec → Nat → Vec → Nat → Vec → Option Vec
  | 0,     _, _,    _, _,    _ => none
  | k + 1, a, alen, b, blen, p =>
    if alen < blen then
      mpvecmul.longer (mpvecmul k) b blen a alen p
    else
      mpvecmul.longer (mpvecmul k) a alen b blen p

-- What is in `prod` does not matter.
def mpmul (k : Nat) (b1 b2 prod : Mpint) : Option Mpint := do
  let prod := mpbits { prod with top := 0 } ((b1.top + b2.top + 1) * 32)
  let p ← mpvecmul k b1.p b1.top b2.p b2.top prod.p
  return mpnorm { sign := b1.sign * b2.sign, top := b1.top + b2.top + 1, p }

section

variable {a b p q x u v : Vec} {alen blen reslen xlen n m i k ulen vlen : Nat}

theorem addat_val (hx : n + xlen ≤ reslen) (h : val p reslen + base ^ n * val x xlen < base ^ reslen) :
    val (addat p reslen n x xlen) reslen = val p reslen + base ^ n * val x xlen := by
  obtain ⟨m, rfl⟩ := Nat.exists_eq_add_of_le ((Nat.le_add_right n xlen).trans hx)
  have hadd := (@mpvecadd_val (p.drop n) x m xlen (by omega) (p.drop n)).left
  rw [val_add, pow_add, Nat.add_assoc, ← Nat.mul_add, ← hadd] at h
  have hlt := Nat.lt_of_mul_lt_mul_left ((Nat.le_add_left _ _).trans_lt h)
  rw [addat, Nat.add_sub_cancel_left, val_paste, val_eq_of_lt (Nat.le_succ m) hlt, hadd, val_add]
  ring

theorem subat_val (hx : n + xlen ≤ reslen) (h : base ^ n * val x xlen ≤ val p reslen) :
    val (subat p reslen n x xlen) reslen + base ^ n * val x xlen = val p reslen := by
  obtain ⟨m, rfl⟩ := Nat.exists_eq_add_of_le ((Nat.le_add_right n xlen).trans hx)
  rw [val_add] at h
  have hlow := val_lt p n
  have hlt : base ^ n * val x xlen < base ^ n * (val (p.drop n) m + 1) := by
    rw [Nat.mul_add, Nat.mul_one]
    omega
  have hle := Nat.le_of_lt_succ (Nat.lt_of_mul_lt_mul_left hlt)
  have hsub := (@mpvecsub_val (p.drop n) x m xlen m (max_eq_left (by omega)) hle (p.drop n)).left
  rw [subat, Nat.add_sub_cancel_left, val_paste, val_add, ← hsub]
  ring

-- The difference of two numbers, where the longer vector has the greater number and where the shorter one has.
theorem mpvecsub_longer (hlen : vlen ≤ ulen) (h : val v vlen ≤ val u ulen) :
    val (mpvecsub u ulen v vlen zeros) ulen + val v vlen = val u ulen :=
  (mpvecsub_val (max_eq_left hlen) h zeros).left

theorem mpvecsub_shorter (hlen : vlen ≤ ulen) (h : val u ulen ≤ val v vlen) :
    val (mpvecsub v vlen u vlen zeros) ulen + val u ulen = val v vlen := by
  have hu : val u vlen = val u ulen := val_eq_of_lt hlen (h.trans_lt (val_lt v vlen))
  obtain ⟨hval, hsame⟩ := mpvecsub_val (max_self vlen) (hu.trans_le h) zeros
  rw [val_same_zeros hsame hlen, ← hu, hval]

theorem mul_pow_le {x i : Nat} (hx : x < base ^ (2 * n)) (hi : i ≤ 2 * n) : base ^ i * x ≤ base ^ (4 * n) := by
  calc base ^ i * x ≤ base ^ (2 * n) * base ^ (2 * n) := Nat.mul_le_mul (Nat.pow_le_pow_right base_pos hi) hx.le
    _ = base ^ (4 * n) := by rw [← pow_add]; congr 1; omega

theorem res_lt {P Q D : Nat} (hP : P < base ^ (2 * n)) (hQ : Q < base ^ (2 * n)) (hD : D < base ^ (2 * n)) :
    P + base ^ n * P + base ^ n * Q + base ^ (2 * n) * Q + base ^ n * D < base ^ (4 * n + 1) := by
  have h0 := mul_pow_le hP (Nat.zero_le _)
  have h1 := mul_pow_le hP (by omega : n ≤ 2 * n)
  have h2 := mul_pow_le hQ (by omega : n ≤ 2 * n)
  have h3 := mul_pow_le hQ le_rfl
  have h4 := mul_pow_le hD (by omega : n ≤ 2 * n)
  have hpos : 0 < base ^ (4 * n) := Nat.pow_pos base_pos
  have hsix : base ^ (4 * n) * 6 ≤ base ^ (4 * n) * base := Nat.mul_le_mul_left _ (by decide)
  rw [pow_zero, Nat.one_mul] at h0
  rw [pow_succ]
  omega

-- What the parts are, where there is a second half of `b` and where there is none.
structure Parts (n u1len v0len v1len : Nat) (u0v0 u1v1 diffprod : Vec) (P Q D : Nat) : Prop where
  hu1   : u1len ≤ n
  hv0   : v0len ≤ n
  hv1   : v1len ≤ n
  low   : val u0v0 (n + v0len) = P
  high  : 0 < v1len → val u1v1 (u1len + v1len) = Q
  none  : v1len = 0 → Q = 0
  diff  : val diffprod (n + v0len) = D

section

variable {u1len v0len v1len P Q D : Nat} {u0v0 u1v1 diffprod : Vec}

theorem Parts.lt (h : Parts n u1len v0len v1len u0v0 u1v1 diffprod P Q D) :
    P + base ^ n * P + base ^ n * Q + base ^ (2 * n) * Q + base ^ n * D < base ^ (4 * n + 1) := by
  have hpow : base ^ (n + v0len) ≤ base ^ (2 * n) := Nat.pow_le_pow_right base_pos (by have := h.hv0; omega)
  refine res_lt ?_ ?_ ?_
  · rw [← h.low]
    exact (val_lt ..).trans_le hpow
  · rcases Nat.eq_zero_or_pos v1len with hzero | hpos
    · rw [h.none hzero]
      exact Nat.pow_pos base_pos
    · rw [← h.high hpos]
      exact (val_lt ..).trans_le (Nat.pow_le_pow_right base_pos (by have := h.hu1; have := h.hv1; omega))
  · rw [← h.diff]
    exact (val_lt ..).trans_le hpow

theorem Parts.sum (h : Parts n u1len v0len v1len u0v0 u1v1 diffprod P Q D) :
    val (if 0 < v1len then
        addat (addat (addat (addat zeros (4 * n + 1) 0 u0v0 (n + v0len)) (4 * n + 1) n u0v0 (n + v0len)) (4 * n + 1) n
          u1v1 (u1len + v1len)) (4 * n + 1) (2 * n) u1v1 (u1len + v1len)
      else
        addat (addat zeros (4 * n + 1) 0 u0v0 (n + v0len)) (4 * n + 1) n u0v0 (n + v0len)) (4 * n + 1) =
    P + base ^ n * P + base ^ n * Q + base ^ (2 * n) * Q := by
  have hlt := h.lt
  have hu1 := h.hu1
  have hv0 := h.hv0
  have hv1 := h.hv1
  have h0 : val (addat zeros (4 * n + 1) 0 u0v0 (n + v0len)) (4 * n + 1) = P := by
    rw [addat_val (by omega) (by rw [h.low, val_zeros, pow_zero]; omega), h.low, val_zeros, pow_zero]
    omega
  have h1 : val (addat (addat zeros (4 * n + 1) 0 u0v0 (n + v0len)) (4 * n + 1) n u0v0 (n + v0len)) (4 * n + 1) =
      P + base ^ n * P := by
    rw [addat_val (by omega) (by rw [h.low, h0]; omega), h.low, h0]
  split
  case isTrue hpos =>
    have h2 : val (addat (addat (addat zeros (4 * n + 1) 0 u0v0 (n + v0len)) (4 * n + 1) n u0v0 (n + v0len)) (4 * n + 1)
        n u1v1 (u1len + v1len)) (4 * n + 1) = P + base ^ n * P + base ^ n * Q := by
      rw [addat_val (by omega) (by rw [h.high hpos, h1]; omega), h.high hpos, h1]
    rw [addat_val (by omega) (by rw [h.high hpos, h2]; omega), h.high hpos, h2]
  case isFalse hzero =>
    rw [h1, h.none (by omega), Nat.mul_zero, Nat.mul_zero]
    rfl

theorem Parts.res_add (h : Parts n u1len v0len v1len u0v0 u1v1 diffprod P Q D) {sign : Int} (hsign : ¬sign < 0) :
    val (mpkaratsuba.res n u1len v0len v1len sign u0v0 u1v1 diffprod) (4 * n + 1) =
      P + base ^ n * P + base ^ n * Q + base ^ (2 * n) * Q + base ^ n * D := by
  have hlt := h.lt
  have hv0 := h.hv0
  have hsum := h.sum
  rw [mpkaratsuba.res, if_neg hsign, addat_val (by omega), hsum, h.diff]
  rw [hsum, h.diff]
  exact hlt

theorem Parts.res_sub (h : Parts n u1len v0len v1len u0v0 u1v1 diffprod P Q D) {sign : Int} (hsign : sign < 0)
    (hD : base ^ n * D ≤ P + base ^ n * P + base ^ n * Q + base ^ (2 * n) * Q) :
    val (mpkaratsuba.res n u1len v0len v1len sign u0v0 u1v1 diffprod) (4 * n + 1) + base ^ n * D =
      P + base ^ n * P + base ^ n * Q + base ^ (2 * n) * Q := by
  have hv0 := h.hv0
  have hsum := h.sum
  have hsub := subat_val (x := diffprod) (by omega : n + (n + v0len) ≤ 4 * n + 1) (by rw [h.diff, hsum]; exact hD)
  rw [h.diff, hsum] at hsub
  rw [mpkaratsuba.res, if_pos hsign, hsub]

end

theorem udiff (hlen : m ≤ n) (u0 u1 : Vec) :
    ∃ s d, (if mpveccmp u1 m u0 n < 0 then (-1, mpvecsub u0 n u1 m zeros) else (1, mpvecsub u1 m u0 m zeros)) =
        ((s, d) : Int × Vec) ∧
      (s = -1 ∧ val d n + val u1 m = val u0 n ∨ s = 1 ∧ val d n + val u0 n = val u1 m) := by
  split
  case isTrue h  => exact ⟨_, _, rfl, .inl ⟨rfl, mpvecsub_longer hlen (mpveccmp_neg.mp h).le⟩⟩
  case isFalse h => exact ⟨_, _, rfl, .inr ⟨rfl, mpvecsub_shorter hlen (Nat.le_of_not_lt (mpveccmp_neg.not.mp h))⟩⟩

theorem vdiff (hlen : m ≤ n) (v0 v1 : Vec) (usign : Int) :
    ∃ s d, (if mpveccmp v0 n v1 m < 0 then (-usign, mpvecsub v1 m v0 m zeros) else (usign, mpvecsub v0 n v1 m zeros)) =
        ((s, d) : Int × Vec) ∧
      (s = -usign ∧ val d n + val v0 n = val v1 m ∨ s = usign ∧ val d n + val v1 m = val v0 n) := by
  split
  case isTrue h  => exact ⟨_, _, rfl, .inl ⟨rfl, mpvecsub_shorter hlen (mpveccmp_neg.mp h).le⟩⟩
  case isFalse h => exact ⟨_, _, rfl, .inr ⟨rfl, mpvecsub_longer hlen (Nat.le_of_not_lt (mpveccmp_neg.not.mp h))⟩⟩

section

variable {B U0 U1 V0 V1 d e : Nat}

-- The product of two sums of halves, where the differences have one sign and where they have two.
theorem halves_add (h : d + U1 = U0 ∧ e + V0 = V1 ∨ d + U0 = U1 ∧ e + V1 = V0) :
    U0 * V0 + B * (U0 * V0) + B * (U1 * V1) + B * B * (U1 * V1) + B * (d * e) = (U0 + B * U1) * (V0 + B * V1) := by
  obtain ⟨rfl, rfl⟩ | ⟨rfl, rfl⟩ := h <;> ring

theorem halves_sub (h : d + U1 = U0 ∧ e + V1 = V0 ∨ d + U0 = U1 ∧ e + V0 = V1) :
    U0 * V0 + B * (U0 * V0) + B * (U1 * V1) + B * B * (U1 * V1) =
      (U0 + B * U1) * (V0 + B * V1) + B * (d * e) := by
  obtain ⟨rfl, rfl⟩ | ⟨rfl, rfl⟩ := h <;> ring

theorem signs_add {s t : Int} (hd : s = -1 ∧ d + U1 = U0 ∨ s = 1 ∧ d + U0 = U1)
    (he : t = -s ∧ e + V0 = V1 ∨ t = s ∧ e + V1 = V0) (ht : 0 ≤ t) :
    d + U1 = U0 ∧ e + V0 = V1 ∨ d + U0 = U1 ∧ e + V1 = V0 := by
  omega

theorem signs_sub {s t : Int} (hd : s = -1 ∧ d + U1 = U0 ∨ s = 1 ∧ d + U0 = U1)
    (he : t = -s ∧ e + V0 = V1 ∨ t = s ∧ e + V1 = V0) (ht : t < 0) :
    d + U1 = U0 ∧ e + V1 = V0 ∨ d + U0 = U1 ∧ e + V0 = V1 := by
  omega

end

-- What is the product of two vectors.
def Product (a : Vec) (alen : Nat) (b : Vec) (blen : Nat) (p : Vec) (r : Option Vec) : Prop :=
  ∃ q, r = some q ∧ val q (alen + blen) = val a alen * val b blen ∧ Same (alen + blen) q p

-- A way to multiply vectors of fewer than `k` digits.
def Multiplies (mul : Vec → Nat → Vec → Nat → Vec → Option Vec) (k : Nat) : Prop :=
  ∀ a alen b blen p, alen < k → blen < k → (∀ i < alen + blen, p i = 0) → Product a alen b blen p (mul a alen b blen p)

theorem Product.val_eq {r : Option Vec} (h : Product a alen b blen p r) :
    ∃ q, r = some q ∧ val q (alen + blen) = val a alen * val b blen := by
  obtain ⟨q, hq, hval, -⟩ := h
  exact ⟨q, hq, hval⟩

section

variable {mul : Vec → Nat → Vec → Nat → Vec → Option Vec} {u1len v0len v1len : Nat}

theorem high_product (hmul : Multiplies mul k) (hu : u1len < k) (hv : v1len < k) (u1 v1 : Vec) :
    ∃ u1v1, (if 0 < v1len then mul u1 u1len v1 v1len zeros else some zeros) = some u1v1 ∧
      (0 < v1len → val u1v1 (u1len + v1len) = val u1 u1len * val v1 v1len) := by
  split
  case isTrue hpos =>
    obtain ⟨q, hq, hval⟩ := (hmul u1 u1len v1 v1len zeros hu hv fun _ _ => rfl).val_eq
    exact ⟨q, hq, fun _ => hval⟩
  case isFalse hzero => exact ⟨zeros, rfl, fun hpos => absurd hpos hzero⟩

theorem halves_val (hmul : Multiplies mul k) (hk : n < k) (hu : u1len ≤ n) (hv1 : v1len ≤ v0len) (hv0 : v0len ≤ n) :
    ∃ res, mpkaratsuba.halves mul a n u1len b v0len v1len = some res ∧
      val res (4 * n + 1) = (val a n + base ^ n * val (a.drop n) u1len) *
        (val b v0len + base ^ n * val (b.drop v0len) v1len) := by
  obtain ⟨usign, d, hd, hdval⟩ := udiff hu a (a.drop n)
  obtain ⟨sign, e, he, heval⟩ := vdiff hv1 b (b.drop v0len) usign
  obtain ⟨diffprod, hdiff, hdiffval⟩ := (hmul d n e v0len zeros hk (hv0.trans_lt hk) fun _ _ => rfl).val_eq
  obtain ⟨u1v1, hhigh, hhighval⟩ :=
    high_product hmul (hu.trans_lt hk) ((hv1.trans hv0).trans_lt hk) (a.drop n) (b.drop v0len)
  obtain ⟨u0v0, hlow, hlowval⟩ := (hmul a n b v0len zeros hk (hv0.trans_lt hk) fun _ _ => rfl).val_eq
  have hparts : Parts n u1len v0len v1len u0v0 u1v1 diffprod (val a n * val b v0len)
      (val (a.drop n) u1len * val (b.drop v0len) v1len) (val d n * val e v0len) :=
    ⟨hu, hv0, hv1.trans hv0, hlowval, hhighval, fun hzero => by rw [hzero, val_zero, Nat.mul_zero], hdiffval⟩
  have htwo : base ^ (2 * n) = base ^ n * base ^ n := by rw [Nat.two_mul, pow_add]
  simp only [mpkaratsuba.halves, hd, he, hdiff, hhigh, hlow, Option.bind_eq_bind, Option.bind_some]
  refine ⟨_, rfl, ?_⟩
  rcases lt_or_ge sign 0 with hsign | hsign
  · have hsub := @halves_sub (base ^ n) _ _ _ _ _ _ (signs_sub hdval heval hsign)
    rw [← htwo] at hsub
    exact Nat.add_right_cancel ((hparts.res_sub hsign (hsub ▸ Nat.le_add_left _ _)).trans hsub)
  · have hadd := @halves_add (base ^ n) _ _ _ _ _ _ (signs_add hdval heval hsign)
    rw [hparts.res_add (Int.not_lt.mpr hsign), htwo, hadd]

theorem mul_lt (a : Vec) (alen : Nat) (b : Vec) (blen : Nat) : val a alen * val b blen < base ^ (alen + blen) := by
  rw [pow_add]
  exact Nat.mul_lt_mul'' (val_lt a alen) (val_lt b blen)

theorem copy_product {res : Vec} (hlen : alen + blen ≤ n) (h : val res n = val a alen * val b blen) :
    Product a alen b blen p (some fun i => if i < alen + blen then res i else p i) := by
  have hcopy : val (fun i => if i < alen + blen then res i else p i) (alen + blen) = val res (alen + blen) :=
    val_congr fun i hi => if_pos hi
  refine ⟨_, rfl, ?_, fun i hi => if_neg (Nat.not_lt_of_le hi)⟩
  rw [hcopy, val_eq_of_lt hlen (by rw [h]; exact mul_lt a alen b blen), h]

theorem mpkaratsuba_product (hmul : Multiplies mul k) (hlen : blen ≤ alen) (h1 : 1 < alen) (hk : alen ≤ k) :
    Product a alen b blen p (mpkaratsuba mul a alen b blen p) := by
  have hn : alen / 2 + alen % 2 < k ∧ alen / 2 + alen % 2 ≤ alen ∧ alen ≤ 2 * (alen / 2 + alen % 2) := by omega
  rw [mpkaratsuba]
  generalize alen / 2 + alen % 2 = n at *
  obtain ⟨hnk, hna, hna2⟩ := hn
  have ha := val_split hna a
  by_cases hn : n < blen
  · obtain ⟨res, hres, hval⟩ :=
      halves_val (a := a) (b := b) hmul hnk (by omega : alen - n ≤ n) (by omega : blen - n ≤ n) le_rfl
    rw [if_pos hn, if_pos hn, hres]
    rw [ha, val_split hn.le b] at hval
    exact copy_product (by omega) hval
  · obtain ⟨res, hres, hval⟩ :=
      halves_val (a := a) (b := b) hmul hnk (by omega : alen - n ≤ n) (Nat.zero_le blen) (Nat.le_of_not_lt hn)
    rw [if_neg hn, if_neg hn, hres]
    rw [ha, val_zero, Nat.mul_zero, Nat.add_zero] at hval
    exact copy_product (by omega) hval

theorem row_val (hval : val p (alen + i) = val a alen * val b i) (hzero : p (alen + i) = 0) :
    val (mpvecmul.row a alen b i p) (alen + (i + 1)) = val a alen * val b (i + 1) ∧
    Same (alen + (i + 1)) (mpvecmul.row a alen b i p) p := by
  rw [mpvecmul.row, ← Nat.add_assoc, val_succ b]
  split
  case isTrue hd =>
    obtain ⟨hrow, hsame⟩ := mpvecdigmuladd_val a alen (b i) (p.drop i)
    constructor
    case left =>
      rw [Nat.add_comm alen i] at hval ⊢
      rw [Nat.add_assoc, val_paste, hrow]
      rw [val_add] at hval
      rw [Nat.mul_add (val a alen), ← hval]
      ring
    case right =>
      intro j hj
      have hdrop := hsame (j - i) (by omega)
      rw [Vec.drop, Nat.add_sub_cancel' (by omega)] at hdrop
      rw [Vec.paste, if_neg (by omega), hdrop]
  case isFalse hd =>
    have hd : b i = 0 := not_not.mp hd
    rw [val_succ, hval, hzero, hd]
    exact ⟨by simp, fun _ _ => rfl⟩

theorem rows_val (hp : ∀ i < alen + blen, p i = 0) :
    val (turns (mpvecmul.row a alen b) p blen) (alen + blen) = val a alen * val b blen ∧
    Same (alen + blen) (turns (mpvecmul.row a alen b) p blen) p := by
  refine turns_induct (I := fun i q => val q (alen + i) = val a alen * val b i ∧ Same (alen + i) q p) ?_ ?_
  case refine_1 => exact ⟨Digits.val_zero fun i hi => congrArg BitVec.toNat (hp i (by omega)), fun _ _ => rfl⟩
  case refine_2 =>
    rintro i q hi ⟨hval, hsame⟩
    have hzero : q (alen + i) = 0 := by rw [hsame _ le_rfl, hp _ (by omega)]
    obtain ⟨hnext, hrow⟩ := row_val hval hzero
    exact ⟨hnext, fun j hj => (hrow j hj).trans (hsame j (by omega))⟩

theorem longer_product (hmul : Multiplies mul k) (hlen : blen ≤ alen) (hk : alen ≤ k)
    (hp : ∀ i < alen + blen, p i = 0) :
    Product a alen b blen p (mpvecmul.longer mul a alen b blen p) := by
  rw [mpvecmul.longer]
  split_ifs with hzero hmin
  · subst hzero
    exact copy_product le_rfl (by rw [val_zero, Nat.mul_zero]; exact val_zeros alen)
  · exact mpkaratsuba_product hmul hlen (by omega) hk
  · obtain ⟨hval, hsame⟩ := rows_val hp
    exact ⟨_, rfl, hval, hsame⟩

theorem Product.comm {r : Option Vec} (h : Product b blen a alen p r) : Product a alen b blen p r := by
  obtain ⟨q, hq, hval, hsame⟩ := h
  refine ⟨q, hq, ?_, ?_⟩
  · rw [Nat.add_comm, hval, Nat.mul_comm]
  · rwa [Nat.add_comm]

theorem mpvecmul_multiplies (k : Nat) : Multiplies (mpvecmul k) k := by
  induction k
  case zero      => exact fun a alen b blen p ha _ _ => absurd ha (Nat.not_lt_zero alen)
  case succ k ih =>
    intro a alen b blen p ha hb hp
    rw [mpvecmul]
    split
    case isTrue h  =>
      refine (longer_product ih h.le (Nat.le_of_lt_succ hb) fun i hi => hp i ?_).comm
      omega
    case isFalse h => exact longer_product ih (Nat.le_of_not_lt h) (Nat.le_of_lt_succ ha) hp

theorem mpmul_mag {b1 b2 : Mpint} (h1 : b1.top < k) (h2 : b2.top < k) (prod : Mpint) :
    ∃ r, mpmul k b1 b2 prod = some r ∧ r.Normal ∧ r.mag = b1.mag * b2.mag ∧
      r.sign = if b1.mag * b2.mag = 0 then 1 else b1.sign * b2.sign := by
  have hn : DIGITS ((b1.top + b2.top + 1) * 32) = b1.top + b2.top + 1 := by
    rw [DIGITS]
    omega
  have hzero : ∀ i < b1.top + b2.top + 1, (mpbits { prod with top := 0 } ((b1.top + b2.top + 1) * 32)).p i = 0 := by
    intro i hi
    simp only [mpbits, hn, if_neg (Nat.not_succ_le_zero _)]
    exact if_pos ⟨Nat.zero_le i, hi⟩
  obtain ⟨q, hq, hval, hsame⟩ :=
    mpvecmul_multiplies k b1.p b1.top b2.p b2.top _ h1 h2 fun i hi => hzero i (Nat.lt_succ_of_lt hi)
  have hmag : val q (b1.top + b2.top + 1) = b1.mag * b2.mag := by
    rw [val_succ, hval, hsame _ le_rfl, hzero _ (Nat.lt_succ_self _)]
    simp [Mpint.mag]
  rw [mpmul, hq]
  refine ⟨_, rfl, mpnorm_normal _, ?_, ?_⟩
  · rw [mpnorm_mag, ← hmag]
    rfl
  · rw [mpnorm_sign, ← hmag]
    rfl

end

end

end Libmp
