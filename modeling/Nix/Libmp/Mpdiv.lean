import Nix.Libmp.Mpmul

-- Dividing, one digit of the quotient after the other.
namespace Libmp

structure Rest where
  hi : Digit
  lo : Digit
  q  : Digit
  x  : Digit

def mpdigdiv.turn (divisor : Digit) (i : Nat) (r : Rest) : Rest :=
  let x := r.x >>> 1
  let y := divisor <<< i
  if r.hi < x then
    { r with x }
  else if x = r.hi ∧ r.lo < y then
    { r with x }
  else
    let hi := if r.lo < y then r.hi - 1 else r.hi
    { hi := hi - x, lo := r.lo - y, q := r.q ||| (1 : Digit) <<< i, x }

def mpdigdiv.loop (divisor : Digit) : Nat → Rest → Rest
  | 0,     r => r
  | i + 1, r => if 0 < r.hi then loop divisor i (turn divisor i r) else r

-- Two digits divided by one. The highest digit, where the quotient does not fit in one.
def mpdigdiv (dividend : Vec) (divisor : Digit) : Digit :=
  if divisor ≤ dividend 1 ∨ divisor = 0 then
    ~~~0
  else
    let r := mpdigdiv.loop divisor 32 ⟨dividend 1, dividend 0, 0, divisor⟩
    r.q + r.lo / divisor

def mpdighi : Digit :=
  1 <<< 31

-- The shifts until the high bit is set, which is not found in 32 turns where there is no bit.
def mpdiv.shifts : Nat → Digit → Option Nat
  | 0,     _  => none
  | k + 1, qd => if qd &&& mpdighi = 0 then (shifts k (qd <<< 1)).map (· + 1) else some 0

-- The trial divisor, less as long as two digits of the divisor show that it is too high.
def mpdiv.trial (vp up : Vec) : Nat → Nat
  | 0      => 0
  | qd + 1 =>
    if 0 < mpveccmp (mpvecdigmuladd vp 2 (BitVec.ofNat 32 (qd + 1)) zeros) 3 up 3 then trial vp up qd else qd + 1

-- A digit of the quotient, and what is left of the `vn + 1` digits of `u`.
def mpdiv.digit (v : Vec) (vn : Nat) (u : Vec) : Vec × Digit :=
  -- D3: calculate trial divisor
  let qd := mpdigdiv (u.drop (vn - 1)) (v (vn - 1))
  -- D3a: rule out trial divisors 2 greater than real divisor
  let qd := if 1 < vn then BitVec.ofNat 32 (trial (v.drop (vn - 2)) (u.drop (vn - 2)) qd.toNat) else qd
  -- D4: u -= v*qd << j*Dbits
  let r := mpvecdigmulsub v vn qd u
  if r.snd < 0 then
    -- D6: trial divisor was too high
    (mpvecadd r.fst (vn + 1) v vn r.fst, qd - 1)
  else
    (r.fst, qd)

def mpdiv.loop (v : Vec) (vn : Nat) : Nat → Vec × Vec → Vec × Vec
  | 0,     r => r
  | i + 1, r =>
    let d := digit v vn (r.fst.drop i)
    loop v vn i ((r.fst.paste i d.fst).set (i + vn) 0, r.snd.set i d.snd)

-- The quotient and the remainder, where they are asked for. All four are distinct.
def mpdiv (dividend divisor : Mpint) (quotient remainder : Option Mpint) : Option (Option Mpint × Option Mpint) :=
  if divisor.top = 0 then
    none
  else if mpmagcmp dividend divisor < 0 then
    some (quotient.map (mpassign mpzero), remainder.map (mpassign dividend))
  else do
    -- D1: shift until divisor, v, has hi bit set
    let s ← mpdiv.shifts 32 (divisor.p (divisor.top - 1))
    let u := if s = 0 then mpassign dividend mpnew else mpleft dividend s mpnew
    let v := if s = 0 then divisor else mpleft divisor s mpnew
    -- D1a: make sure high digit of dividend is less than high digit of divisor
    let u :=
      if v.p (v.top - 1) ≤ u.p (u.top - 1) then { u with top := u.top + 1, p := u.p.set u.top 0 } else u
    let n := u.top - v.top
    let qp := match quotient with
      | some q => (mpbits q (n * 32)).p
      | none   => zeros
    let r := mpdiv.loop v.p v.top n (u.p, qp)
    let quotient := quotient.map fun q =>
      let q := mpnorm { q with top := n, p := r.snd }
      if dividend.sign ≠ divisor.sign then { q with sign := -1 } else q
    let remainder := remainder.map fun b =>
      { mpright { u with top := v.top, p := r.fst } s b with sign := dividend.sign }
    return (quotient, remainder)

section

variable {u v : Vec} {vn n i : Nat} {x y divisor : Digit}

-- What is left to divide by `divisor` before bit `i - 1` of the quotient is found.
structure mpdigdiv.Inv (divisor : Digit) (N i : Nat) (r : Rest) : Prop where
  val  : divisor.toNat * r.q.toNat + (r.hi.toNat * base + r.lo.toNat) = N
  lt   : r.hi.toNat * base + r.lo.toNat < divisor.toNat * 2 ^ i
  bits : 2 ^ i ∣ r.q.toNat
  x    : r.x.toNat = divisor.toNat / 2 ^ (32 - i)

theorem shifted_divisor (hi : i ≤ 32) (divisor : Digit) :
    divisor.toNat / 2 ^ (32 - i) * base + (divisor <<< i).toNat = divisor.toNat * 2 ^ i := by
  have hpow : base = 2 ^ (32 - i) * 2 ^ i := by
    rw [← pow_add, Nat.sub_add_cancel hi]
    rfl
  have hlow : (divisor <<< i).toNat = divisor.toNat * 2 ^ i % base := by
    rw [BitVec.toNat_shiftLeft, Nat.shiftLeft_eq]
    rfl
  have hhigh : divisor.toNat * 2 ^ i / base = divisor.toNat / 2 ^ (32 - i) := by
    rw [hpow, Nat.mul_div_mul_right _ _ (Nat.two_pow_pos i)]
  rw [hlow, ← hhigh, Nat.div_add_mod']

theorem or_bit (h : 2 ^ (i + 1) ∣ x.toNat) (hi : i < 32) : (x ||| (1 : Digit) <<< i).toNat = x.toNat + 2 ^ i := by
  obtain ⟨k, hk⟩ := h
  have hone : ((1 : Digit) <<< i).toNat = 2 ^ i := by
    rw [BitVec.toNat_shiftLeft, Nat.shiftLeft_eq]
    exact (congrArg (· % 2 ^ 32) (Nat.one_mul _)).trans (Nat.mod_eq_of_lt (Nat.pow_lt_pow_right (by decide) hi))
  have hlt : 2 ^ i < 2 ^ (i + 1) := Nat.pow_lt_pow_right (by decide) (Nat.lt_succ_self i)
  rw [BitVec.toNat_or, hone, hk, Nat.mul_comm, ← Nat.shiftLeft_eq, Nat.shiftLeft_add_eq_or_of_lt hlt]

theorem mpdigdiv.Inv.set {N : Nat} {r : Rest} {hi' lo' x' : Digit} (h : Inv divisor N (i + 1) r) (hi : i < 32)
    (hx : x'.toNat = divisor.toNat / 2 ^ (32 - i))
    (hsub : hi'.toNat * base + lo'.toNat + divisor.toNat * 2 ^ i = r.hi.toNat * base + r.lo.toNat) :
    Inv divisor N i { hi := hi', lo := lo', q := r.q ||| (1 : Digit) <<< i, x := x' } := by
  have hq := or_bit h.bits hi
  have hval := h.val
  have hlt := h.lt
  have hpow : divisor.toNat * 2 ^ (i + 1) = divisor.toNat * 2 ^ i + divisor.toNat * 2 ^ i := by ring
  refine ⟨?_, ?_, ?_, hx⟩
  case refine_1 =>
    rw [hq, Nat.mul_add]
    dsimp only
    omega
  case refine_2 =>
    dsimp only
    omega
  case refine_3 =>
    rw [hq]
    exact Nat.dvd_add ((Nat.pow_dvd_pow 2 (Nat.le_succ i)).trans h.bits) (Nat.dvd_refl _)

theorem sub_toNat (h : y.toNat ≤ x.toNat) : (x - y).toNat = x.toNat - y.toNat :=
  BitVec.toNat_sub_of_le h

theorem mpdigdiv.Inv.turn {N : Nat} {r : Rest} (h : Inv divisor N (i + 1) r) (hi : i < 32) :
    Inv divisor N i (mpdigdiv.turn divisor i r) := by
  have hx : (r.x >>> 1).toNat = divisor.toNat / 2 ^ (32 - i) := by
    rw [BitVec.toNat_ushiftRight, Nat.shiftRight_eq_div_pow, h.x, Nat.div_div_eq_div_mul, ← pow_add]
    congr 2
    omega
  have hshift := shifted_divisor hi.le divisor
  have hbits : 2 ^ i ∣ r.q.toNat := (Nat.pow_dvd_pow 2 (Nat.le_succ i)).trans h.bits
  rw [← hx] at hshift
  simp only [mpdigdiv.turn]
  generalize r.x >>> 1 = x', divisor <<< i = y' at *
  have hlo := r.lo.isLt
  have hy := y'.isLt
  have hlow := wrap_sub_lt r.lo y'
  rw [bit_toNat] at hlow
  split_ifs with hlt1 heq hlt2
  · rw [BitVec.lt_def] at hlt1
    refine ⟨h.val, ?_, hbits, hx⟩
    unfold base at *
    dsimp only
    omega
  · obtain ⟨rfl, hlt2⟩ := heq
    rw [BitVec.lt_def] at hlt2
    exact ⟨h.val, by dsimp only; omega, hbits, hx⟩
  · have hlt1 := Nat.le_of_not_lt hlt1
    have hne : x'.toNat ≠ r.hi.toNat := fun hxy => heq ⟨BitVec.eq_of_toNat_eq hxy, hlt2⟩
    have hone : (r.hi - 1).toNat = r.hi.toNat - 1 := sub_toNat (by simp; omega)
    have hhi : r.hi.toNat = (r.hi - 1 - x').toNat + x'.toNat + 1 := by
      rw [sub_toNat (by omega), hone]
      omega
    have hmul : r.hi.toNat * base = (r.hi - 1 - x').toNat * base + x'.toNat * base + base := by
      rw [← Nat.add_mul, ← Nat.succ_mul, Nat.succ_eq_add_one, ← hhi]
    rw [if_pos hlt2, Nat.mul_one] at hlow
    exact h.set hi hx (by omega)
  · have hlt1 := Nat.le_of_not_lt hlt1
    have hhi : r.hi.toNat = (r.hi - x').toNat + x'.toNat := by
      rw [sub_toNat hlt1]
      exact (Nat.sub_add_cancel hlt1).symm
    have hmul : r.hi.toNat * base = (r.hi - x').toNat * base + x'.toNat * base := by
      rw [← Nat.add_mul, ← hhi]
    rw [if_neg hlt2, Nat.mul_zero] at hlow
    exact h.set hi hx (by omega)

theorem mpdigdiv.Inv.loop {N : Nat} {r : Rest} (h : Inv divisor N i r) (hi : i ≤ 32) :
    (mpdigdiv.loop divisor i r).hi = 0 ∧
    divisor.toNat * (mpdigdiv.loop divisor i r).q.toNat + (mpdigdiv.loop divisor i r).lo.toNat = N := by
  have hend {r : Rest} {i : Nat} (h : Inv divisor N i r) (hzero : r.hi = 0) :
      r.hi = 0 ∧ divisor.toNat * r.q.toNat + r.lo.toNat = N := by
    have hval := h.val
    rw [hzero] at hval
    exact ⟨hzero, by simpa using hval⟩
  induction i generalizing r
  case zero      =>
    have hlt := h.lt
    have hdiv := divisor.isLt
    have hzero : r.hi.toNat = 0 := by
      rw [pow_zero] at hlt
      unfold base at hlt
      omega
    exact hend h (BitVec.eq_of_toNat_eq hzero)
  case succ i ih =>
    rw [mpdigdiv.loop]
    split
    case isTrue      => exact ih (h.turn hi) (by omega)
    case isFalse hhi => exact hend h (BitVec.eq_of_toNat_eq (Nat.eq_zero_of_not_pos hhi))

theorem val_two (p : Vec) : val p 2 = (p 1).toNat * base + (p 0).toNat := by
  rw [val_succ, val_succ, val_zero]
  ring

theorem mpdigdiv_of_lt {p : Vec} (h : (p 1).toNat < divisor.toNat) :
    (mpdigdiv p divisor).toNat = val p 2 / divisor.toNat := by
  have hpos : 0 < divisor.toNat := (Nat.zero_le _).trans_lt h
  have hle : ¬divisor ≤ p 1 := Nat.not_le_of_lt h
  have hne : divisor ≠ 0 := fun hzero => Nat.lt_irrefl 0 (by rw [hzero] at hpos; exact hpos)
  have hlow := (p 0).isLt
  have hlt : val p 2 < divisor.toNat * base := by
    have hmul := Nat.mul_le_mul_right base (Nat.succ_le_of_lt h)
    rw [val_two, Nat.succ_mul] at *
    unfold base at *
    omega
  have hinv : mpdigdiv.Inv divisor (val p 2) 32 ⟨p 1, p 0, 0, divisor⟩ := by
    refine ⟨by simp [val_two], ?_, by simp, by simp⟩
    rw [← val_two]
    exact hlt
  obtain ⟨-, hval⟩ := hinv.loop le_rfl
  rw [mpdigdiv, if_neg (not_or.mpr ⟨hle, hne⟩)]
  dsimp only
  generalize mpdigdiv.loop divisor 32 ⟨p 1, p 0, 0, divisor⟩ = r at hval
  have hquot : val p 2 / divisor.toNat = r.q.toNat + r.lo.toNat / divisor.toNat := by
    rw [← hval, Nat.mul_add_div hpos]
  rw [add_of_lt, BitVec.toNat_udiv, hquot]
  rw [BitVec.toNat_udiv, ← hquot, Nat.div_lt_iff_lt_mul hpos, Nat.mul_comm]
  exact hlt

theorem mpdigdiv_of_le {p : Vec} (h : divisor.toNat ≤ (p 1).toNat) : (mpdigdiv p divisor).toNat = base - 1 := by
  rw [mpdigdiv, if_pos (.inl h)]
  rfl

theorem val_above (p : Vec) (m n : Nat) : val p (m + n) / base ^ m = val (p.drop m) n :=
  Digits.val_div fun i _ => digit_lt p i

theorem window_lt (h : val (u.drop 1) vn < val v vn) : val u (vn + 1) < base * val v vn := by
  have hlow := (u 0).isLt
  have hmul := Nat.mul_le_mul_left base (Nat.succ_le_of_lt h)
  rw [Nat.add_comm vn 1, val_add, pow_one, val_one]
  rw [Nat.mul_succ] at hmul
  unfold base at *
  omega

-- A vector whose highest digit has its high bit.
def HiBit (v : Vec) (vn : Nat) : Prop :=
  0 < vn ∧ base ^ vn ≤ 2 * val v vn

theorem hiBit_of_le (hvn : 0 < vn) (h : 2 ^ 31 ≤ (v (vn - 1)).toNat) : HiBit v vn := by
  obtain ⟨m, rfl⟩ : ∃ m, vn = m + 1 := ⟨vn - 1, by omega⟩
  rw [Nat.add_sub_cancel] at h
  have hmul := Nat.mul_le_mul_right (base ^ m) h
  have htwo : base ^ (m + 1) = 2 * (2 ^ 31 * base ^ m) := by
    rw [pow_succ, base]
    ring
  refine ⟨hvn, ?_⟩
  rw [htwo, val_succ]
  omega

-- The trial divisor is not too low,
theorem le_mpdigdiv (hvn : 0 < vn) (h : val u (vn + 1) < base * val v vn) :
    val u (vn + 1) / val v vn ≤ (mpdigdiv (u.drop (vn - 1)) (v (vn - 1))).toNat := by
  obtain ⟨m, rfl⟩ : ∃ m, vn = m + 1 := ⟨vn - 1, by omega⟩
  rw [Nat.add_sub_cancel]
  have hle := Digits.le_trial (val_above u m 2) (val_above v m 1)
  rw [val_one] at hle
  rcases Nat.lt_or_ge ((u.drop m) 1).toNat (v m).toNat with hlt | hge
  · rw [mpdigdiv_of_lt hlt, Nat.le_div_iff_mul_le ((Nat.zero_le _).trans_lt hlt)]
    exact hle
  · rw [mpdigdiv_of_le hge]
    have hlt : val u (m + 1 + 1) / val v (m + 1) < base := Nat.div_lt_of_lt_mul (by rwa [Nat.mul_comm])
    omega

theorem mpdigdiv_mul_le {p : Vec} {d : Digit} : (mpdigdiv p d).toNat * d.toNat ≤ val p 2 := by
  rcases Nat.lt_or_ge (p 1).toNat d.toNat with hlt | hge
  · rw [mpdigdiv_of_lt hlt]
    exact Nat.div_mul_le_self ..
  · rw [mpdigdiv_of_le hge, val_two]
    calc (base - 1) * d.toNat ≤ base * (p 1).toNat := Nat.mul_le_mul (Nat.sub_le base 1) hge
      _ ≤ (p 1).toNat * base + (p 0).toNat := by rw [Nat.mul_comm]; exact Nat.le_add_right ..

-- and no more than two too high.
theorem mpdigdiv_le (hv : HiBit v vn) (u : Vec) :
    (mpdigdiv (u.drop (vn - 1)) (v (vn - 1))).toNat ≤ val u (vn + 1) / val v vn + 2 := by
  obtain ⟨hvn, hhigh⟩ := hv
  obtain ⟨m, rfl⟩ : ∃ m, vn = m + 1 := ⟨vn - 1, by omega⟩
  rw [Nat.add_sub_cancel]
  have hmul := @mpdigdiv_mul_le (u.drop m) (v m)
  refine Digits.trial_le (Nat.pow_pos base_pos) (val_above u m 2) (val_above v m 1) ?_ (BitVec.isLt _) ?_
  · rw [val_one]
    exact hmul
  · rw [pow_succ, Nat.mul_comm] at hhigh
    exact hhigh

theorem trial_spec (vp up : Vec) (k : Nat) (hk : k < base) :
    mpdiv.trial vp up k ≤ k ∧ mpdiv.trial vp up k * val vp 2 ≤ val up 3 ∧
    ∀ q ≤ k, q * val vp 2 ≤ val up 3 → q ≤ mpdiv.trial vp up k := by
  induction k
  case zero      => exact ⟨le_rfl, by simp [mpdiv.trial], fun q hq _ => hq⟩
  case succ k ih =>
    obtain ⟨hle, hmul, hmax⟩ := ih (by omega)
    have hdigit : (BitVec.ofNat 32 (k + 1)).toNat = k + 1 := Nat.mod_eq_of_lt hk
    have hval : val (mpvecdigmuladd vp 2 (BitVec.ofNat 32 (k + 1)) zeros) 3 = (k + 1) * val vp 2 := by
      rw [(mpvecdigmuladd_val vp 2 (BitVec.ofNat 32 (k + 1)) zeros).left, hdigit, val_zeros, Nat.add_zero, Nat.mul_comm]
    have hpos := @mpveccmp_pos (mpvecdigmuladd vp 2 (BitVec.ofNat 32 (k + 1)) zeros) up 3 3
    rw [hval] at hpos
    rw [mpdiv.trial]
    split
    case isTrue hhigh =>
      have hlt := hpos.mp hhigh
      refine ⟨by omega, hmul, fun q hq hqmul => hmax q ?_ hqmul⟩
      rcases Nat.le_succ_iff.mp hq with hq | rfl
      · exact hq
      · exact absurd hqmul (Nat.not_le_of_lt hlt)
    case isFalse hlow => exact ⟨le_rfl, Nat.le_of_not_lt (hpos.not.mp hlow), fun q hq _ => hq⟩

-- The trial divisor after its correction is no more than one too high.
def corrected (v : Vec) (vn : Nat) (u : Vec) : Digit :=
  let qd := mpdigdiv (u.drop (vn - 1)) (v (vn - 1))
  if 1 < vn then BitVec.ofNat 32 (mpdiv.trial (v.drop (vn - 2)) (u.drop (vn - 2)) qd.toNat) else qd

theorem corrected_bounds (hv : HiBit v vn) (h : val u (vn + 1) < base * val v vn) :
    val u (vn + 1) / val v vn ≤ (corrected v vn u).toNat ∧
    (corrected v vn u).toNat ≤ val u (vn + 1) / val v vn + 1 := by
  obtain ⟨hvn, hhigh⟩ := hv
  have hlow := le_mpdigdiv hvn h
  rw [corrected]
  have hqd := (mpdigdiv (u.drop (vn - 1)) (v (vn - 1))).isLt
  split
  case isTrue htwo =>
    obtain ⟨m, rfl⟩ : ∃ m, vn = m + 2 := ⟨vn - 2, by omega⟩
    obtain ⟨hle, hmul, hmax⟩ := trial_spec (v.drop m) (u.drop m) _ hqd
    have hdigit : (BitVec.ofNat 32
          (mpdiv.trial (v.drop m) (u.drop m) (mpdigdiv (u.drop (m + 2 - 1)) (v (m + 2 - 1))).toNat)).toNat
        = mpdiv.trial (v.drop m) (u.drop m) (mpdigdiv (u.drop (m + 2 - 1)) (v (m + 2 - 1))).toNat :=
      Nat.mod_eq_of_lt (hle.trans_lt hqd)
    rw [Nat.add_sub_cancel, hdigit]
    constructor
    case left  => exact hmax _ hlow (Digits.le_trial (val_above u m 3) (val_above v m 2))
    case right =>
      refine Digits.trial_le (Nat.pow_pos base_pos) (val_above u m 3) (val_above v m 2) hmul (hle.trans_lt hqd) ?_
      have hbase : base ^ (m + 2) = base * (base * base ^ m) := by ring
      have htwo : 2 * (base * base ^ m) ≤ base * (base * base ^ m) := Nat.mul_le_mul_right _ (by decide)
      change base * base ^ m ≤ 1 * val v (m + 2)
      omega
  case isFalse hone =>
    obtain rfl : vn = 1 := by omega
    have hlt : ((u.drop 0) 1).toNat < (v 0).toNat := by
      by_contra hge
      have hdrop : (u.drop 0) 1 = u 1 := congrArg u (Nat.zero_add 1)
      have hmul := Nat.mul_le_mul_right base (Nat.le_of_not_lt hge)
      rw [hdrop] at hmul
      rw [val_two, val_one, Nat.mul_comm base] at h
      omega
    have hdrop : u.drop 0 = u := funext fun i => congrArg u (Nat.zero_add i)
    have hquot := mpdigdiv_of_lt hlt
    rw [hdrop] at hquot
    rw [Nat.sub_self, hdrop, hquot, val_one]
    exact ⟨le_rfl, Nat.le_succ _⟩

theorem digit_eq (v : Vec) (vn : Nat) (u : Vec) : mpdiv.digit v vn u =
    if (mpvecdigmulsub v vn (corrected v vn u) u).snd < 0 then
      (mpvecadd (mpvecdigmulsub v vn (corrected v vn u) u).fst (vn + 1) v vn
        (mpvecdigmulsub v vn (corrected v vn u) u).fst,
        corrected v vn u - 1)
    else
      ((mpvecdigmulsub v vn (corrected v vn u) u).fst, corrected v vn u) :=
  rfl

theorem digit_val (hv : HiBit v vn) (h : val u (vn + 1) < base * val v vn) :
    (mpdiv.digit v vn u).snd.toNat = val u (vn + 1) / val v vn ∧
    val (mpdiv.digit v vn u).fst (vn + 1) = val u (vn + 1) % val v vn := by
  obtain ⟨hlow, hhigh⟩ := corrected_bounds hv h
  obtain ⟨hneg, hone, hsub, -⟩ := mpvecdigmulsub_val v vn (corrected v vn u) u
  have hdiv := Nat.div_add_mod (val u (vn + 1)) (val v vn)
  have hpos : 0 < val v vn := Nat.pos_of_ne_zero fun hzero => by rw [hzero] at h; omega
  have hmod := Nat.mod_lt (val u (vn + 1)) hpos
  rw [digit_eq]
  rcases Nat.le_succ_iff.mp hhigh with hc | hc
  · have hc : (corrected v vn u).toNat = val u (vn + 1) / val v vn := Nat.le_antisymm hc hlow
    have hle : ¬val u (vn + 1) < val v vn * (corrected v vn u).toNat := by
      rw [hc]
      omega
    have hnot : ¬(mpvecdigmulsub v vn (corrected v vn u) u).snd < 0 := by
      rw [hone.mpr (Nat.le_of_not_lt hle)]
      decide
    rw [if_neg hle, hc] at hsub
    rw [if_neg hnot]
    refine ⟨hc, ?_⟩
    dsimp only
    omega
  · have hc : (corrected v vn u).toNat = val u (vn + 1) / val v vn + 1 := hc
    have hlt : val u (vn + 1) < val v vn * (corrected v vn u).toNat := by
      rw [hc, Nat.mul_add, Nat.mul_one]
      omega
    have hneg : (mpvecdigmulsub v vn (corrected v vn u) u).snd < 0 := by
      rw [hneg.mpr hlt]
      decide
    rw [if_pos hlt, hc, Nat.mul_add, Nat.mul_one] at hsub
    rw [if_pos hneg]
    constructor
    case left  =>
      have hdown : (corrected v vn u - 1).toNat = (corrected v vn u).toNat - 1 :=
        sub_toNat (by rw [hc]; exact Nat.succ_pos _)
      rw [hdown, hc, Nat.add_sub_cancel]
    case right =>
      -- The add-back carries out of the digits that are left, as the subtraction borrowed.
      generalize (mpvecdigmulsub v vn (corrected v vn u) u).fst = w at hsub
      have hadd := (@mpvecadd_val w v (vn + 1) vn (Nat.le_succ vn) w).left
      have hback : val w (vn + 1) + val v vn = val u (vn + 1) % val v vn + base ^ (vn + 1) := by omega
      have hfit : val u (vn + 1) % val v vn < base ^ (vn + 1) :=
        (hmod.trans (val_lt v vn)).trans_le (Nat.pow_le_pow_right base_pos (Nat.le_succ vn))
      have hsum := congrArg (· % base ^ (vn + 1)) (hadd.trans hback)
      simp only [val_succ _ (vn + 1), Nat.add_mul_mod_self_right, Nat.add_mod_right] at hsum
      rw [Nat.mod_eq_of_lt (val_lt _ _), Nat.mod_eq_of_lt hfit] at hsum
      exact hsum

-- All the digits, where what is above the lowest `n` digits of `u` is less than the divisor.
theorem loop_val (hv : HiBit v vn) (n : Nat) (u q : Vec) (h : val (u.drop n) vn < val v vn) :
    val u (n + vn) = val v vn * val (mpdiv.loop v vn n (u, q)).snd n + val (mpdiv.loop v vn n (u, q)).fst vn ∧
    val (mpdiv.loop v vn n (u, q)).fst vn < val v vn ∧ Same n (mpdiv.loop v vn n (u, q)).snd q := by
  induction n generalizing u q
  case zero      =>
    have hdrop : u.drop 0 = u := funext fun i => congrArg u (Nat.zero_add i)
    rw [hdrop] at h
    exact ⟨by simp [mpdiv.loop], h, fun _ _ => rfl⟩
  case succ n ih =>
    have hdrop : (u.drop n).drop 1 = u.drop (n + 1) := funext fun i => congrArg u (Nat.add_assoc n 1 i).symm
    have hwindow : val (u.drop n) (vn + 1) < base * val v vn := window_lt (by rw [hdrop]; exact h)
    obtain ⟨hdigit, hrest⟩ := digit_val hv hwindow
    have hpos : 0 < val v vn := (Nat.zero_le _).trans_lt h
    have hdiv := Nat.div_add_mod (val (u.drop n) (vn + 1)) (val v vn)
    have hmod := Nat.mod_lt (val (u.drop n) (vn + 1)) hpos
    rw [mpdiv.loop]
    generalize mpdiv.digit v vn (u.drop n) = d at *
    have hbelow : val ((u.paste n d.fst).set (n + vn) 0) n = val u n := by
      rw [val_set_of_le (Nat.le_add_right n vn)]
      exact val_congr fun i hi => if_pos hi
    have habove : val (((u.paste n d.fst).set (n + vn) 0).drop n) vn = val (u.drop n) (vn + 1) % val v vn := by
      rw [← hrest, ← val_eq_of_lt (Nat.le_succ vn) (by rw [hrest]; exact hmod.trans (val_lt v vn))]
      refine val_congr fun i hi => ?_
      have hne : n + i ≠ n + vn := by omega
      rw [Vec.drop, Vec.set, Function.update_of_ne hne, Vec.paste, if_neg (by omega), Nat.add_sub_cancel_left]
    obtain ⟨hval, hlt, hsame⟩ := ih ((u.paste n d.fst).set (n + vn) 0) (q.set n d.snd) (by rw [habove]; exact hmod)
    have hset : (q.set n d.snd) n = d.snd := Function.update_self ..
    rw [val_add, hbelow, habove] at hval
    refine ⟨?_, hlt, fun i hi => ?_⟩
    · have hW : base ^ n * val (u.drop n) (vn + 1) = base ^ n * (val v vn * (val (u.drop n) (vn + 1) / val v vn)) +
          base ^ n * (val (u.drop n) (vn + 1) % val v vn) := by
        rw [← Nat.mul_add, hdiv]
      rw [val_succ, hsame n le_rfl, hset, hdigit, Nat.add_assoc, val_add, Nat.add_comm 1 vn, hW, Nat.mul_add,
        Nat.add_right_comm, ← hval]
      ring
    · rw [hsame i (by omega)]
      exact Function.update_of_ne (by omega) ..

theorem and_mpdighi (x : Digit) : x &&& mpdighi = 0 ↔ x.toNat < 2 ^ 31 := by
  have hhigh : mpdighi = BitVec.twoPow 32 31 := rfl
  have hmsb : x.getLsbD 31 = decide (2 ^ 31 ≤ x.toNat) :=
    (BitVec.msb_eq_getLsbD_last x).symm.trans (BitVec.msb_eq_decide x)
  rw [hhigh, BitVec.and_twoPow, hmsb]
  split
  case isTrue h  => exact iff_of_false (by decide) (Nat.not_lt_of_le (of_decide_eq_true h))
  case isFalse h => exact iff_of_true rfl (Nat.lt_of_not_le fun hle => h (decide_eq_true hle))

theorem shifts_spec (k : Nat) (hk : k ≤ 32) (qd : Digit) (h : 2 ^ (32 - k) ≤ qd.toNat) :
    ∃ s, mpdiv.shifts k qd = some s ∧ s < k ∧ 2 ^ 31 ≤ qd.toNat * 2 ^ s ∧ qd.toNat * 2 ^ s < base := by
  induction k generalizing qd
  case zero      => exact absurd h (Nat.not_le_of_lt qd.isLt)
  case succ k ih =>
    rw [mpdiv.shifts]
    split
    case isTrue hlow =>
      have hlow := (and_mpdighi qd).mp hlow
      have htwo : (qd <<< 1).toNat = qd.toNat * 2 := by
        rw [BitVec.toNat_shiftLeft, Nat.shiftLeft_eq, pow_one, Nat.mod_eq_of_lt (by omega)]
      have hpow : 2 ^ (32 - k) = 2 ^ (32 - (k + 1)) * 2 := by
        rw [← pow_succ]
        congr 1
        omega
      obtain ⟨s, hs, hsk, hle, hlt⟩ := ih (by omega) (qd <<< 1) (by rw [htwo, hpow]; exact Nat.mul_le_mul_right 2 h)
      rw [htwo, Nat.mul_assoc, ← pow_succ'] at hle hlt
      exact ⟨s + 1, by rw [hs]; rfl, by omega, hle, hlt⟩
    case isFalse hhigh =>
      refine ⟨0, rfl, Nat.succ_pos k, ?_, ?_⟩
      · rw [pow_zero, Nat.mul_one]
        exact Nat.le_of_not_lt ((and_mpdighi qd).not.mp hhigh)
      · rw [pow_zero, Nat.mul_one]
        exact qd.isLt

section

variable {b dividend divisor : Mpint} {s : Nat}

theorem shifted_dividend (hs : s < 32) (htop : 0 < b.top) :
    (if s = 0 then mpassign b mpnew else mpleft b s mpnew).mag = b.mag * 2 ^ s := by
  split
  case isTrue h  => rw [mpassign_mag, h, pow_zero, Nat.mul_one]
  case isFalse h => exact (mpleft_mag hs htop mpnew).left

theorem shifted_hiBit (hb : b.Normal) (htop : 0 < b.top) (hs : s < 32) (hle : 2 ^ 31 ≤ (b.p (b.top - 1)).toNat * 2 ^ s)
    (hlt : (b.p (b.top - 1)).toNat * 2 ^ s < base) :
    (if s = 0 then b else mpleft b s mpnew).mag = b.mag * 2 ^ s ∧
    (if s = 0 then b else mpleft b s mpnew).Normal ∧
    HiBit (if s = 0 then b else mpleft b s mpnew).p (if s = 0 then b else mpleft b s mpnew).top := by
  have hshift : (if s = 0 then b else mpleft b s mpnew).mag = b.mag * 2 ^ s ∧
      (if s = 0 then b else mpleft b s mpnew).Normal := by
    split
    case isTrue h  => exact ⟨by rw [h, pow_zero, Nat.mul_one], hb⟩
    case isFalse h => exact mpleft_mag hs htop mpnew
  generalize (if s = 0 then b else mpleft b s mpnew) = v at *
  obtain ⟨hmag, hv⟩ := hshift
  refine ⟨hmag, hv, ?_⟩
  obtain ⟨m, hm⟩ : ∃ m, b.top = m + 1 := ⟨b.top - 1, by omega⟩
  have hval : b.mag = val b.p m + (b.p m).toNat * base ^ m := by rw [Mpint.mag, hm, val_succ]
  have hlow := val_lt b.p m
  rw [hm, Nat.add_sub_cancel] at hle hlt
  generalize (b.p m).toNat = qd at *
  have hbase : base = 2 ^ (32 - s) * 2 ^ s := by
    rw [← pow_add, Nat.sub_add_cancel hs.le]
    rfl
  have hroom : (qd + 1) * 2 ^ s ≤ base := by
    rw [hbase] at hlt ⊢
    exact Nat.mul_le_mul_right _ (Nat.lt_of_mul_lt_mul_right hlt)
  have hupper : v.mag < base ^ (m + 1) := by
    calc v.mag = (val b.p m + qd * base ^ m) * 2 ^ s := by rw [hmag, hval]
      _ < (base ^ m + qd * base ^ m) * 2 ^ s := Nat.mul_lt_mul_of_pos_right (by omega) (Nat.two_pow_pos s)
      _ = (qd + 1) * 2 ^ s * base ^ m := by ring
      _ ≤ base * base ^ m := Nat.mul_le_mul_right _ hroom
      _ = base ^ (m + 1) := by rw [pow_succ, Nat.mul_comm]
  have hlower : 2 ^ 31 * base ^ m ≤ v.mag := by
    calc 2 ^ 31 * base ^ m ≤ qd * 2 ^ s * base ^ m := Nat.mul_le_mul_right _ hle
      _ = qd * base ^ m * 2 ^ s := by ring
      _ ≤ v.mag := by
          rw [hmag, hval]
          exact Nat.mul_le_mul_right _ (Nat.le_add_left _ _)
  have htop : v.top = m + 1 := by
    refine Nat.le_antisymm (hv.top_le hupper) (Nat.lt_of_not_le fun hle => ?_)
    have hpow : base ^ v.top ≤ base ^ m := Nat.pow_le_pow_right base_pos hle
    have hmag := v.mag_lt
    omega
  refine ⟨by omega, ?_⟩
  rw [Mpint.mag] at hlower
  rw [htop] at hlower ⊢
  have htwo : base ^ (m + 1) = 2 * (2 ^ 31 * base ^ m) := by
    rw [pow_succ, base]
    ring
  omega

theorem high_digits {u v : Mpint} (hv : 0 < v.top) (hnorm : v.Normal) (hle : v.top ≤ u.top) {u' : Mpint}
    (hu' : u' = if v.p (v.top - 1) ≤ u.p (u.top - 1) then { u with top := u.top + 1, p := u.p.set u.top 0 } else u) :
    u'.mag = u.mag ∧ v.top ≤ u'.top ∧ val (u'.p.drop (u'.top - v.top)) v.top < val v.p v.top := by
  have hhigh {u' : Mpint} (hle : v.top ≤ u'.top) (hlt : (u'.p (u'.top - 1)).toNat < (v.p (v.top - 1)).toNat) :
      val (u'.p.drop (u'.top - v.top)) v.top < val v.p v.top := by
    obtain ⟨m, hm⟩ : ∃ m, v.top = m + 1 := ⟨v.top - 1, by omega⟩
    rw [hm] at hle hlt ⊢
    refine val_lt_of_top_lt ?_
    have hindex : u'.top - (m + 1) + m = u'.top - 1 := by omega
    rw [Vec.drop, hindex]
    exact hlt
  subst hu'
  split
  case isTrue h  =>
    refine ⟨?_, hle.trans (Nat.le_succ _), hhigh (hle.trans (Nat.le_succ _)) ?_⟩
    · have hzero : (0 : Digit).toNat * base ^ u.top = 0 := Nat.zero_mul _
      rw [Mpint.mag, val_set_succ, hzero]
      rfl
    · have hset : (u.p.set u.top 0) u.top = 0 := Function.update_self ..
      rw [Nat.add_sub_cancel]
      dsimp only
      rw [hset]
      exact Nat.pos_of_ne_zero fun hzero => hnorm hv (BitVec.eq_of_toNat_eq hzero)
  case isFalse h => exact ⟨rfl, hle, hhigh hle (Nat.lt_of_not_le h)⟩

theorem shiftright_zero (hs : s < 32) (htop : 0 < b.top) (res : Mpint) (h : (shiftright b s res).mag = 0) :
    (shiftright b s res).p 0 = 0 := by
  have hd : s / 32 = 0 := Nat.div_eq_of_lt hs
  simp only [Mpint.mag, shiftright, hd, Nat.not_le_of_lt htop, if_false, Nat.zero_mul, Nat.sub_zero, normtop_val] at h ⊢
  have hlt : val (shiftright.digits b 0 s (mpbits res (b.top * 32 - s)).p) b.top < base ^ 0 := by
    rw [h]
    exact Nat.one_pos
  exact BitVec.eq_of_toNat_eq (Digits.eq_zero_of_val_lt base_pos hlt le_rfl htop)

theorem mpright_zero (hs : s < 32) (htop : 0 < b.top) (res : Mpint) (h : (mpright b s res).mag = 0) :
    (mpright b s res).p 0 = 0 := by
  rw [mpright, if_neg htop.ne', if_neg (by omega), Int.natAbs_natCast] at h ⊢
  exact shiftright_zero hs htop res h

-- What a quotient is, where it is asked for, and what a remainder is.
def Divided (dividend divisor : Mpint) (old new : Option Mpint) : Prop :=
  new.isSome = old.isSome ∧ ∀ b ∈ new, b.Normal ∧ b.mag = dividend.mag / divisor.mag ∧
    ((∀ q ∈ old, q.sign = 1) → b.sign = if b.mag ≠ 0 ∧ dividend.sign ≠ divisor.sign then -1 else 1)

def Remains (dividend divisor : Mpint) (old new : Option Mpint) : Prop :=
  new.isSome = old.isSome ∧ ∀ b ∈ new, b.Normal ∧ b.mag = dividend.mag % divisor.mag ∧ b.sign = dividend.sign ∧
    ((dividend.top = 0 → ∀ r ∈ old, r.p 0 = 0) → b.mag = 0 → b.p 0 = 0)

theorem mpdiv_spec (quotient remainder : Option Mpint) (hdividend : dividend.Normal) (hdivisor : divisor.Normal)
    (htop : 0 < divisor.top) : ∃ q r, mpdiv dividend divisor quotient remainder = some (q, r) ∧
      Divided dividend divisor quotient q ∧ Remains dividend divisor remainder r := by
  rw [mpdiv, if_neg htop.ne']
  split
  case isTrue hlt  =>
    have hlt := (mpmagcmp_neg hdividend hdivisor).mp hlt
    refine ⟨_, _, rfl, ⟨Option.isSome_map .., ?_⟩, ⟨Option.isSome_map .., ?_⟩⟩
    · intro b hb
      obtain ⟨q, -, rfl⟩ := Option.mem_map.mp hb
      have hmag := mpassign_mag mpzero q
      refine ⟨mpassign_normal (fun h => absurd h (Nat.lt_irrefl 0)) q, ?_, fun _ => ?_⟩
      · rw [Nat.div_eq_of_lt hlt]
        exact hmag
      · rw [if_neg fun h => h.left hmag]
        rfl
    · intro b hb
      obtain ⟨r, hr, rfl⟩ := Option.mem_map.mp hb
      have hmag := mpassign_mag dividend r
      refine ⟨mpassign_normal hdividend r, ?_, rfl, fun hzero hmag' => ?_⟩
      · rw [Nat.mod_eq_of_lt hlt]
        exact hmag
      · have htop := hdividend.top_eq_zero.mpr (hmag.symm.trans hmag')
        simp only [mpassign, mpbits, htop, Nat.not_lt_zero, if_false]
        exact hzero htop r hr
  case isFalse hge =>
    have hge := Nat.le_of_not_lt ((mpmagcmp_neg hdividend hdivisor).not.mp hge)
    have hdtop : 0 < dividend.top := by
      refine Nat.pos_of_ne_zero fun hzero => ?_
      have hmag := hdivisor.top_eq_zero
      have hmag' := hdividend.top_eq_zero
      omega
    have hqd : 2 ^ (32 - 32) ≤ (divisor.p (divisor.top - 1)).toNat :=
      Nat.pos_of_ne_zero fun hzero => hdivisor htop (BitVec.eq_of_toNat_eq hzero)
    obtain ⟨s, hs, hs32, hle, hlt⟩ := shifts_spec 32 le_rfl _ hqd
    obtain ⟨hvmag, hvnorm, hvhi⟩ := shifted_hiBit hdivisor htop hs32 hle hlt
    have humag := shifted_dividend hs32 hdtop
    simp only [hs, Option.bind_eq_bind, Option.bind_some]
    generalize (if s = 0 then divisor else mpleft divisor s mpnew) = v,
      (if s = 0 then mpassign dividend mpnew else mpleft dividend s mpnew) = u at *
    generalize hu' : (if v.p (v.top - 1) ≤ u.p (u.top - 1) then
      ({ u with top := u.top + 1, p := u.p.set u.top 0 } : Mpint) else u) = u'
    have htops : v.top ≤ u.top := by
      by_contra hless
      have hmag := hvnorm.mag_lt_of_top_lt (Nat.lt_of_not_le hless)
      rw [hvmag, humag] at hmag
      exact Nat.not_le_of_lt hmag (Nat.mul_le_mul_right _ hge)
    obtain ⟨hmag', hle', hhigh⟩ := high_digits hvhi.left hvnorm htops hu'.symm
    generalize (match quotient with
      | some q => (mpbits q ((u'.top - v.top) * 32)).p
      | none   => zeros) = qp
    obtain ⟨hval, hrest, -⟩ := loop_val hvhi (u'.top - v.top) u'.p qp hhigh
    generalize mpdiv.loop v.p v.top (u'.top - v.top) (u'.p, qp) = r at *
    rw [Nat.sub_add_cancel hle'] at hval
    have hpow : 0 < 2 ^ s := Nat.two_pow_pos s
    have hvpos : 0 < divisor.mag * 2 ^ s := by
      rw [← hvmag]
      exact (Nat.zero_le _).trans_lt hrest
    have hunique := @Nat.div_mod_unique _ (dividend.mag * 2 ^ s) (val r.snd (u'.top - v.top)) (val r.fst v.top) hvpos
    rw [Nat.mul_div_mul_right _ _ hpow, Nat.mul_mod_mul_right] at hunique
    obtain ⟨hquot, hrem⟩ := hunique.mpr (by
      rw [← hvmag, ← humag, ← hmag']
      exact ⟨by rw [Nat.add_comm]; exact hval.symm, hrest⟩)
    refine ⟨_, _, rfl, ⟨Option.isSome_map .., ?_⟩, ⟨Option.isSome_map .., ?_⟩⟩
    · intro b hb
      obtain ⟨q, hq, rfl⟩ := Option.mem_map.mp hb
      have hnorm := mpnorm_normal { q with top := u'.top - v.top, p := r.snd }
      have hmag := mpnorm_mag { q with top := u'.top - v.top, p := r.snd }
      have hqsign := mpnorm_sign { q with top := u'.top - v.top, p := r.snd }
      generalize mpnorm { q with top := u'.top - v.top, p := r.snd } = q' at *
      have hmag := hmag.trans hquot.symm
      have hpos : q'.mag ≠ 0 := by
        rw [hmag]
        exact (Nat.div_pos hge (Nat.pos_of_mul_pos_right hvpos)).ne'
      split
      case isTrue hne   => exact ⟨hnorm, hmag, fun _ => (if_pos ⟨hpos, hne⟩).symm⟩
      case isFalse heq =>
        refine ⟨hnorm, hmag, fun hold => ?_⟩
        rw [if_neg (fun h => heq h.right : ¬(q'.mag ≠ 0 ∧ dividend.sign ≠ divisor.sign)), hqsign]
        split
        · rfl
        · exact hold q hq
    · intro b hb
      obtain ⟨b, -, rfl⟩ := Option.mem_map.mp hb
      obtain ⟨hmag, hnorm⟩ := @mpright_mag { u' with top := v.top, p := r.fst } s hs32 hvhi.left b
      have hzero := @mpright_zero { u' with top := v.top, p := r.fst } s hs32 hvhi.left b
      refine ⟨hnorm, hmag.trans ?_, rfl, fun _ => hzero⟩
      rw [Mpint.mag, ← hrem, Nat.mul_div_cancel _ hpow]

-- What a result is, where it is asked for.
def Result (old : Option Mpint) (x : Nat) (new : Option Mpint) : Prop :=
  new.isSome = old.isSome ∧ ∀ b ∈ new, b.Normal ∧ b.sign = 1 ∧ b.mag = x

theorem mpdiv_result {quotient remainder : Option Mpint} (hdividend : dividend.Normal) (hdivisor : divisor.Normal)
    (htop : 0 < divisor.top) (hsign : dividend.sign = 1) (hsign' : divisor.sign = 1)
    (hquotient : ∀ q ∈ quotient, q.sign = 1) :
    ∃ q r, mpdiv dividend divisor quotient remainder = some (q, r) ∧
      Result quotient (dividend.mag / divisor.mag) q ∧ Result remainder (dividend.mag % divisor.mag) r := by
  obtain ⟨q, r, hdiv, ⟨hqsome, hq⟩, ⟨hrsome, hr⟩⟩ := mpdiv_spec quotient remainder hdividend hdivisor htop
  refine ⟨q, r, hdiv, ⟨hqsome, fun b hb => ?_⟩, ⟨hrsome, fun b hb => ?_⟩⟩
  · obtain ⟨hnorm, hmag, hqsign⟩ := hq b hb
    refine ⟨hnorm, (hqsign hquotient).trans (if_neg fun h => ?_), hmag⟩
    exact h.right (hsign.trans hsign'.symm)
  · obtain ⟨hnorm, hmag, hrsign, -⟩ := hr b hb
    exact ⟨hnorm, hrsign.trans hsign, hmag⟩

end

-- Multiplication and division are exact, for vectors of all lengths.
structure Exact : Prop where
  mul       : ∀ a alen b blen p, (∀ i < alen + blen, p i = 0) → ∃ m, ∀ k ≥ m,
    ∃ r, mpvecmul k a alen b blen p = some r ∧ val r (alen + blen) = val a alen * val b blen ∧ Same (alen + blen) r p
  mpmul     : ∀ b1 b2 prod : Mpint, ∃ m, ∀ k ≥ m, ∃ r, mpmul k b1 b2 prod = some r ∧ r.Normal ∧
    r.mag = b1.mag * b2.mag ∧ r.sign = if b1.mag * b2.mag = 0 then 1 else b1.sign * b2.sign
  div       : ∀ (dividend divisor : Mpint) (quotient remainder : Option Mpint), dividend.Normal → divisor.Normal →
    divisor.mag ≠ 0 → dividend.sign = 1 → divisor.sign = 1 → (∀ q ∈ quotient, q.sign = 1) →
    ∃ q r, mpdiv dividend divisor quotient remainder = some (q, r) ∧
      Result quotient (dividend.mag / divisor.mag) q ∧ Result remainder (dividend.mag % divisor.mag) r
  -- The quotient digit is at its place where what is above it is less than the divisor.
  digdiv_ge : ∀ u v vn, 0 < vn → val (u.drop 1) vn < val v vn →
    val u (vn + 1) / val v vn ≤ (mpdigdiv (u.drop (vn - 1)) (v (vn - 1))).toNat
  digdiv_le : ∀ u v vn, 0 < vn → 2 ^ 31 ≤ (v (vn - 1)).toNat →
    (mpdigdiv (u.drop (vn - 1)) (v (vn - 1))).toNat ≤ val u (vn + 1) / val v vn + 2
  digmulsub : ∀ b n m p, ((mpvecdigmulsub b n m p).snd < 0 ↔ val p (n + 1) < val b n * m.toNat) ∧
    val (mpvecdigmulsub b n m p).fst (n + 1) + val b n * m.toNat =
      val p (n + 1) + (if val p (n + 1) < val b n * m.toNat then base ^ (n + 1) else 0)
  digit     : ∀ u v vn, 0 < vn → 2 ^ 31 ≤ (v (vn - 1)).toNat → val (u.drop 1) vn < val v vn →
    (mpdiv.digit v vn u).snd.toNat = val u (vn + 1) / val v vn ∧
    val (mpdiv.digit v vn u).fst (vn + 1) = val u (vn + 1) % val v vn

end

end Libmp
