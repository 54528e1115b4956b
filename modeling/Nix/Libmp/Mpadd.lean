import Nix.Libmp.Mpdiv

-- Numbers with a sign: sums, differences and products, and what is left of a division.
namespace Libmp

def mpmagadd (b1 b2 sum : Mpint) : Mpint :=
  let (b1, b2) := if b1.top < b2.top then (b2, b1) else (b1, b2)
  let n := b1.top
  let m := b2.top
  if n = 0 then
    mpassign mpzero sum
  else if m = 0 then
    mpassign b1 sum
  else
    let sum := mpbits sum ((n + 1) * 32)
    mpnorm { sign := 1, top := n + 1, p := mpvecadd b1.p n b2.p m sum.p }

def mpmagsub (b1 b2 diff : Mpint) : Mpint :=
  let (sign, b1, b2) : Int × Mpint × Mpint := if mpmagcmp b1 b2 < 0 then (-1, b2, b1) else (1, b1, b2)
  let n := b1.top
  let m := b2.top
  if m = 0 then
    { mpassign b1 diff with sign }
  else
    let diff := mpbits diff (n * 32)
    mpnorm { sign, top := n, p := mpvecsub b1.p n b2.p m diff.p }

def mpadd (b1 b2 sum : Mpint) : Mpint :=
  if b1.sign ≠ b2.sign then
    if b1.sign < 0 then mpmagsub b2 b1 sum else mpmagsub b1 b2 sum
  else
    let sign := b1.sign
    let sum := mpmagadd b1 b2 sum
    if sum.top ≠ 0 then { sum with sign } else sum

def mpsub (b1 b2 diff : Mpint) : Mpint :=
  if b1.sign ≠ b2.sign then
    let sign := b1.sign
    { mpmagadd b1 b2 diff with sign }
  else
    let sign := b1.sign
    let diff := mpmagsub b1 b2 diff
    if diff.top ≠ 0 then { diff with sign := diff.sign * sign } else diff

def mpcmp (b1 b2 : Mpint) : Int :=
  if b1.sign ≠ b2.sign then b1.sign - b2.sign
  else if b1.sign < 0 then mpmagcmp b2 b1
  else mpmagcmp b1 b2

def mpcopy (old : Mpint) : Mpint :=
  mpassign old mpnew

def mpone : Mpint :=
  ⟨1, 1, zeros.set 0 1⟩

-- What is left of a division, in `remainder`, or in `b` itself where `same` holds. There the sign is taken from what has
-- been shifted to `b` already.
def mpmod.rest (same : Bool) (b m remainder : Mpint) : Option Mpint :=
  match mpdiv b m none (some remainder) with
  | some (_, some r) => some (if same ∧ ¬mpmagcmp b m < 0 ∧ r.top = 0 then { r with sign := 1 } else r)
  | _                => none

def mpmod (same : Bool) (b m remainder : Mpint) : Option Mpint := do
  let r ← mpmod.rest same b m remainder
  return if r.sign < 0 then mpadd m r r else r

namespace Mpint

-- A number as the other functions leave it.
structure Normalised (b : Mpint) : Prop where
  normal : b.Normal
  sign   : b.sign = 1 ∨ b.sign = -1
  zero   : b.top = 0 → b.sign = 1

def value (b : Mpint) : Int :=
  b.sign * b.mag

end Mpint

section

variable {b b1 b2 m : Mpint}

-- Addition

theorem mpmagadd_longer (h1 : b1.Normal) (hlen : ¬b1.top < b2.top) (sum : Mpint) :
    (mpmagadd b1 b2 sum).mag = b1.mag + b2.mag ∧ (mpmagadd b1 b2 sum).Normal ∧
    (b1.sign = 1 → (mpmagadd b1 b2 sum).sign = 1) := by
  rw [mpmagadd, if_neg hlen]
  dsimp only
  by_cases hn : b1.top = 0
  · have hm : b2.top = 0 := by omega
    rw [if_pos hn]
    refine ⟨?_, mpassign_normal (fun h => absurd h (Nat.lt_irrefl 0)) sum, fun _ => rfl⟩
    rw [mpassign_mag, Mpint.mag, Mpint.mag, Mpint.mag, hn, hm]
    simp only [val_zero]
    exact val_zeros 0
  · rw [if_neg hn]
    by_cases hm : b2.top = 0
    · rw [if_pos hm]
      refine ⟨?_, mpassign_normal h1 sum, id⟩
      have hzero : b2.mag = 0 := by rw [Mpint.mag, hm, val_zero]
      rw [mpassign_mag, hzero, Nat.add_zero]
    · rw [if_neg hm]
      refine ⟨?_, mpnorm_normal _, fun _ => ?_⟩
      · rw [mpnorm_mag]
        exact (mpvecadd_val (Nat.le_of_not_lt hlen) _).left
      · rw [mpnorm_sign, ite_self]

theorem mpmagadd_spec (h1 : b1.Normal) (h2 : b2.Normal) (hsign1 : b1.sign = 1) (hsign2 : b2.sign = 1) (sum : Mpint) :
    (mpmagadd b1 b2 sum).mag = b1.mag + b2.mag ∧ (mpmagadd b1 b2 sum).Normal ∧ (mpmagadd b1 b2 sum).sign = 1 := by
  by_cases hlen : b1.top < b2.top
  · have hswap : mpmagadd b1 b2 sum = mpmagadd b2 b1 sum := by
      rw [mpmagadd, mpmagadd, if_pos hlen, if_neg (Nat.lt_asymm hlen)]
    obtain ⟨hmag, hnorm, hsign⟩ := mpmagadd_longer h2 (Nat.lt_asymm hlen) sum
    rw [hswap, Nat.add_comm]
    exact ⟨hmag, hnorm, hsign hsign2⟩
  · obtain ⟨hmag, hnorm, hsign⟩ := mpmagadd_longer h1 hlen sum
    exact ⟨hmag, hnorm, hsign hsign1⟩

theorem mpadd_spec (h1 : b1.Normal) (h2 : b2.Normal) (hsign1 : b1.sign = 1) (hsign2 : b2.sign = 1) (sum : Mpint) :
    (mpadd b1 b2 sum).mag = b1.mag + b2.mag ∧ (mpadd b1 b2 sum).Normal ∧ (mpadd b1 b2 sum).sign = 1 := by
  obtain ⟨hmag, hnorm, hsign⟩ := mpmagadd_spec h1 h2 hsign1 hsign2 sum
  rw [mpadd, if_neg (by rw [hsign1, hsign2]; decide)]
  dsimp only
  split
  case isTrue  => exact ⟨hmag, hnorm, hsign1⟩
  case isFalse => exact ⟨hmag, hnorm, hsign⟩

-- What a number is

theorem Mpint.Normalised.of_mag (hnorm : b.Normal) (hsign : b.sign = 1 ∨ b.sign = -1) (hzero : b.mag = 0 → b.sign = 1) :
    b.Normalised :=
  ⟨hnorm, hsign, fun htop => hzero (hnorm.top_eq_zero.mp htop)⟩

theorem Mpint.Normalised.mag_ne_zero (h : b.Normalised) (hsign : b.sign ≠ 1) : b.mag ≠ 0 :=
  fun hmag => hsign (h.zero (h.normal.top_eq_zero.mpr hmag))

theorem Mpint.Normalised.value_eq_zero (h : b.Normalised) : b.value = 0 ↔ b.top = 0 := by
  rw [h.normal.top_eq_zero, value, Int.mul_eq_zero, Int.natCast_eq_zero]
  exact or_iff_right (by rcases h.sign with hsign | hsign <;> rw [hsign] <;> decide)

theorem Mpint.Normalised.value_of_nonneg (h : b.Normalised) (hnonneg : 0 ≤ b.value) : b.sign = 1 ∧ b.value = b.mag := by
  rcases h.sign with hsign | hsign
  · exact ⟨hsign, by rw [value, hsign, Int.one_mul]⟩
  · have hne := h.mag_ne_zero (by rw [hsign]; decide)
    rw [value, hsign] at hnonneg
    omega

-- Sums of magnitudes, and differences

theorem mpmagadd_sign (h1 : b1.Normal) (h2 : b2.Normal) (sum : Mpint) (hzero : b1.mag + b2.mag = 0) :
    (mpmagadd b1 b2 sum).sign = 1 := by
  have htop1 := h1.top_eq_zero.mpr (Nat.eq_zero_of_add_eq_zero_right hzero)
  have htop2 := h2.top_eq_zero.mpr (Nat.eq_zero_of_add_eq_zero_left hzero)
  rw [mpmagadd, if_neg (by omega)]
  dsimp only
  rw [if_pos htop1]
  rfl

theorem mpmagadd_mag (h1 : b1.Normal) (h2 : b2.Normal) (sum : Mpint) :
    (mpmagadd b1 b2 sum).mag = b1.mag + b2.mag ∧ (mpmagadd b1 b2 sum).Normal := by
  by_cases hlen : b1.top < b2.top
  · have hswap : mpmagadd b1 b2 sum = mpmagadd b2 b1 sum := by
      rw [mpmagadd, mpmagadd, if_pos hlen, if_neg (Nat.lt_asymm hlen)]
    obtain ⟨hmag, hnorm, -⟩ := mpmagadd_longer h2 (Nat.lt_asymm hlen) sum
    rw [hswap, Nat.add_comm]
    exact ⟨hmag, hnorm⟩
  · obtain ⟨hmag, hnorm, -⟩ := mpmagadd_longer h1 hlen sum
    exact ⟨hmag, hnorm⟩

theorem magsub_ordered {sign : Int} (h1 : b1.Normal) (h2 : b2.Normal) (hle : b2.mag ≤ b1.mag) (diff : Mpint) {d : Mpint}
    (hd : d = if b2.top = 0 then { mpassign b1 diff with sign }
      else mpnorm { sign, top := b1.top, p := mpvecsub b1.p b1.top b2.p b2.top (mpbits diff (b1.top * 32)).p }) :
    d.mag = b1.mag - b2.mag ∧ d.Normal ∧ (d.mag ≠ 0 → d.sign = sign) ∧ (d.mag = 0 → d.sign = sign ∨ d.sign = 1) := by
  have htop := h2.top_le (hle.trans_lt b1.mag_lt)
  subst hd
  split
  case isTrue hzero  =>
    have hmag := mpassign_mag b1 diff
    have hnone := h2.top_eq_zero.mp hzero
    exact ⟨hmag.trans (by rw [hnone, Nat.sub_zero]), mpassign_normal h1 diff, fun _ => rfl, fun _ => .inl rfl⟩
  case isFalse hne   =>
    obtain ⟨hval, -⟩ := mpvecsub_val (Nat.max_eq_left htop) hle (mpbits diff (b1.top * 32)).p
    generalize mpvecsub b1.p b1.top b2.p b2.top (mpbits diff (b1.top * 32)).p = q at *
    have hmag : val q b1.top = b1.mag - b2.mag := by
      rw [Mpint.mag, Mpint.mag]
      omega
    have hsign := mpnorm_sign { sign, top := b1.top, p := q }
    have hmag' : (mpnorm { sign, top := b1.top, p := q }).mag = val q b1.top := mpnorm_mag _
    refine ⟨hmag'.trans hmag, mpnorm_normal _, fun hne0 => ?_, fun hzero => ?_⟩
    · rw [hsign]
      exact if_neg fun h => hne0 (hmag'.trans h)
    · refine .inr ?_
      rw [hsign]
      exact if_pos (hmag'.symm.trans hzero)

theorem mpmagsub_spec (h1 : b1.Normal) (h2 : b2.Normal) (diff : Mpint) :
    (mpmagsub b1 b2 diff).Normalised ∧ (mpmagsub b1 b2 diff).value = b1.mag - b2.mag := by
  have hcmp := mpmagcmp_neg h1 h2
  by_cases hlt : b1.mag < b2.mag
  · have hsub : mpmagsub b1 b2 diff = if b1.top = 0 then { mpassign b2 diff with sign := -1 }
        else mpnorm { sign := -1, top := b2.top, p := mpvecsub b2.p b2.top b1.p b1.top (mpbits diff (b2.top * 32)).p } := by
      rw [mpmagsub, if_pos (hcmp.mpr hlt)]
    obtain ⟨hmag, hnorm, hsign, -⟩ := magsub_ordered h2 h1 hlt.le diff hsub
    have hsign := hsign (by omega)
    refine ⟨.of_mag hnorm (.inr hsign) (fun h => by omega), ?_⟩
    rw [Mpint.value, hsign, hmag]
    omega
  · have hsub : mpmagsub b1 b2 diff = if b2.top = 0 then { mpassign b1 diff with sign := 1 }
        else mpnorm { sign := 1, top := b1.top, p := mpvecsub b1.p b1.top b2.p b2.top (mpbits diff (b1.top * 32)).p } := by
      rw [mpmagsub, if_neg (hcmp.not.mpr hlt)]
    obtain ⟨hmag, hnorm, hsign, hzero⟩ := magsub_ordered h1 h2 (Nat.le_of_not_lt hlt) diff hsub
    have hone : (mpmagsub b1 b2 diff).sign = 1 := by
      by_cases hmag0 : (mpmagsub b1 b2 diff).mag = 0
      · exact (hzero hmag0).elim id id
      · exact hsign hmag0
    refine ⟨.of_mag hnorm (.inl hone) fun _ => hone, ?_⟩
    rw [Mpint.value, hone, hmag]
    omega

-- Sums, differences and products

theorem mpadd_value (h1 : b1.Normalised) (h2 : b2.Normalised) (sum : Mpint) :
    (mpadd b1 b2 sum).Normalised ∧ (mpadd b1 b2 sum).value = b1.value + b2.value := by
  rw [mpadd]
  split
  case isTrue hne  =>
    split
    case isTrue hneg  =>
      have hsign1 : b1.sign = -1 := h1.sign.resolve_left fun h => absurd hneg (by rw [h]; decide)
      have hsign2 : b2.sign = 1 := h2.sign.resolve_right fun h => hne (hsign1.trans h.symm)
      obtain ⟨hnorm, hvalue⟩ := mpmagsub_spec h2.normal h1.normal sum
      refine ⟨hnorm, ?_⟩
      rw [hvalue, Mpint.value, Mpint.value, hsign1, hsign2]
      omega
    case isFalse hpos =>
      have hsign1 : b1.sign = 1 := h1.sign.resolve_right fun h => hpos (by rw [h]; decide)
      have hsign2 : b2.sign = -1 := h2.sign.resolve_left fun h => hne (hsign1.trans h.symm)
      obtain ⟨hnorm, hvalue⟩ := mpmagsub_spec h1.normal h2.normal sum
      refine ⟨hnorm, ?_⟩
      rw [hvalue, Mpint.value, Mpint.value, hsign1, hsign2]
      omega
  case isFalse heq =>
    have heq := not_not.mp heq
    obtain ⟨hmag, hnorm⟩ := mpmagadd_mag h1.normal h2.normal sum
    have hzero := mpmagadd_sign h1.normal h2.normal sum
    have htop := hnorm.top_eq_zero
    have hvalue : b1.value + b2.value = b1.sign * ((b1.mag + b2.mag : Nat) : Int) := by
      rw [Mpint.value, Mpint.value, ← heq, Int.natCast_add, Int.mul_add]
    rw [hvalue, ← hmag]
    rw [← hmag] at hzero
    dsimp only
    split
    case isTrue hne   => exact ⟨.of_mag hnorm h1.sign fun h => absurd (htop.mpr h) hne, rfl⟩
    case isFalse hnil =>
      have hnone := htop.mp (not_not.mp hnil)
      refine ⟨.of_mag hnorm (.inl (hzero hnone)) hzero, ?_⟩
      rw [Mpint.value, hnone, Int.natCast_zero, Int.mul_zero, Int.mul_zero]

theorem mpsub_value (h1 : b1.Normalised) (h2 : b2.Normalised) (diff : Mpint) :
    (mpsub b1 b2 diff).Normalised ∧ (mpsub b1 b2 diff).value = b1.value - b2.value := by
  rw [mpsub]
  split
  case isTrue hne  =>
    obtain ⟨hmag, hnorm⟩ := mpmagadd_mag h1.normal h2.normal diff
    have hpos : b1.mag ≠ 0 ∨ b2.mag ≠ 0 := by
      by_contra hzero
      push Not at hzero
      exact hne ((h1.zero (h1.normal.top_eq_zero.mpr hzero.left)).trans
        (h2.zero (h2.normal.top_eq_zero.mpr hzero.right)).symm)
    have hsign2 : b2.sign = -b1.sign := by
      rcases h1.sign with hsign1 | hsign1
      · exact (h2.sign.resolve_left fun h => hne (hsign1.trans h.symm)).trans (by rw [hsign1])
      · exact (h2.sign.resolve_right fun h => hne (hsign1.trans h.symm)).trans (by rw [hsign1]; rfl)
    refine ⟨.of_mag hnorm h1.sign fun hzero => ?_, ?_⟩
    · have hzero := hmag.symm.trans hzero
      omega
    · have hvalue : b1.sign * ((mpmagadd b1 b2 diff).mag : Int) = b1.value - b2.value := by
        rw [hmag, Mpint.value, Mpint.value, hsign2, Int.natCast_add, Int.mul_add, Int.neg_mul, Int.sub_neg]
      exact hvalue
  case isFalse heq =>
    have heq := not_not.mp heq
    obtain ⟨hnorm, hvalue⟩ := mpmagsub_spec h1.normal h2.normal diff
    have hdiff : b1.value - b2.value = b1.sign * (mpmagsub b1 b2 diff).value := by
      rw [hvalue, Mpint.value, Mpint.value, ← heq, Int.mul_sub]
    rw [hdiff]
    generalize mpmagsub b1 b2 diff = d at *
    dsimp only
    split
    case isTrue hne   =>
      have hmag := hnorm.normal.top_eq_zero.not.mp hne
      refine ⟨.of_mag hnorm.normal ?_ fun h => absurd h hmag, ?_⟩
      · rcases hnorm.sign with hd | hd <;> rcases h1.sign with h | h <;> simp [hd, h]
      · exact (congrArg (· * (d.mag : Int)) (Int.mul_comm ..)).trans (Int.mul_assoc ..)
    case isFalse hnil =>
      have hzero := (hnorm.value_eq_zero).mpr (not_not.mp hnil)
      exact ⟨hnorm, by rw [hzero, Int.mul_zero]⟩

theorem mpmul_value {k : Nat} (hk1 : b1.top < k) (hk2 : b2.top < k) (h1 : b1.Normalised) (h2 : b2.Normalised) (prod : Mpint) :
    ∃ r, mpmul k b1 b2 prod = some r ∧ r.Normalised ∧ r.value = b1.value * b2.value := by
  obtain ⟨r, hr, hnorm, hmag, hsign⟩ := mpmul_mag hk1 hk2 prod
  refine ⟨r, hr, .of_mag hnorm ?_ fun h => ?_, ?_⟩
  · rw [hsign]
    split
    · exact .inl rfl
    · rcases h1.sign with h | h <;> rcases h2.sign with h' | h' <;> simp [h, h']
  · rw [hsign, ← hmag, if_pos h]
  · rw [Mpint.value, hsign, hmag]
    split
    case isTrue hzero =>
      rw [hzero, Mpint.value, Mpint.value]
      rcases Nat.mul_eq_zero.mp hzero with h | h <;> simp [h]
    case isFalse      =>
      rw [Mpint.value, Mpint.value, Int.natCast_mul]
      ring

theorem mpmagcmp_pos (h1 : b1.Normal) (h2 : b2.Normal) : 0 < mpmagcmp b1 b2 ↔ b2.mag < b1.mag := by
  rw [mpmagcmp]
  split
  case isTrue h  =>
    rcases Nat.lt_or_gt_of_ne (by omega : b1.top ≠ b2.top) with hlt | hgt
    · exact iff_of_false (by omega) (Nat.lt_asymm (h2.mag_lt_of_top_lt hlt))
    · exact iff_of_true (by omega) (h1.mag_lt_of_top_lt hgt)
  case isFalse => exact mpveccmp_pos

theorem mpcmp_value (h1 : b1.Normalised) (h2 : b2.Normalised) :
    (mpcmp b1 b2 < 0 ↔ b1.value < b2.value) ∧ (0 < mpcmp b1 b2 ↔ b2.value < b1.value) := by
  rw [mpcmp]
  split
  case isTrue hne  =>
    rcases h1.sign with h | h
    · have h' := h2.sign.resolve_left fun h' => hne (h.trans h'.symm)
      have hpos := h2.mag_ne_zero (by rw [h']; decide)
      rw [Mpint.value, Mpint.value, h, h']
      exact ⟨iff_of_false (by decide) (by omega), iff_of_true (by decide) (by omega)⟩
    · have h' := h2.sign.resolve_right fun h' => hne (h.trans h'.symm)
      have hpos := h1.mag_ne_zero (by rw [h]; decide)
      rw [Mpint.value, Mpint.value, h, h']
      exact ⟨iff_of_true (by decide) (by omega), iff_of_false (by decide) (by omega)⟩
  case isFalse heq =>
    have heq := not_not.mp heq
    split
    case isTrue hneg  =>
      have h := h1.sign.resolve_left fun h => absurd hneg (by rw [h]; decide)
      have hlt := mpmagcmp_neg h2.normal h1.normal
      have hgt := mpmagcmp_pos h2.normal h1.normal
      rw [Mpint.value, Mpint.value, ← heq, h]
      omega
    case isFalse hpos =>
      have h := h1.sign.resolve_right fun h => hpos (by rw [h]; decide)
      have hlt := mpmagcmp_neg h1.normal h2.normal
      have hgt := mpmagcmp_pos h1.normal h2.normal
      rw [Mpint.value, Mpint.value, ← heq, h]
      omega

-- What is left of a division

theorem mpdiv_value {q r : Option Mpint} (h1 : b1.Normalised) (h2 : b2.Normalised) (hne : b2.value ≠ 0)
    (hq : ∀ b ∈ q, b.sign = 1) : ∃ q' r', mpdiv b1 b2 q r = some (q', r') ∧ q'.isSome = q.isSome ∧ r'.isSome = r.isSome ∧
      (∀ b ∈ q', b.Normalised ∧ b.value = b1.value.tdiv b2.value) ∧
      ∀ b ∈ r', b.Normal ∧ b.sign = b1.sign ∧ b.value = b1.value.tmod b2.value := by
  have htop : 0 < b2.top := Nat.pos_of_ne_zero fun h => hne (h2.value_eq_zero.mpr h)
  obtain ⟨q', r', hdiv, ⟨hqsome, hq'⟩, ⟨hrsome, hr'⟩⟩ := mpdiv_spec q r h1.normal h2.normal htop
  refine ⟨q', r', hdiv, hqsome, hrsome, fun b hb => ?_, fun b hb => ?_⟩
  · obtain ⟨hnorm, hmag, hsign⟩ := hq' b hb
    have hsign := hsign hq
    refine ⟨.of_mag hnorm ?_ fun h => hsign.trans (if_neg fun hne => hne.left h), ?_⟩
    · rw [hsign]
      split
      · exact .inr rfl
      · exact .inl rfl
    · rw [Mpint.value, hsign, hmag]
      by_cases hzero : b1.mag / b2.mag = 0
      · have hcast : (b1.mag : Int) / b2.mag = 0 := by rw [← Int.natCast_ediv, hzero, Int.natCast_zero]
        rcases h1.sign with h | h <;> rcases h2.sign with h' | h' <;>
          simp [Mpint.value, h, h', hzero, hcast, Int.neg_tdiv, Int.tdiv_neg]
      · rcases h1.sign with h | h <;> rcases h2.sign with h' | h' <;>
          simp [Mpint.value, h, h', hzero, Int.neg_tdiv, Int.tdiv_neg]
  · obtain ⟨hnorm, hmag, hsign, -⟩ := hr' b hb
    refine ⟨hnorm, hsign, ?_⟩
    rw [Mpint.value, hsign, hmag]
    have hcast : (b1.mag : Int).tmod b2.mag = b1.mag % b2.mag := Int.tmod_eq_emod_of_nonneg (Int.natCast_nonneg _)
    rcases h1.sign with h | h <;> rcases h2.sign with h' | h' <;>
      simp [Mpint.value, h, h', hcast, Int.neg_tmod, Int.tmod_neg]

theorem mpmod_value (same : Bool) (hb : b.Normalised) (hm : m.Normalised) (hpos : 0 < m.value) (remainder : Mpint) :
    ∃ r, mpmod same b m remainder = some r ∧ r.Normalised ∧
      r.value = if same = false ∧ b.value < 0 ∧ m.value ∣ b.value then m.value else b.value % m.value := by
  obtain ⟨hmsign, hmvalue⟩ := hm.value_of_nonneg hpos.le
  obtain ⟨q, r, hdiv, -, hrsome, -, hr⟩ := @mpdiv_value b m none (some remainder) hb hm hpos.ne' (by simp)
  obtain ⟨r, rfl⟩ := Option.isSome_iff_exists.mp hrsome
  obtain ⟨hnorm, hsign, hvalue⟩ := hr r rfl
  have htop := hnorm.top_eq_zero
  have hlt := Int.emod_lt_of_pos b.value hpos
  rw [Int.tmod_eq_emod, Nat.cast_ite, Nat.cast_zero, Int.natAbs_of_nonneg hpos.le] at hvalue
  rw [mpmod, mpmod.rest, hdiv]
  dsimp only [Option.bind_eq_bind, Option.bind_some]
  by_cases hfix : same = true ∧ ¬mpmagcmp b m < 0 ∧ r.top = 0
  · have hmag := htop.mp hfix.right.right
    have hpositive : ¬(1 : Int) < 0 := by decide
    rw [if_pos hfix, if_neg hpositive]
    refine ⟨{ r with sign := 1 }, rfl, .of_mag hnorm (.inl rfl) fun _ => rfl, ?_⟩
    have hzero : b.value % m.value = 0 := by
      rw [Mpint.value, hmag, Int.natCast_zero, Int.mul_zero] at hvalue
      split at hvalue <;> omega
    rw [if_neg fun h => absurd (h.left.symm.trans hfix.left) (by decide), hzero]
    exact (congrArg (fun x : Nat => 1 * (x : Int)) hmag).trans rfl
  · rw [if_neg hfix]
    rcases hb.sign with hbsign | hbsign
    · have hnonneg : 0 ≤ b.value := by
        rw [Mpint.value, hbsign]
        omega
      rw [if_neg (by rw [hsign, hbsign]; decide)]
      refine ⟨r, rfl, .of_mag hnorm (.inl (hsign.trans hbsign)) fun _ => hsign.trans hbsign, ?_⟩
      rw [hvalue, if_pos (.inl hnonneg), if_neg (by omega), Int.sub_zero]
    · have hbpos := hb.mag_ne_zero (by rw [hbsign]; decide)
      have hbvalue : b.value = -(b.mag : Int) := by
        rw [Mpint.value, hbsign]
        omega
      -- here the remainder need not be normalised
      have hadd : mpadd m r r = mpmagsub m r r := by
        rw [mpadd, if_pos (by rw [hmsign, hsign, hbsign]; decide), if_neg (by rw [hmsign]; decide)]
      obtain ⟨hsub, hsubvalue⟩ := mpmagsub_spec hm.normal hnorm r
      rw [if_pos (by rw [hsign, hbsign]; decide), hadd]
      refine ⟨_, rfl, hsub, ?_⟩
      rw [Mpint.value, hsign, hbsign] at hvalue
      rw [hsubvalue, ← hmvalue]
      by_cases hdvd : m.value ∣ b.value
      · have hmod := Int.emod_eq_zero_of_dvd hdvd
        rw [if_pos (.inr hdvd), hmod] at hvalue
        have hmag : r.mag = 0 := by omega
        have hsame : same = false := by
          by_contra hsame
          refine hfix ⟨Bool.eq_true_of_not_eq_false hsame, ?_, htop.mpr hmag⟩
          rw [mpmagcmp_neg hb.normal hm.normal]
          have hdvd' : m.value ∣ (b.mag : Int) := by
            rw [hbvalue] at hdvd
            exact Int.dvd_neg.mp hdvd
          have hle := Int.le_of_dvd (by omega) hdvd'
          omega
        rw [if_pos ⟨hsame, by omega, hdvd⟩]
        omega
      · rw [if_neg (by rw [not_or]; exact ⟨by omega, hdvd⟩)] at hvalue
        rw [if_neg fun h => hdvd h.right.right]
        omega

theorem mpone_normalised : mpone.Normalised ∧ mpone.value = 1 := by
  have hset : (zeros.set 0 1) 0 = 1 := Function.update_self ..
  have hmag : mpone.mag = 1 := by
    exact (val_one mpone.p).trans (congrArg BitVec.toNat hset)
  refine ⟨.of_mag (fun _ h => ?_) (.inl rfl) fun _ => rfl, ?_⟩
  · exact absurd (hset.symm.trans h) (by decide)
  · rw [Mpint.value, hmag]
    rfl

-- All of it, for numbers as the functions leave them.
structure Arithmetic : Prop where
  add : ∀ b1 b2 sum : Mpint, b1.Normalised → b2.Normalised →
    (mpadd b1 b2 sum).Normalised ∧ (mpadd b1 b2 sum).value = b1.value + b2.value
  sub : ∀ b1 b2 diff : Mpint, b1.Normalised → b2.Normalised →
    (mpsub b1 b2 diff).Normalised ∧ (mpsub b1 b2 diff).value = b1.value - b2.value
  mul : ∀ b1 b2 prod : Mpint, b1.Normalised → b2.Normalised → ∃ n, ∀ k ≥ n, ∃ r, mpmul k b1 b2 prod = some r ∧
    r.Normalised ∧ r.value = b1.value * b2.value
  cmp : ∀ b1 b2 : Mpint, b1.Normalised → b2.Normalised →
    (mpcmp b1 b2 < 0 ↔ b1.value < b2.value) ∧ (0 < mpcmp b1 b2 ↔ b2.value < b1.value)

theorem arithmetic_exact : Arithmetic where
  add := fun _ _ sum h1 h2 => mpadd_value h1 h2 sum
  sub := fun _ _ diff h1 h2 => mpsub_value h1 h2 diff
  mul := by
    intro b1 b2 prod h1 h2
    exact ⟨b1.top + b2.top + 1, fun k hk => mpmul_value (by omega) (by omega) h1 h2 prod⟩
  cmp := fun _ _ => mpcmp_value

theorem arithmetic_exact_one : (mpadd mpone mpone mpnew).value = 2 := by
  obtain ⟨hone, hvalue⟩ := mpone_normalised
  rw [(arithmetic_exact.add mpone mpone mpnew hone hone).right, hvalue]
  rfl

-- The quotient is rounded to zero, and the remainder has the sign of the dividend. `mpmod` gives the number itself in place of
-- zero, where what is divided is negative and not overwritten.
structure Division : Prop where
  div : ∀ (b1 b2 : Mpint) (q r : Option Mpint), b1.Normalised → b2.Normalised → b2.value ≠ 0 → (∀ b ∈ q, b.sign = 1) →
    ∃ q' r', mpdiv b1 b2 q r = some (q', r') ∧ q'.isSome = q.isSome ∧ r'.isSome = r.isSome ∧
      (∀ b ∈ q', b.Normalised ∧ b.value = b1.value.tdiv b2.value) ∧
      ∀ b ∈ r', b.Normal ∧ b.sign = b1.sign ∧ b.value = b1.value.tmod b2.value
  mod : ∀ (same : Bool) (b m remainder : Mpint), b.Normalised → m.Normalised → 0 < m.value →
    ∃ r, mpmod same b m remainder = some r ∧ r.Normalised ∧
      r.value = if same = false ∧ b.value < 0 ∧ m.value ∣ b.value then m.value else b.value % m.value

theorem division_exact : Division where
  div := fun _ _ _ _ h1 h2 hne hq => mpdiv_value h1 h2 hne hq
  mod := fun same _ _ remainder hb hm hpos => mpmod_value same hb hm hpos remainder

theorem division_exact_one : ∃ r, mpmod false mpone mpone mpnew = some r ∧ r.value = 0 := by
  obtain ⟨hone, hvalue⟩ := mpone_normalised
  obtain ⟨r, hr, -, h⟩ := division_exact.mod false mpone mpone mpnew hone hone (by rw [hvalue]; decide)
  exact ⟨r, hr, by rw [h, hvalue]; decide⟩

end

end Libmp
