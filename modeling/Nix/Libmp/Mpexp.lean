import Nix.Libmp.Mpadd
import Mathlib.Data.Int.ModEq

-- Powers.
namespace Libmp

-- A product, with turns enough.
def mult (b1 b2 prod : Mpint) : Option Mpint :=
  mpmul (b1.top + b2.top + 1) b1 b2 prod

-- `t[j]` and `t[j^1]`.
structure mpexp.T where
  cur : Mpint
  alt : Mpint

def mpexp.times (b : Mpint) (bit : Bool) (s cur : Mpint) : Option T :=
  if bit then (mult s b cur).map (⟨·, s⟩) else some ⟨s, cur⟩

def mpexp.reduce (m : Option Mpint) (t : T) : Option T :=
  match m with
  | none   => some t
  | some m => if m.top < t.cur.top then (mpmod false t.cur m t.alt).map (⟨·, t.cur⟩) else some t

def mpexp.turn (b : Mpint) (m : Option Mpint) (bit : Bool) (t : T) : Option T := do
  let s ← mult t.cur t.cur t.alt
  let t ← times b bit s t.cur
  reduce m t

-- The lowest `k` bits of a digit.
def mpexp.digit (b : Mpint) (m : Option Mpint) (d : Digit) : Nat → T → Option T
  | 0,     t => return t
  | k + 1, t => do
    let t ← turn b m (d.getLsbD k) t
    digit b m d k t

def mpexp.loop (b e : Mpint) (m : Option Mpint) : Nat → T → Option T
  | 0,     t => return t
  | i + 1, t => do
    let t ← digit b m (e.p i) 32 t
    loop b e m i t

-- The first bit.
def mpexp.first (d : Digit) : Nat → Nat
  | 0     => 0
  | k + 1 => if d.getLsbD k then k else first d k

-- What is put in `res`.
def mpexp (b e : Mpint) (m : Option Mpint) (res : Mpint) : Option Mpint :=
  if mpcmp e mpzero = 0 then
    return mpassign mpone res
  else if mpcmp e mpzero < 0 then
    none
  else do
    let i := e.top - 1
    let d := e.p i
    -- skip first bit
    let t ← mpexp.digit b m d (mpexp.first d 32) ⟨mpcopy b, res⟩
    let t ← mpexp.loop b e m i t
    match m with
    | none   => return t.cur
    | some m => mpmod false t.cur m t.alt

section

variable {a b e m : Mpint} {n k : Nat}

theorem mpzero_normalised : mpzero.Normalised ∧ mpzero.value = 0 := by
  refine ⟨.of_mag (fun h => absurd h (Nat.lt_irrefl 0)) (.inl rfl) fun _ => rfl, ?_⟩
  exact (congrArg (fun n : Nat => (1 : Int) * n) (val_zero zeros)).trans rfl

theorem uitomp_value (h : n < base) : (uitomp n).Normalised ∧ (uitomp n).value = n := by
  obtain ⟨hmag, hnorm, hsign, -⟩ := uitomp_spec h
  refine ⟨.of_mag hnorm (.inl hsign) fun _ => hsign, ?_⟩
  rw [Mpint.value, hmag, hsign, one_mul]

theorem mpassign_value (h : b.Normalised) (new : Mpint) :
    (mpassign b new).Normalised ∧ (mpassign b new).value = b.value ∧ (mpassign b new).mag = b.mag := by
  have hmag := mpassign_mag b new
  refine ⟨⟨mpassign_normal h.normal new, h.sign, h.zero⟩, ?_, hmag⟩
  rw [Mpint.value, hmag]
  rfl

theorem mpcopy_value (h : b.Normalised) : (mpcopy b).Normalised ∧ (mpcopy b).value = b.value ∧ (mpcopy b).mag = b.mag :=
  mpassign_value h mpnew

theorem mult_value (ha : a.Normalised) (hb : b.Normalised) (prod : Mpint) :
    ∃ r, mult a b prod = some r ∧ r.Normalised ∧ r.value = a.value * b.value :=
  mpmul_value (by omega) (by omega) ha hb prod

-- Powers

-- The same number, or the same but for multiples of `m`.
def Agree (m : Option Mpint) (x y : Int) : Prop :=
  match m with
  | none   => x = y
  | some m => x ≡ y [ZMOD m.value]

theorem Agree.refl (m : Option Mpint) (x : Int) : Agree m x x := by
  cases m
  case none => rfl
  case some => exact Int.ModEq.refl x

theorem Agree.mul {m : Option Mpint} {x x' y y' : Int} (h : Agree m x y) (h' : Agree m x' y') : Agree m (x * x') (y * y') := by
  cases m
  case none => exact congrArg₂ (· * ·) h h'
  case some => exact Int.ModEq.mul h h'

-- What `mpmod` gives is not negative, and the same number but for multiples.
theorem mpmod_agree (hb : b.Normalised) (hm : m.Normalised) (hpos : 0 < m.value) (same : Bool) (remainder : Mpint) :
    ∃ r, mpmod same b m remainder = some r ∧ r.Normalised ∧ r.value ≡ b.value [ZMOD m.value] ∧ 0 ≤ r.value ∧
      r.value ≤ m.value ∧ (same = true ∨ 0 ≤ b.value → r.value = b.value % m.value) := by
  obtain ⟨r, hr, hnorm, hvalue⟩ := mpmod_value same hb hm hpos remainder
  have hnonneg := Int.emod_nonneg b.value hpos.ne'
  have hlt := Int.emod_lt_of_pos b.value hpos
  refine ⟨r, hr, hnorm, ?_⟩
  split at hvalue
  case isTrue h  =>
    obtain ⟨hsame, hneg, hdvd⟩ := h
    refine ⟨?_, by omega, hvalue.le, fun h => ?_⟩
    · rw [hvalue]
      exact (Int.modEq_zero_iff_dvd.mpr (dvd_refl _)).trans (Int.modEq_zero_iff_dvd.mpr hdvd).symm
    · rcases h with h | h
      · exact absurd (hsame.symm.trans h) (by decide)
      · omega
  case isFalse h =>
    rw [hvalue]
    exact ⟨Int.mod_modEq _ _, hnonneg, hlt.le, fun _ => rfl⟩

namespace mpexp

-- A power so far.
structure Inv (b : Mpint) (m : Option Mpint) (n : Nat) (t : T) : Prop where
  cur    : t.cur.Normalised
  agree  : Agree m t.cur.value (b.value ^ n)
  nonneg : 0 ≤ b.value → 0 ≤ t.cur.value

variable {m : Option Mpint} {t : T}

theorem times_inv (hb : b.Normalised) {s : Mpint} (hs : s.Normalised) (hsquare : Agree m s.value (b.value ^ (2 * n)))
    (hnonneg : 0 ≤ s.value) (bit : Bool) (cur : Mpint) : ∃ t', times b bit s cur = some t' ∧ Inv b m (2 * n + bit.toNat) t' := by
  cases bit
  case false => exact ⟨⟨s, cur⟩, rfl, hs, hsquare, fun _ => hnonneg⟩
  case true  =>
    obtain ⟨p, hp, hpnorm, hpvalue⟩ := mult_value hs hb cur
    have hpow : b.value ^ (2 * n + true.toNat) = b.value ^ (2 * n) * b.value := pow_succ ..
    refine ⟨⟨p, s⟩, by rw [times, if_pos rfl, hp]; rfl, hpnorm, ?_, fun hpos => ?_⟩
    · rw [hpvalue, hpow]
      exact hsquare.mul (Agree.refl m b.value)
    · rw [hpvalue]
      exact mul_nonneg hnonneg hpos

theorem Inv.reduce (h : Inv b m n t) (hm : ∀ m' ∈ m, m'.Normalised ∧ 0 < m'.value) :
    ∃ t', reduce m t = some t' ∧ Inv b m n t' := by
  cases m
  case none   => exact ⟨t, rfl, h⟩
  case some m =>
    rw [mpexp.reduce]
    split
    case isTrue  =>
      obtain ⟨hmnorm, hmpos⟩ := hm m rfl
      obtain ⟨r, hr, hrnorm, hagree, hnonneg, -⟩ := mpmod_agree h.cur hmnorm hmpos false t.alt
      exact ⟨⟨r, t.cur⟩, by rw [hr]; rfl, hrnorm, hagree.trans h.agree, fun _ => hnonneg⟩
    case isFalse => exact ⟨t, rfl, h⟩

theorem Inv.turn (h : Inv b m n t) (hb : b.Normalised) (hm : ∀ m' ∈ m, m'.Normalised ∧ 0 < m'.value) (bit : Bool) :
    ∃ t', turn b m bit t = some t' ∧ Inv b m (2 * n + bit.toNat) t' := by
  obtain ⟨s, hs, hsnorm, hsvalue⟩ := mult_value h.cur h.cur t.alt
  have hsquare : Agree m s.value (b.value ^ (2 * n)) := by
    rw [hsvalue, two_mul, pow_add]
    exact h.agree.mul h.agree
  have hnonneg : 0 ≤ s.value := by
    rw [hsvalue]
    exact mul_self_nonneg _
  obtain ⟨t', ht', hinv⟩ := times_inv hb hsnorm hsquare hnonneg bit t.cur
  obtain ⟨t'', ht'', hinv'⟩ := hinv.reduce hm
  refine ⟨t'', ?_, hinv'⟩
  rw [mpexp.turn, hs]
  dsimp only [Option.bind_eq_bind, Option.bind_some]
  rw [ht']
  exact ht''

theorem digit_bit (d : Digit) (k : Nat) : d.toNat % 2 ^ (k + 1) = (d.getLsbD k).toNat * 2 ^ k + d.toNat % 2 ^ k := by
  rw [pow_succ, Nat.mod_mul, Nat.add_comm, Nat.mul_comm]
  congr 2
  rw [BitVec.getLsbD, Nat.testBit_eq_decide_div_mod_eq]
  rcases Nat.mod_two_eq_zero_or_one (d.toNat / 2 ^ k) with hmod | hmod <;> simp [hmod]

theorem Inv.digit (h : Inv b m n t) (hb : b.Normalised) (hm : ∀ m' ∈ m, m'.Normalised ∧ 0 < m'.value) (d : Digit) :
    ∃ t', digit b m d k t = some t' ∧ Inv b m (n * 2 ^ k + d.toNat % 2 ^ k) t' := by
  induction k generalizing n t
  case zero      =>
    refine ⟨t, rfl, ?_⟩
    rwa [pow_zero, Nat.mod_one, Nat.mul_one, Nat.add_zero]
  case succ k ih =>
    obtain ⟨t', ht', hinv⟩ := h.turn hb hm (d.getLsbD k)
    obtain ⟨t'', ht'', hinv'⟩ := ih hinv
    refine ⟨t'', by rw [mpexp.digit, ht']; exact ht'', ?_⟩
    have hbit := digit_bit d k
    have hsum : n * 2 ^ (k + 1) + d.toNat % 2 ^ (k + 1) = (2 * n + (d.getLsbD k).toNat) * 2 ^ k + d.toNat % 2 ^ k := by
      rw [hbit, pow_succ]
      ring
    rw [hsum]
    exact hinv'

theorem Inv.loop {i : Nat} (h : Inv b m n t) (hb : b.Normalised) (hm : ∀ m' ∈ m, m'.Normalised ∧ 0 < m'.value) (e : Mpint) :
    ∃ t', loop b e m i t = some t' ∧ Inv b m (n * base ^ i + val e.p i) t' := by
  induction i generalizing n t
  case zero      =>
    refine ⟨t, rfl, ?_⟩
    rwa [pow_zero, val_zero, Nat.mul_one, Nat.add_zero]
  case succ i ih =>
    obtain ⟨t', ht', hinv⟩ := h.digit (k := 32) hb hm (e.p i)
    obtain ⟨t'', ht'', hinv'⟩ := ih hinv
    refine ⟨t'', by rw [mpexp.loop, ht']; exact ht'', ?_⟩
    have hsum : n * base ^ (i + 1) + val e.p (i + 1) = (n * 2 ^ 32 + (e.p i).toNat % 2 ^ 32) * base ^ i + val e.p i := by
      rw [val_succ, Nat.mod_eq_of_lt (e.p i).isLt, pow_succ, base]
      ring
    rw [hsum]
    exact hinv'

-- The highest bit that is set.
theorem first_spec {d : Digit} (h : d.toNat % 2 ^ k ≠ 0) :
    d.toNat % 2 ^ k = 2 ^ first d k + d.toNat % 2 ^ first d k := by
  induction k
  case zero      => exact absurd (Nat.mod_one _) h
  case succ k ih =>
    have hbit := digit_bit d k
    rw [first]
    split
    case isTrue hset   => rw [hbit, hset]; simp
    case isFalse hzero =>
      have hzero := Bool.eq_false_of_not_eq_true hzero
      rw [hbit, hzero] at h ⊢
      simp only [Bool.toNat_false, Nat.zero_mul, Nat.zero_add] at h ⊢
      exact ih h

end mpexp

theorem mpexp_value {m : Option Mpint} (hb : b.Normalised) (he : e.Normalised) (hnonneg : 0 ≤ e.value)
    (hm : ∀ m' ∈ m, m'.Normalised ∧ 0 < m'.value) (res : Mpint) :
    ∃ r, mpexp b e m res = some r ∧ r.Normalised ∧ (e.value = 0 → r.value = 1) ∧ Agree m r.value (b.value ^ e.value.toNat) ∧
      ∀ m' ∈ m, e.value ≠ 0 → 0 ≤ r.value ∧ r.value ≤ m'.value ∧
        (0 ≤ b.value → r.value = b.value ^ e.value.toNat % m'.value) := by
  obtain ⟨hzero, hzvalue⟩ := mpzero_normalised
  obtain ⟨hlt, hgt⟩ := mpcmp_value he hzero
  obtain ⟨hesign, hevalue⟩ := he.value_of_nonneg hnonneg
  rw [hzvalue] at hlt hgt
  rw [mpexp]
  by_cases hnone : mpcmp e mpzero = 0
  · have hnil : e.value = 0 := by omega
    obtain ⟨hone, honevalue⟩ := mpone_normalised
    obtain ⟨hnorm, hvalue, -⟩ := mpassign_value hone res
    rw [if_pos hnone]
    refine ⟨_, rfl, hnorm, fun _ => hvalue.trans honevalue, ?_, fun _ _ h => absurd hnil h⟩
    rw [hvalue, honevalue, hnil, Int.toNat_zero, pow_zero]
    exact Agree.refl m 1
  · have hpos : 0 < e.mag := by omega
    have htop : 0 < e.top := Nat.pos_of_ne_zero (he.normal.top_eq_zero.not.mpr hpos.ne')
    obtain ⟨i, hi⟩ : ∃ i, e.top = i + 1 := ⟨e.top - 1, by omega⟩
    have hi' : e.top - 1 = i := by omega
    have hdigit : (e.p i).toNat % 2 ^ 32 ≠ 0 := by
      rw [Nat.mod_eq_of_lt (e.p i).isLt]
      exact fun h => he.normal htop (hi' ▸ BitVec.eq_of_toNat_eq h)
    obtain ⟨hcopy, hcopyvalue, -⟩ := mpcopy_value hb
    have hstart : mpexp.Inv b m 1 ⟨mpcopy b, res⟩ := by
      refine ⟨hcopy, ?_, fun h => hcopyvalue ▸ h⟩
      rw [hcopyvalue, pow_one]
      exact Agree.refl m _
    obtain ⟨t1, ht1, hinv1⟩ := hstart.digit (k := mpexp.first (e.p i) 32) hb hm (e.p i)
    obtain ⟨t2, ht2, hinv2⟩ := hinv1.loop (i := i) hb hm e
    have hexp : (1 * 2 ^ mpexp.first (e.p i) 32 + (e.p i).toNat % 2 ^ mpexp.first (e.p i) 32) * base ^ i + val e.p i =
        e.value.toNat := by
      rw [Nat.one_mul, ← mpexp.first_spec hdigit, Nat.mod_eq_of_lt (e.p i).isLt, hevalue, Int.toNat_natCast, Mpint.mag, hi,
        val_succ, Nat.add_comm]
    rw [hexp] at hinv2
    rw [if_neg hnone, if_neg (by omega), hi']
    dsimp only [Option.bind_eq_bind]
    rw [ht1, Option.bind_some, ht2, Option.bind_some]
    cases m
    case none   =>
      exact ⟨t2.cur, rfl, hinv2.cur, fun h => by omega, hinv2.agree, fun m' hm' => absurd hm' (Option.not_mem_none m')⟩
    case some m =>
      obtain ⟨hmnorm, hmpos⟩ := hm m rfl
      obtain ⟨r, hr, hrnorm, hagree, hrnonneg, hrle, hrmod⟩ := mpmod_agree hinv2.cur hmnorm hmpos false t2.alt
      refine ⟨r, hr, hrnorm, fun h => by omega, hagree.trans hinv2.agree, fun m' hm' _ => ?_⟩
      obtain rfl := Option.mem_some_iff.mp hm'
      refine ⟨hrnonneg, hrle, fun hpos => ?_⟩
      rw [hrmod (.inr (hinv2.nonneg hpos))]
      exact hinv2.agree

-- `3 ^ 5` is `5` more than a multiple of `7`.
theorem mpexp_value_three : ∃ r, mpexp (uitomp 3) (uitomp 5) (some (uitomp 7)) mpnew = some r ∧ r.value = 5 := by
  obtain ⟨hb, hbvalue⟩ := uitomp_value (by decide : 3 < base)
  obtain ⟨he, hevalue⟩ := uitomp_value (by decide : 5 < base)
  obtain ⟨hm, hmvalue⟩ := uitomp_value (by decide : 7 < base)
  have hsome : ∀ m' ∈ some (uitomp 7), m'.Normalised ∧ 0 < m'.value := by
    intro m' hm'
    rw [← Option.mem_some_iff.mp hm', hmvalue]
    exact ⟨hm, by decide⟩
  obtain ⟨r, hr, -, -, -, hmod⟩ := mpexp_value hb he (by rw [hevalue]; decide) hsome mpnew
  obtain ⟨-, -, hvalue⟩ := hmod _ rfl (by rw [hevalue]; decide)
  refine ⟨r, hr, (hvalue (by rw [hbvalue]; decide)).trans ?_⟩
  rw [hbvalue, hevalue, hmvalue]
  decide

end

end Libmp
