import Mathlib.Data.Nat.Cast.Order.Field
import Mathlib.Tactic.FieldSimp
import Mathlib.Tactic.Linarith
import Mathlib.Tactic.Ring
import Nix.Port.Tod

namespace Port.Tod

variable {tod tod' : State} {k : Fastticks} {a b n f t : BitVec 64}

-- The product from its four parts, of which only the low one has a fraction.
theorem mul64fract_eq (a b : BitVec 64) : (mul64fract a b).toNat = a.toNat * b.toNat / 2 ^ 32 % 2 ^ 64 := by
  have hlow (x : BitVec 64) : x.toNat &&& 4294967295 = x.toNat % 2 ^ 32 := Nat.and_two_pow_sub_one_eq_mod _ 32
  have hprod : a.toNat * b.toNat = 2 ^ 64 * (a.toNat / 2 ^ 32 * (b.toNat / 2 ^ 32)) +
      2 ^ 32 * (a.toNat / 2 ^ 32 * (b.toNat % 2 ^ 32) + a.toNat % 2 ^ 32 * (b.toNat / 2 ^ 32)) +
      a.toNat % 2 ^ 32 * (b.toNat % 2 ^ 32) := by
    nth_rewrite 1 [← Nat.div_add_mod a.toNat (2 ^ 32), ← Nat.div_add_mod b.toNat (2 ^ 32)]
    ring
  have hmod (x : Nat) : x % 2 ^ 32 < 2 ^ 32 := Nat.mod_lt _ (by decide)
  have hlt : a.toNat % 2 ^ 32 * (b.toNat % 2 ^ 32) < 2 ^ 32 * 2 ^ 32 := Nat.mul_lt_mul'' (hmod _) (hmod _)
  rw [hprod]
  simp only [mul64fract, BitVec.toNat_add, BitVec.toNat_mul, BitVec.toNat_ushiftRight, BitVec.toNat_shiftLeft,
    BitVec.toNat_and, BitVec.reduceToNat, hlow, Nat.shiftRight_eq_div_pow, Nat.shiftLeft_eq]
  generalize a.toNat / 2 ^ 32 * (b.toNat / 2 ^ 32) = hh at *
  generalize a.toNat / 2 ^ 32 * (b.toNat % 2 ^ 32) = hl at *
  generalize a.toNat % 2 ^ 32 * (b.toNat / 2 ^ 32) = lh at *
  generalize a.toNat % 2 ^ 32 * (b.toNat % 2 ^ 32) = ll at *
  omega

theorem mul64fract_of_lt (h : a.toNat * b.toNat / 2 ^ 32 < 2 ^ 64) :
    (mul64fract a b).toNat = a.toNat * b.toNat / 2 ^ 32 := by
  rw [mul64fract_eq, Nat.mod_eq_of_lt h]

-- The factors that the frequency gives.
structure Factors (f : Nat) (tod : State) : Prop where
  init       : tod.init = true
  multiplier : tod.multiplier.toNat = 10 ^ 9 * 2 ^ 32 / f
  divider    : tod.divider.toNat = f * 2 ^ 32 / 10 ^ 9 + 1

theorem todsetfreq_factors (hinit : tod.init = true) (hf : f ≠ 0) (hlt : f.toNat < 2 ^ 32) :
    ∃ tod', tod.todsetfreq f = some tod' ∧ Factors f.toNat tod' := by
  have hmk (n d : BitVec 64) (hd : d ≠ 0) : mk64fract n d = some (n <<< 32 / d) := if_neg hd
  rw [State.todsetfreq, hmk _ _ hf, hmk _ _ (by decide), hmk _ _ hf, hmk _ _ (by decide)]
  refine ⟨_, rfl, hinit, ?_, ?_⟩
  · rw [BitVec.toNat_udiv]
    rfl
  · rw [BitVec.toNat_add, BitVec.toNat_udiv, BitVec.toNat_shiftLeft, Nat.shiftLeft_eq]
    change (f.toNat * 2 ^ 32 % 2 ^ 64 / 10 ^ 9 + 1) % 2 ^ 64 = _
    have hmul : f.toNat * 2 ^ 32 < 2 ^ 32 * 2 ^ 32 := Nat.mul_lt_mul_of_pos_right hlt (by decide)
    rw [← pow_add] at hmul
    rw [Nat.mod_eq_of_lt hmul, Nat.mod_eq_of_lt]
    have := Nat.div_le_self (f.toNat * 2 ^ 32) (10 ^ 9)
    have := Nat.div_mul_le_self (f.toNat * 2 ^ 32) (10 ^ 9)
    omega

namespace Factors

variable {f : Nat}

theorem fastticks2ns (h : Factors f tod) : tod.fastticks2ns k t = some (mul64fract t tod.multiplier, tod) := by
  rw [State.fastticks2ns, State.convert, State.todinit, if_pos h.init]
  rfl

theorem ns2fastticks (h : Factors f tod) : tod.ns2fastticks k n = some (mul64fract n tod.divider, tod) := by
  rw [State.ns2fastticks, State.convert, State.todinit, if_pos h.init]
  rfl

end Factors

theorem div_bounds (m : Nat) {n : Nat} (hn : 0 < n) :
    ((m / n : Nat) : ℚ) ≤ m / n ∧ (m / n : ℚ) < (m / n : Nat) + 1 := by
  have hn' : (0 : ℚ) < n := by exact_mod_cast hn
  have hlt : m < n * (m / n + 1) := Nat.lt_mul_div_succ m hn
  refine ⟨Nat.cast_div_le, (div_lt_iff₀ hn').mpr ?_⟩
  rw [mul_comm]
  exact_mod_cast hlt

-- The errors of the factors, and what they come to in a product.
structure Near (f : Nat) (tod : State) : Prop where
  multiplier_le : (tod.multiplier.toNat : ℚ) ≤ 10 ^ 9 / f * 2 ^ 32
  lt_multiplier : 10 ^ 9 / f * 2 ^ 32 < (tod.multiplier.toNat : ℚ) + 1
  divider_le    : (tod.divider.toNat : ℚ) ≤ f / 10 ^ 9 * 2 ^ 32 + 1
  lt_divider    : f / 10 ^ 9 * 2 ^ 32 < (tod.divider.toNat : ℚ)

theorem Factors.near {f : Nat} (h : Factors f tod) (hf : 0 < f) : Near f tod := by
  obtain ⟨hmle, hmlt⟩ := div_bounds (10 ^ 9 * 2 ^ 32) hf
  obtain ⟨hdle, hdlt⟩ := div_bounds (f * 2 ^ 32) (n := 10 ^ 9) (by decide)
  have hm : ((10 ^ 9 * 2 ^ 32 : Nat) : ℚ) / f = 10 ^ 9 / f * 2 ^ 32 := by
    push_cast
    ring
  have hd : ((f * 2 ^ 32 : Nat) : ℚ) / (10 ^ 9 : Nat) = f / 10 ^ 9 * 2 ^ 32 := by
    push_cast
    ring
  rw [hm] at hmle hmlt
  rw [hd] at hdle hdlt
  refine ⟨?_, ?_, ?_, ?_⟩
  · rwa [h.multiplier]
  · rwa [h.multiplier]
  · rw [h.divider]
    push_cast
    linarith
  · rw [h.divider]
    push_cast
    linarith

-- How far the conversions are off.
structure Converts (f : Nat) (tod : State) : Prop where
  ns : ∀ k t, t.toNat < 2 ^ 63 → (t.toNat * 10 ^ 9 / f : ℚ) < 2 ^ 64 →
    ∃ ns, tod.fastticks2ns k t = some (ns, tod) ∧
      (t.toNat * 10 ^ 9 / f - 1 - t.toNat / 2 ^ 32 : ℚ) < ns.toNat ∧ (ns.toNat : ℚ) ≤ t.toNat * 10 ^ 9 / f
  ticks : ∀ k ns, (ns.toNat * f / 10 ^ 9 + ns.toNat / 2 ^ 32 : ℚ) < 2 ^ 64 →
    ∃ t, tod.ns2fastticks k ns = some (t, tod) ∧
      ns.toNat * f / 10 ^ 9 ≤ t.toNat ∧ (t.toNat : ℚ) ≤ ns.toNat * f / 10 ^ 9 + ns.toNat / 2 ^ 32
  -- there and back
  back : ∀ k t, t.toNat < 2 ^ 63 → (t.toNat * 10 ^ 9 / f : ℚ) < 2 ^ 64 →
    ∃ ns t', tod.fastticks2ns k t = some (ns, tod) ∧ tod.ns2fastticks k ns = some (t', tod) ∧
      (t.toNat - 2 - f / 10 ^ 9 - t.toNat * f / (2 ^ 32 * 10 ^ 9) : ℚ) ≤ t'.toNat ∧
      (t'.toNat : ℚ) ≤ t.toNat + t.toNat * 10 ^ 9 / (f * 2 ^ 32)

namespace Near

variable {f : Nat}

theorem fastticks2ns (h : Near f tod) (ht : (t.toNat * 10 ^ 9 / f : ℚ) < 2 ^ 64) :
    (t.toNat * 10 ^ 9 / f - 1 - t.toNat / 2 ^ 32 : ℚ) < (mul64fract t tod.multiplier).toNat ∧
    ((mul64fract t tod.multiplier).toNat : ℚ) ≤ t.toNat * 10 ^ 9 / f := by
  obtain ⟨hle, hlt⟩ := div_bounds (t.toNat * tod.multiplier.toNat) (n := 2 ^ 32) (by decide)
  have hnonneg : (0 : ℚ) ≤ t.toNat := Nat.cast_nonneg _
  have hup := mul_le_mul_of_nonneg_left h.multiplier_le hnonneg
  have hlow := mul_le_mul_of_nonneg_left h.lt_multiplier.le hnonneg
  have heq : (t.toNat * 10 ^ 9 / f : ℚ) = t.toNat * (10 ^ 9 / f * 2 ^ 32) / 2 ^ 32 := by ring
  push_cast at hle hlt
  have hval : ((t.toNat * tod.multiplier.toNat / 2 ^ 32 : Nat) : ℚ) ≤ t.toNat * 10 ^ 9 / f := by
    rw [heq]
    linarith
  have hfit : t.toNat * tod.multiplier.toNat / 2 ^ 32 < 2 ^ 64 := by
    have := hval.trans_lt ht
    exact_mod_cast this
  rw [mul64fract_of_lt hfit]
  refine ⟨?_, hval⟩
  rw [heq]
  linarith

theorem ns2fastticks (h : Near f tod) (hn : (n.toNat * f / 10 ^ 9 + n.toNat / 2 ^ 32 : ℚ) < 2 ^ 64) :
    (n.toNat * f / 10 ^ 9 - 1 : ℚ) < (mul64fract n tod.divider).toNat ∧
    n.toNat * f / 10 ^ 9 ≤ (mul64fract n tod.divider).toNat ∧
    ((mul64fract n tod.divider).toNat : ℚ) ≤ n.toNat * f / 10 ^ 9 + n.toNat / 2 ^ 32 := by
  obtain ⟨hle, hlt⟩ := div_bounds (n.toNat * tod.divider.toNat) (n := 2 ^ 32) (by decide)
  have hnonneg : (0 : ℚ) ≤ n.toNat := Nat.cast_nonneg _
  have hup := mul_le_mul_of_nonneg_left h.divider_le hnonneg
  have hlow := mul_le_mul_of_nonneg_left h.lt_divider.le hnonneg
  have heq : (n.toNat * f / 10 ^ 9 : ℚ) = n.toNat * (f / 10 ^ 9 * 2 ^ 32) / 2 ^ 32 := by ring
  push_cast at hle hlt
  have hval : ((n.toNat * tod.divider.toNat / 2 ^ 32 : Nat) : ℚ) ≤ n.toNat * f / 10 ^ 9 + n.toNat / 2 ^ 32 := by
    rw [heq]
    linarith
  have hfit : n.toNat * tod.divider.toNat / 2 ^ 32 < 2 ^ 64 := by
    have := hval.trans_lt hn
    exact_mod_cast this
  have hgt : (n.toNat * f / 10 ^ 9 - 1 : ℚ) < (n.toNat * tod.divider.toNat / 2 ^ 32 : Nat) := by
    rw [heq]
    linarith
  rw [mul64fract_of_lt hfit]
  refine ⟨hgt, ?_, hval⟩
  have hfloor : ((n.toNat * f / 10 ^ 9 : Nat) : ℚ) < (n.toNat * tod.divider.toNat / 2 ^ 32 : Nat) + 1 := by
    have := (div_bounds (n.toNat * f) (n := 10 ^ 9) (by decide)).left
    push_cast at this hgt ⊢
    linarith
  have : n.toNat * f / 10 ^ 9 < n.toNat * tod.divider.toNat / 2 ^ 32 + 1 := by exact_mod_cast hfloor
  omega

theorem back (h : Near f tod) (hf : 0 < f) (ht : t.toNat < 2 ^ 63) (hns : (t.toNat * 10 ^ 9 / f : ℚ) < 2 ^ 64) :
    (t.toNat - 2 - f / 10 ^ 9 - t.toNat * f / (2 ^ 32 * 10 ^ 9) : ℚ) ≤
      (mul64fract (mul64fract t tod.multiplier) tod.divider).toNat ∧
    ((mul64fract (mul64fract t tod.multiplier) tod.divider).toNat : ℚ) ≤
      t.toNat + t.toNat * 10 ^ 9 / (f * 2 ^ 32) := by
  obtain ⟨hlow, hup⟩ := h.fastticks2ns hns
  generalize mul64fract t tod.multiplier = n at hlow hup ⊢
  have hf' : (0 : ℚ) < f := by exact_mod_cast hf
  have hscale : (0 : ℚ) ≤ f / 10 ^ 9 := by positivity
  have hticks : (n.toNat * f / 10 ^ 9 : ℚ) ≤ t.toNat := by
    calc (n.toNat * f / 10 ^ 9 : ℚ) = n.toNat * (f / 10 ^ 9) := by ring
      _ ≤ t.toNat * 10 ^ 9 / f * (f / 10 ^ 9) := mul_le_mul_of_nonneg_right hup hscale
      _ = t.toNat := by field_simp
  have hrest : (n.toNat / 2 ^ 32 : ℚ) ≤ t.toNat * 10 ^ 9 / (f * 2 ^ 32) := by
    calc (n.toNat / 2 ^ 32 : ℚ) ≤ t.toNat * 10 ^ 9 / f / 2 ^ 32 := by gcongr
      _ = t.toNat * 10 ^ 9 / (f * 2 ^ 32) := by rw [div_div]
  have hfit : (n.toNat * f / 10 ^ 9 + n.toNat / 2 ^ 32 : ℚ) < 2 ^ 64 := by
    have : (t.toNat : ℚ) < 2 ^ 63 := by exact_mod_cast ht
    have : (n.toNat : ℚ) < 2 ^ 64 := by exact_mod_cast n.isLt
    linarith
  obtain ⟨hback, -, hle⟩ := h.ns2fastticks hfit
  refine ⟨?_, by linarith⟩
  have hfrom := mul_le_mul_of_nonneg_right hlow.le hscale
  have heq : (t.toNat * 10 ^ 9 / f - 1 - t.toNat / 2 ^ 32 : ℚ) * (f / 10 ^ 9) =
      t.toNat - f / 10 ^ 9 - t.toNat * f / (2 ^ 32 * 10 ^ 9) := by
    field_simp
  rw [heq] at hfrom
  have : (n.toNat * (f / 10 ^ 9) : ℚ) = n.toNat * f / 10 ^ 9 := by ring
  linarith

end Near

theorem Factors.conversions {f : Nat} (h : Factors f tod) (hf : 0 < f) : Converts f tod := by
  have hnear := h.near hf
  refine ⟨fun k t _ hns => ?_, fun k n hfit => ?_, fun k t ht hns => ?_⟩
  · exact ⟨_, h.fastticks2ns, hnear.fastticks2ns hns⟩
  · exact ⟨_, h.ns2fastticks, (hnear.ns2fastticks hfit).right⟩
  · exact ⟨_, _, h.fastticks2ns, h.ns2fastticks, hnear.back hf ht hns⟩

-- The conversions of ticks are as close as the two factors, of any frequency that has 32 bits. The kernel sets none
-- before `todinit`, which `portclock.c` and `devcons.c` call first.
theorem converts :
    (∀ a b, (mul64fract a b).toNat = a.toNat * b.toNat / 2 ^ 32 % 2 ^ 64) ∧
    ∀ (tod : State) (f : BitVec 64), tod.init = true → f ≠ 0 → f.toNat < 2 ^ 32 →
      ∃ tod', tod.todsetfreq f = some tod' ∧ Converts f.toNat tod' := by
  refine ⟨mul64fract_eq, fun tod f hinit hf hlt => ?_⟩
  obtain ⟨tod', hset, hfactors⟩ := todsetfreq_factors hinit hf hlt
  have hpos : 0 < f.toNat := Nat.pos_of_ne_zero fun h => hf (BitVec.eq_of_toNat_eq h)
  exact ⟨tod', hset, hfactors.conversions hpos⟩

-- At the frequency of the clock of a pc.
theorem converts_pc : ∃ tod', (State.mk true 0 0 0 0 0 0 0 0 0 0 0).todsetfreq 1193182 = some tod' ∧
    Converts 1193182 tod' :=
  converts.right _ 1193182 rfl (by decide) (by decide)

end Port.Tod
