import Nix.Port.Runq

-- The estimate of how much of a core a process uses, and the priority that it has for it, in the integers of the
-- machine. There is no result where a signed operation overflows, or where the kernel panics.
namespace Port.Updatecpu

open Runq (Npriq HZ Scaling schedgain PriNormal)

def MACHMAX := 32

structure Proc where
  edf        : Bool
  cpu        : Int
  lastupdate : UInt32
  basepri    : Fin Npriq

-- An `int`.
def int (n : Int) : Option Int :=
  if -2 ^ 31 ≤ n ∧ n < 2 ^ 31 then some n else none

-- `sys->ticks*Scaling + Scaling/2`
def now (ticks : UInt32) : UInt32 :=
  ticks * .ofNat Scaling.toNat + .ofNat (Scaling.tdiv 2).toNat

def D : Int :=
  schedgain * HZ * Scaling

namespace Proc

variable (p : Proc)

-- The time since the last update.
def elapsed (ticks : UInt32) : Int :=
  (now ticks - p.lastupdate).toInt32.toInt

-- `isup` tells whether it is the process that runs here.
def updatecpu (ticks : UInt32) (isup : Bool) : Option Proc :=
  if p.edf then some p
  else do
    let n := p.elapsed ticks
    let p := { p with lastupdate := now ticks }
    if n = 0 then
      return p
    let n := if D < n then D else n
    if isup then
      let t ← int (1000 - p.cpu)
      let t ← int (t * (← int (D - n)))
      return { p with cpu := ← int (1000 - t.tdiv D) }
    else
      let t ← int (p.cpu * (← int (D - n)))
      return { p with cpu := t.tdiv D }

-- `basepri` is unsigned, and `ratio` is compared with it as if it were too.
def reprioritize (nmach load : Int) : Option Int :=
  if load = 0 then some p.basepri
  else do
    let fairshare := (← int ((← int (nmach * 1000)) * 1000)).tdiv load
    let n := if p.cpu = 0 then 1 else p.cpu
    let ratio := (← int (fairshare + n.tdiv 2)).tdiv n
    let ratio : Int := if p.basepri < ratio % 2 ^ 32 then p.basepri else ratio
    if ratio < 0 then none else some ratio

-- Its estimate is one.
def InRange : Prop :=
  0 ≤ p.cpu ∧ p.cpu ≤ 1000

end Proc

variable {p q : Proc} {ticks : UInt32} {isup : Bool} {nmach load n x : Int}

theorem int_eq (hlo : -2 ^ 31 ≤ n) (hhi : n < 2 ^ 31) : int n = some n :=
  if_pos ⟨hlo, hhi⟩

theorem decay (hx : 0 ≤ x ∧ x ≤ 1000) (hn : 0 ≤ n ∧ n ≤ D) :
    int (D - n) = some (D - n) ∧ int (x * (D - n)) = some (x * (D - n)) ∧
      0 ≤ (x * (D - n)).tdiv D ∧ (x * (D - n)).tdiv D ≤ x := by
  have hD : D = 6000 := rfl
  rw [hD] at hn ⊢
  have hlo : 0 ≤ x * (6000 - n) := Int.mul_nonneg hx.left (by omega)
  have hhi : x * (6000 - n) ≤ x * 6000 := Int.mul_le_mul_of_nonneg_left (by omega) hx.left
  refine ⟨int_eq (by omega) (by omega), int_eq (by omega) (by omega), ?_⟩
  rw [Int.tdiv_eq_ediv_of_nonneg hlo]
  omega

-- After a time that is not negative the estimate is in its range, and has changed in the direction that is right.
theorem updatecpu_range (hcpu : p.InRange) (hn : 0 ≤ p.elapsed ticks) :
    ∃ p', p.updatecpu ticks isup = some p' ∧ p'.InRange ∧ (p.edf = true ∨ p'.lastupdate = now ticks) ∧
      if isup then p.cpu ≤ p'.cpu else p'.cpu ≤ p.cpu := by
  rw [Proc.updatecpu]
  by_cases hedf : p.edf = true
  case pos =>
    rw [if_pos hedf]
    refine ⟨p, rfl, hcpu, .inl hedf, ?_⟩
    split <;> exact le_rfl
  case neg =>
    rw [if_neg hedf]
    by_cases hzero : p.elapsed ticks = 0
    case pos =>
      refine ⟨{ p with lastupdate := now ticks }, if_pos hzero, hcpu, .inr rfl, ?_⟩
      split <;> exact le_rfl
    case neg =>
      have hle : 0 ≤ (if D < p.elapsed ticks then D else p.elapsed ticks) ∧
          (if D < p.elapsed ticks then D else p.elapsed ticks) ≤ D := by
        have hD : D = 6000 := rfl
        split <;> omega
      generalize hm : (if D < p.elapsed ticks then D else p.elapsed ticks) = m at hle
      obtain ⟨hlo, hhi⟩ := hcpu
      cases isup
      case false =>
        obtain ⟨hsub, hmul, hge, hdecay⟩ := decay ⟨hlo, hhi⟩ hle
        refine ⟨{ p with lastupdate := now ticks, cpu := (p.cpu * (D - m)).tdiv D }, ?_, ⟨hge, hdecay.trans hhi⟩,
          .inr rfl, hdecay⟩
        simp only [hm, hzero, hsub, hmul, if_false, Bool.false_eq_true, Option.bind_eq_bind, Option.bind_some]
        rfl
      case true =>
        obtain ⟨hsub, hmul, hge, hdecay⟩ := decay (x := 1000 - p.cpu) (by omega) hle
        have hone : int (1000 - p.cpu) = some (1000 - p.cpu) := int_eq (by omega) (by omega)
        have hnew : int (1000 - ((1000 - p.cpu) * (D - m)).tdiv D) = some (1000 - ((1000 - p.cpu) * (D - m)).tdiv D) :=
          int_eq (by omega) (by omega)
        refine ⟨{ p with lastupdate := now ticks, cpu := 1000 - ((1000 - p.cpu) * (D - m)).tdiv D }, ?_,
          ⟨by dsimp only; omega, by dsimp only; omega⟩, .inr rfl, by simp only [if_true]; omega⟩
        simp only [hm, hzero, hsub, hone, hmul, hnew, if_false, if_true, Option.bind_eq_bind, Option.bind_some]
        rfl

-- The ratio of the fair share to what the process uses, rounded.
def ratio (fairshare n : Int) : Int :=
  (fairshare + n / 2) / n

theorem ratio_mono {fairshare m : Int} (hf : 0 ≤ fairshare) (hn : 0 < n) (hle : n ≤ m) :
    ratio fairshare m ≤ ratio fairshare n := by
  have hm : 0 < m := hn.trans_le hle
  rw [ratio, ratio, Int.le_ediv_iff_mul_le hn]
  by_cases hk : (fairshare + m / 2) / m ≤ 0
  case pos =>
    have hmul : (fairshare + m / 2) / m * n ≤ 0 := Int.mul_nonpos_of_nonpos_of_nonneg hk hn.le
    omega
  case neg =>
    have hfit : (fairshare + m / 2) / m * m ≤ fairshare + m / 2 := Int.ediv_mul_le _ hm.ne'
    generalize (fairshare + m / 2) / m = k at hk hfit ⊢
    -- the share of one more unit is more than the rounding
    have hstep : 1 * (m - n) ≤ k * (m - n) := Int.mul_le_mul_of_nonneg_right (by omega) (by omega)
    rw [Int.one_mul, Int.mul_sub] at hstep
    omega

-- The estimate that the priority is computed from.
def Proc.share (p : Proc) : Int :=
  if p.cpu = 0 then 1 else p.cpu

theorem share_pos (hcpu : p.InRange) : 0 < p.share ∧ p.share ≤ 1000 := by
  obtain ⟨hlo, hhi⟩ := hcpu
  rw [Proc.share]
  split <;> omega

theorem reprioritize_eq (hcpu : p.InRange) (hnmach : 0 ≤ nmach ∧ nmach ≤ MACHMAX) (hload : 0 < load) :
    p.reprioritize nmach load = some (min ↑p.basepri (ratio (nmach * 1000 * 1000 / load) p.share)) := by
  obtain ⟨hpos, hmax⟩ := share_pos hcpu
  have hM : ((MACHMAX : Nat) : Int) = 32 := rfl
  have hthousand : int (nmach * 1000) = some (nmach * 1000) := int_eq (by omega) (by omega)
  have hmillion : int (nmach * 1000 * 1000) = some (nmach * 1000 * 1000) := int_eq (by omega) (by omega)
  have hnum : 0 ≤ nmach * 1000 * 1000 := by omega
  have hfair : (nmach * 1000 * 1000).tdiv load = nmach * 1000 * 1000 / load := Int.tdiv_eq_ediv_of_nonneg hnum
  have hshare : 0 ≤ nmach * 1000 * 1000 / load := Int.ediv_nonneg hnum hload.le
  have hbound : nmach * 1000 * 1000 / load ≤ nmach * 1000 * 1000 := Int.ediv_le_self _ hnum
  have hhalf : p.share.tdiv 2 = p.share / 2 := Int.tdiv_eq_ediv_of_nonneg hpos.le
  generalize nmach * 1000 * 1000 / load = fairshare at hfair hshare hbound ⊢
  have hsum : int (fairshare + p.share / 2) = some (fairshare + p.share / 2) := int_eq (by omega) (by omega)
  have hratio : (fairshare + p.share / 2).tdiv p.share = ratio fairshare p.share := Int.tdiv_eq_ediv_of_nonneg (by omega)
  have hge : 0 ≤ ratio fairshare p.share := Int.ediv_nonneg (by omega) hpos.le
  have hlt : ratio fairshare p.share ≤ fairshare + p.share / 2 := Int.ediv_le_self _ (by omega)
  have hmod : ratio fairshare p.share % 2 ^ 32 = ratio fairshare p.share := Int.emod_eq_of_lt hge (by omega)
  rw [Proc.reprioritize, if_neg hload.ne']
  change (do
    let fairshare := (← int ((← int (nmach * 1000)) * 1000)).tdiv load
    let ratio := (← int (fairshare + p.share.tdiv 2)).tdiv p.share
    let ratio : Int := if p.basepri < ratio % 2 ^ 32 then p.basepri else ratio
    if ratio < 0 then none else some ratio) = _
  simp only [hthousand, hmillion, hfair, hhalf, hsum, hratio, hmod, Option.bind_eq_bind, Option.bind_some]
  split
  case isTrue hlow => rw [if_neg (by omega), min_eq_left hlow.le]
  case isFalse hhigh => rw [if_neg (by omega), min_eq_right (by omega)]

-- What there is to know of a run of the two: the estimate stays in its range and moves in one direction, and the
-- priority is one that the process may have, is the highest such if it uses less than its share by that factor, and
-- is not more where the estimate is more.
theorem usage_and_priority (hcpu : p.InRange) (isup : Bool) (ticks : UInt32) (hn : 0 ≤ p.elapsed ticks)
    (nmach load : Int) (hnmach : 0 ≤ nmach ∧ nmach ≤ MACHMAX) (hload : 0 ≤ load) :
    (∃ p', p.updatecpu ticks isup = some p' ∧ p'.InRange ∧ (p.edf = true ∨ p'.lastupdate = now ticks) ∧
      if isup then p.cpu ≤ p'.cpu else p'.cpu ≤ p.cpu) ∧
    ∃ pri, p.reprioritize nmach load = some pri ∧ 0 ≤ pri ∧ pri ≤ p.basepri ∧
      (load = 0 ∨ p.basepri * p.share ≤ nmach * 1000 * 1000 / load + p.share / 2 ↔ pri = p.basepri) ∧
      ∀ q : Proc, q.InRange → q.basepri = p.basepri → p.cpu ≤ q.cpu →
        ∃ pri', q.reprioritize nmach load = some pri' ∧ pri' ≤ pri := by
  refine ⟨updatecpu_range hcpu hn, ?_⟩
  rcases hload.eq_or_lt with rfl | hpos
  case inl => exact ⟨p.basepri, if_pos rfl, by omega, le_rfl, by simp, fun q _ hb _ => ⟨q.basepri, if_pos rfl, by rw [hb]⟩⟩
  case inr =>
    have hfair : 0 ≤ nmach * 1000 * 1000 / load := Int.ediv_nonneg (by omega) hload
    obtain ⟨hshare, -⟩ := share_pos hcpu
    have hge : 0 ≤ ratio (nmach * 1000 * 1000 / load) p.share := Int.ediv_nonneg (by omega) hshare.le
    refine ⟨_, reprioritize_eq hcpu hnmach hpos, by omega, min_le_left _ _, ?_, fun q hq hb hle => ?_⟩
    · rw [min_eq_left_iff, ratio, Int.le_ediv_iff_mul_le hshare, or_iff_right hpos.ne']
    · refine ⟨_, reprioritize_eq hq hnmach hpos, ?_⟩
      have hmore : p.share ≤ q.share := by
        rw [Proc.share, Proc.share]
        have := hcpu.left
        split <;> split <;> omega
      rw [hb]
      exact min_le_min_left _ (ratio_mono hfair hshare hmore)

def user (cpu : Int) (lastupdate : UInt32) : Proc where
  edf        := false
  cpu        := cpu
  lastupdate := lastupdate
  basepri    := ⟨PriNormal, by decide⟩

theorem usage_and_priority_user :
    (∃ p', (user 500 1).updatecpu 1500 false = some p' ∧ p'.cpu = 250) ∧ (user 50 0).reprioritize 1 2000 = some 10 ∧
      (user 100 0).reprioritize 1 2000 = some 5 := by
  have hcpu : (user 500 1).InRange := ⟨by decide, by decide⟩
  have hlow : (user 50 0).InRange := ⟨by decide, by decide⟩
  obtain ⟨⟨p', hp, -⟩, -⟩ := usage_and_priority hcpu false 1500 (by decide) 1 2000 (by decide) (by decide)
  obtain ⟨-, pri, hpri, -, -, hiff, -⟩ := usage_and_priority hlow false 0 (by decide) 1 2000 (by decide) (by decide)
  have hcpu' : ((user 500 1).updatecpu 1500 false).map (·.cpu) = some 250 := by decide +kernel
  rw [hp] at hcpu'
  exact ⟨⟨p', hp, Option.some.inj hcpu'⟩, hpri.trans (congrArg some (hiff.mp (.inr (by decide)))), by decide +kernel⟩

-- A process that uses half of its fair share does not have the priority it could have. After a time that is negative
-- as an `int`, the estimate is out of its range.
theorem not_usage_and_priority :
    (¬∀ p : Proc, p.InRange → p.cpu ≤ 1 * 1000 * 1000 / 1000 → p.reprioritize 1 1000 = some ↑p.basepri) ∧
      ¬∀ p : Proc, p.InRange → ∀ p', p.updatecpu 0 false = some p' → p'.InRange := by
  constructor
  · intro h
    have hpri := h (user 500 0) ⟨by decide, by decide⟩ (by decide)
    exact absurd hpri (by decide +kernel)
  · intro h
    have hrange := h (user 1000 13) ⟨by decide, by decide⟩ { user 1000 13 with cpu := 1002, lastupdate := 1 } (by rfl)
    exact absurd hrange.right (by decide)

end Port.Updatecpu
