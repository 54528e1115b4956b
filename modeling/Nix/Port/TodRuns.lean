import Nix.Port.TodTicks

namespace Port.Tod

-- The clock, with the fast and the slow ticks, and what was read by each `todfix` that has not locked yet.
structure Clock where
  tod    : State
  k      : Fastticks
  slow   : BitVec 32
  fixing : List Fix

inductive Action
  | pass (n : Nat)
  | tick
  | todsetfreq (f : BitVec 64)
  | todset (t delta : BitVec 64) (n : BitVec 32)
  | todget
  | todfix
  | todfixed (fix : Fix)

namespace Clock

variable (c : Clock)

def todget : Option ((BitVec 64 × BitVec 64) × State) :=
  c.tod.todget c.k c.slow

def step : Action → Option Clock
  | .pass n           => some { c with k := { c.k with ticks := c.k.ticks + BitVec.ofNat 64 n } }
  | .tick             => some { c with slow := c.slow + 1 }
  | .todsetfreq f     => (c.tod.todsetfreq f).map ({ c with tod := · })
  | .todset t delta n => (c.tod.todset c.k c.slow t delta n).map ({ c with tod := · })
  | .todget           => c.todget.map fun r => { c with tod := r.snd }
  | .todfix           => some { c with fixing := (c.tod.todfix c.k).toList ++ c.fixing }
  | .todfixed fix     =>
    if fix ∈ c.fixing then some { c with tod := c.tod.todfixed fix, fixing := c.fixing.erase fix } else none

end Clock

-- An adjustment: what `todset` stored, how many slow ticks there were since, how many of its ticks there were when
-- `todget` was last called, and what `todget` added.
structure Adjust where
  delta   : BitVec 64
  n       : BitVec 32
  ticked  : Nat
  counted : Nat
  applied : BitVec 64

-- What was returned since the time was set, the last first, and the adjustment since then.
structure Record where
  returned : List Int
  adjust   : Option Adjust

namespace Record

def note (c : Clock) (a : Action) (r : Record) : Record :=
  match a with
  | .tick             => { r with adjust := r.adjust.map fun a => { a with ticked := a.ticked + 1 } }
  | .todset t delta n =>
    if 0 ≤ t.toInt then
      ⟨[], none⟩
    else
      { r with adjust := (c.tod.todset c.k c.slow t delta n).map fun tod => ⟨tod.delta, tod.send - tod.sstart, 0, 0, 0⟩ }
  | .todget =>
    match c.todget with
    | none               => r
    | some ((x, _), tod) =>
      ⟨x.toInt :: r.returned, r.adjust.map fun a =>
        { a with counted := min a.ticked a.n.toNat, applied := a.applied + (tod.off - c.tod.off) }⟩
  | _ => r

end Record

-- From a call of `todset` that sets the time on.
def machine : Machine Clock Action where
  init c := c.fixing = [] ∧ c.k.ticks.toNat < 2 ^ 63 ∧
    ∃ (tod : State) (t delta : BitVec 64) (n : BitVec 32), tod.init = true ∧ 0 ≤ t.toInt ∧
      tod.todset c.k c.slow t delta n = some c.tod
  step   := Clock.step

def tracked : Machine (Clock × Record) Action :=
  machine.track Record (fun _ => ⟨[], none⟩) Record.note

-- The readings of the fast clock do not decrease.
def Asked (s : Clock × Record) : Action → Prop
  | .pass n => s.fst.k.ticks.toNat + n < 2 ^ 63
  | _       => True

-- The time that is due.
def due (c : Clock) : Int :=
  c.tod.off.toInt + c.tod.delta.toInt * (if c.tod.sstart = c.tod.send then 0 else c.tod.upto c.slow - c.tod.sstart).toNat +
    (((c.k.ticks.toNat - c.tod.last.toNat) * c.tod.multiplier.toNat / 2 ^ 32 : Nat) : Int)

-- Time that is not negative, an end that has come where its number is not above that of the slow ticks, no division by
-- zero, and, while `todfix` waits for the lock, no other that gets there first. The ticks that `todfix` has read and
-- those since then are not a whole nanosecond more when they are taken together.
def Fair (s : Clock × Record) : Action → Prop
  | .todsetfreq f     => f ≠ 0
  | .todset t delta n => t.toInt < 0 → n ≠ 2 ^ 30 ∧ delta ≠ BitVec.intMin 64
  | .todget           => due s.fst % 2 ^ 64 < 2 ^ 63 ∧ ∀ a ∈ s.snd.adjust, s.fst.tod.sstart ≠ s.fst.tod.send →
    (s.fst.tod.send ≤ s.fst.slow ↔ a.n.toNat ≤ a.ticked)
  | .todfixed fix     => fix.diff = fix.ticks - s.fst.tod.last ∧
    (s.fst.k.ticks.toNat - fix.ticks.toNat) * s.fst.tod.multiplier.toNat % 2 ^ 32 +
      fix.diff.toNat * s.fst.tod.multiplier.toNat % 2 ^ 32 < 2 ^ 32
  | _                 => True

instance (s : Clock × Record) (a : Action) : Decidable (Asked s a) := by
  cases a <;> unfold Asked <;> infer_instance

instance (s : Clock × Record) (a : Action) : Decidable (Fair s a) := by
  cases a <;> unfold Fair <;> infer_instance

structure Kept (cond : Clock × Record → Action → Prop) (s : Clock × Record) : Prop where
  -- Time does not go backwards.
  returned : s.snd.returned.Pairwise (· ≥ ·)
  -- `todfix` does not change it.
  todfixed : ∀ fix c, cond s (.todfixed fix) → s.fst.step (.todfixed fix) = some c →
    c.todget.map Prod.fst = s.fst.todget.map Prod.fst
  -- Each slow tick is counted once, and all are when an adjustment has ended.
  adjusted : ∀ a ∈ s.snd.adjust, a.applied = a.delta * BitVec.ofNat 64 a.counted ∧ a.counted ≤ a.ticked ∧
    a.counted ≤ a.n.toNat ∧ (s.fst.tod.sstart = s.fst.tod.send → a.counted = a.n.toNat)
  divides  : ∀ a, cond s a → (∀ fix, a = .todfixed fix → fix ∈ s.fst.fixing) → (s.fst.step a).isSome

section

variable {tod tod' : State} {k : Fastticks} {slow : BitVec 32} {t delta f : BitVec 64} {n : BitVec 32} {fix : Fix}

namespace State

@[simp]
theorem todinit_of_init (h : tod.init = true) : tod.todinit k = some tod :=
  if_pos h

theorem todset_of_nonneg (h : tod.init = true) (ht : 0 ≤ t.toInt) : tod.todset k slow t delta n =
    some { tod with off := t, last := k.ticks, lasttime := 0, delta := 0, sstart := tod.send } := by
  rw [todset, todinit_of_init h]
  exact if_pos ht

theorem setWidth_ne_zero {x : BitVec 64} (hpos : 0 < x.toInt) (hlt : x.toInt < 2 ^ 31) : x.setWidth 32 ≠ 0 := by
  intro h
  have h := congrArg BitVec.toNat h
  change (x.setWidth 32).toNat = 0 at h
  rw [BitVec.toNat_setWidth] at h
  rw [BitVec.toInt_eq_toNat_cond] at hpos hlt
  split at hpos <;> omega

theorem mul_HZ_eq_zero : (if n.toInt ≤ 0 then 1 else n) * HZ = 0 ↔ n = 2 ^ 30 := by
  have hlt := n.isLt
  have hint := BitVec.toInt_eq_toNat_cond n
  have hmul (m : BitVec 32) : m * HZ = 0 ↔ m.toNat * 100 % 2 ^ 32 = 0 := by
    rw [← BitVec.toNat_inj, BitVec.toNat_mul]
    rfl
  have hpow : n = 2 ^ 30 ↔ n.toNat = 2 ^ 30 := BitVec.toNat_inj.symm
  rw [hmul, hpow]
  split
  case isTrue h  =>
    change 1 * 100 % 2 ^ 32 = 0 ↔ _
    split at hint <;> omega
  case isFalse h =>
    have hsmall : 0 < n.toNat ∧ n.toNat < 2 ^ 31 := by split at hint <;> omega
    clear hint h
    refine ⟨fun hzero => ?_, fun heq => by omega⟩
    obtain ⟨k, hk⟩ := Nat.dvd_of_mod_eq_zero hzero
    omega

-- The number of slow ticks is zero where the product wraps to it, and where `delta` has no opposite.
theorem slowticks_eq_zero : slowticks delta n = 0 ↔ n = 2 ^ 30 ∨ delta = BitVec.intMin 64 := by
  rw [slowticks, ← mul_HZ_eq_zero]
  generalize (if n.toInt ≤ 0 then 1 else n) * HZ = m
  have hlow := BitVec.le_toInt m
  have hup := BitVec.toInt_lt (x := m)
  by_cases hmin : delta = BitVec.intMin 64
  case pos =>
    subst hmin
    have hneg : (-BitVec.intMin 64).toInt = -2 ^ 63 := by decide
    rw [if_pos (c := _ ∧ m.toInt > _) ⟨by decide, by omega⟩, if_neg fun h => absurd h.left (by decide)]
    exact iff_of_true (by decide) (.inr rfl)
  case neg =>
    rw [or_iff_left hmin, BitVec.toInt_neg_of_ne_intMin hmin]
    have hz : m = 0 → m.toInt = 0 := fun h => h ▸ rfl
    by_cases hclamp : delta.toInt < 0 ∧ m.toInt > -delta.toInt
    case pos =>
      have hopp := BitVec.toInt_neg_of_ne_intMin hmin
      rw [if_pos hclamp, if_neg fun h => h.left.not_gt hclamp.left]
      exact iff_of_false (setWidth_ne_zero (by omega) (by omega)) fun h => by
        have := hz h
        omega
    case neg =>
      rw [if_neg hclamp]
      split
      case isFalse => rfl
      case isTrue h =>
        exact iff_of_false (setWidth_ne_zero h.left (by omega)) fun h0 => by
          have := hz h0
          omega

theorem todset_of_neg (h : tod.init = true) (ht : t.toInt < 0) : tod.todset k slow t delta n =
    if slowticks delta n = 0 then none else
      some { tod with
        sstart := slow, send := slow + slowticks delta n, delta := delta.sdiv ((slowticks delta n).signExtend 64) } := by
  rw [todset, todinit_of_init h]
  exact if_neg ht.not_ge

theorem correct_of_eq (h : tod.sstart = tod.send) : tod.correct slow = tod :=
  if_neg (not_not_intro h)

theorem correct_of_ne (h : tod.sstart ≠ tod.send) : tod.correct slow = { tod with
    off := tod.off + tod.delta * (tod.upto slow - tod.sstart).setWidth 64, sstart := tod.upto slow } :=
  if_pos h

theorem correct_eq : tod.correct slow =
    { tod with off := (tod.correct slow).off, sstart := (tod.correct slow).sstart } := by
  rw [correct]
  split <;> rfl

-- The time, if it does not go backwards.
def time (tod : State) (k : Fastticks) (slow : BitVec 32) : BitVec 64 :=
  mul64fract (k.ticks - tod.last) tod.multiplier + (tod.correct slow).off

def latest (tod : State) (k : Fastticks) (slow : BitVec 32) : BitVec 64 :=
  if tod.time k slow < tod.lasttime then tod.lasttime else tod.time k slow

theorem todget_eq (h : tod.init = true) (hle : tod.last.toNat ≤ k.ticks.toNat) (hlt : k.ticks.toNat < 2 ^ 63) :
    tod.todget k slow =
      some ((tod.latest k slow, k.ticks), { tod.correct slow with lasttime := tod.latest k slow }) := by
  have hdiff : ¬(k.ticks - tod.last).toInt < 0 := by
    rw [BitVec.toInt_eq_toNat_of_lt] <;> rw [BitVec.toNat_sub_of_le hle] <;> omega
  have hc := @correct_eq tod slow
  unfold todget latest time
  rw [todinit_of_init h]
  change (if mul64fract (if (k.ticks - (tod.correct slow).last).toInt < 0 then 0 else k.ticks - (tod.correct slow).last)
    (tod.correct slow).multiplier + (tod.correct slow).off < (tod.correct slow).lasttime then
    some (((tod.correct slow).lasttime, k.ticks), tod.correct slow) else _) = _
  generalize tod.correct slow = tod₁ at hc ⊢
  have hlast : tod₁.last = tod.last := by rw [hc]
  have hmultiplier : tod₁.multiplier = tod.multiplier := by rw [hc]
  have hlasttime : tod₁.lasttime = tod.lasttime := by rw [hc]
  rw [hlast, hmultiplier, hlasttime, if_neg hdiff]
  split
  · rw [← hlasttime]
  · rw [← hlast, ← hmultiplier]
    rfl

-- Where neither is negative the later time is returned.
theorem latest_le (hlast : tod.lasttime.toNat < 2 ^ 63) (htime : (tod.time k slow).toNat < 2 ^ 63) :
    tod.lasttime.toInt ≤ (tod.latest k slow).toInt ∧ (tod.latest k slow).toNat < 2 ^ 63 := by
  rw [latest]
  split
  case isTrue  => exact ⟨le_rfl, hlast⟩
  case isFalse h =>
    refine ⟨?_, htime⟩
    rw [BitVec.lt_def] at h
    rw [BitVec.toInt_eq_toNat_of_lt (by omega), BitVec.toInt_eq_toNat_of_lt (by omega)]
    omega

theorem time_todfixed (hdiff : fix.diff = fix.ticks - tod.last) (hle : tod.last.toNat ≤ fix.ticks.toNat)
    (hticks : fix.ticks.toNat ≤ k.ticks.toNat)
    (hcarry : (k.ticks.toNat - fix.ticks.toNat) * tod.multiplier.toNat % 2 ^ 32 +
      fix.diff.toNat * tod.multiplier.toNat % 2 ^ 32 < 2 ^ 32) :
    (tod.todfixed fix).time k slow = tod.time k slow := by
  have hsplit : mul64fract (k.ticks - tod.last) tod.multiplier =
      mul64fract (k.ticks - fix.ticks) tod.multiplier + mul64fract fix.diff tod.multiplier := by
    apply BitVec.eq_of_toNat_eq
    have hnat : fix.diff.toNat = fix.ticks.toNat - tod.last.toNat := by rw [hdiff, BitVec.toNat_sub_of_le hle]
    have hsum : (k.ticks - tod.last).toNat = (k.ticks.toNat - fix.ticks.toNat) + fix.diff.toNat := by
      rw [BitVec.toNat_sub_of_le (hle.trans hticks), hnat]
      omega
    rw [BitVec.toNat_add, mul64fract_eq, mul64fract_eq, mul64fract_eq, hsum, BitVec.toNat_sub_of_le hticks, Nat.add_mul,
      Nat.add_div_eq_of_add_mod_lt hcarry, ← Nat.add_mod]
  have hoff : ((tod.todfixed fix).correct slow).off = mul64fract fix.diff tod.multiplier + (tod.correct slow).off := by
    by_cases h : tod.sstart = tod.send
    · rw [correct_of_eq h, @correct_of_eq (tod.todfixed fix) _ h]
      rfl
    · rw [correct_of_ne h, @correct_of_ne (tod.todfixed fix) _ h]
      exact BitVec.add_assoc ..
  unfold time
  rw [hoff, hsplit, BitVec.add_assoc]
  rfl

end State

end

section

variable {c : Clock} {a : Adjust}

theorem time_eq (hle : c.tod.last.toNat ≤ c.k.ticks.toNat) : c.tod.time c.k c.slow = BitVec.ofInt 64 (due c) := by
  have hoff : (c.tod.correct c.slow).off = c.tod.off + c.tod.delta *
      (if c.tod.sstart = c.tod.send then 0 else c.tod.upto c.slow - c.tod.sstart).setWidth 64 := by
    split
    case isTrue h  =>
      rw [State.correct_of_eq h]
      change _ = _ + _ * 0#64
      rw [BitVec.mul_zero, BitVec.add_zero]
    case isFalse h => rw [State.correct_of_ne h]
  have hfract : mul64fract (c.k.ticks - c.tod.last) c.tod.multiplier =
      BitVec.ofInt 64 (((c.k.ticks.toNat - c.tod.last.toNat) * c.tod.multiplier.toNat / 2 ^ 32 : Nat) : Int) := by
    rw [BitVec.ofInt_natCast]
    apply BitVec.eq_of_toNat_eq
    rw [mul64fract_eq, BitVec.toNat_sub_of_le hle, BitVec.toNat_ofNat]
  unfold due State.time
  rw [hoff, hfract, BitVec.ofInt_add, BitVec.ofInt_add, BitVec.ofInt_mul, BitVec.ofInt_toInt, BitVec.ofInt_toInt,
    BitVec.ofInt_natCast, BitVec.ofInt_natCast, BitVec.ofNat_toNat, BitVec.add_comm]

theorem time_lt (hle : c.tod.last.toNat ≤ c.k.ticks.toNat) (hdue : due c % 2 ^ 64 < 2 ^ 63) :
    (c.tod.time c.k c.slow).toNat < 2 ^ 63 := by
  rw [time_eq hle, BitVec.toNat_ofInt]
  omega

-- An adjustment that goes on.
structure Adjusting (c : Clock) (a : Adjust) : Prop where
  delta   : c.tod.delta = a.delta
  applied : a.applied = a.delta * BitVec.ofNat 64 a.counted
  ticked  : a.counted ≤ a.ticked
  counted : a.counted ≤ a.n.toNat
  send    : c.tod.send = c.tod.sstart + BitVec.ofNat 32 (a.n.toNat - a.counted)
  slow    : a.counted < a.n.toNat → c.slow = c.tod.sstart + BitVec.ofNat 32 (a.ticked - a.counted)

namespace Adjusting

theorem ended_iff (h : Adjusting c a) : c.tod.sstart = c.tod.send ↔ a.counted = a.n.toNat := by
  have hle := h.counted
  have hlt := a.n.isLt
  have hadd : c.tod.sstart = c.tod.sstart + BitVec.ofNat 32 (a.n.toNat - a.counted) ↔
      BitVec.ofNat 32 (a.n.toNat - a.counted) = 0 := left_eq_add
  rw [h.send, hadd, ← BitVec.toNat_inj, BitVec.toNat_ofNat, Nat.mod_eq_of_lt (by omega)]
  change _ = 0 ↔ _
  omega

theorem tick (h : Adjusting c a) : Adjusting { c with slow := c.slow + 1 } { a with ticked := a.ticked + 1 } where
  delta   := h.delta
  applied := h.applied
  ticked  := Nat.le_succ_of_le h.ticked
  counted := h.counted
  send    := h.send
  slow hlt := by
    dsimp only
    rw [h.slow hlt, BitVec.add_assoc, Nat.succ_sub h.ticked, Nat.succ_eq_add_one, BitVec.ofNat_add]
    rfl

theorem upto (h : Adjusting c a) (hne : a.counted < a.n.toNat) (hend : c.tod.send ≤ c.slow ↔ a.n.toNat ≤ a.ticked) :
    c.tod.upto c.slow = c.tod.sstart + BitVec.ofNat 32 (min a.ticked a.n.toNat - a.counted) := by
  unfold State.upto
  by_cases hle : a.n.toNat ≤ a.ticked
  case pos => rw [if_pos (hend.mpr hle), min_eq_right hle, h.send]
  case neg => rw [if_neg fun h => hle (hend.mp h), min_eq_left (Nat.le_of_not_le hle), h.slow hne]

theorem todget (h : Adjusting c a)
    (hend : c.tod.sstart ≠ c.tod.send → (c.tod.send ≤ c.slow ↔ a.n.toNat ≤ a.ticked)) (x : BitVec 64) :
    Adjusting { c with tod := { c.tod.correct c.slow with lasttime := x } }
      { a with counted := min a.ticked a.n.toNat, applied := a.applied + ((c.tod.correct c.slow).off - c.tod.off) } := by
  have hlt := a.n.isLt
  have hticked := h.ticked
  have hcounted := h.counted
  by_cases heq : c.tod.sstart = c.tod.send
  case pos =>
    have hn := h.ended_iff.mp heq
    have hmin : min a.ticked a.n.toNat = a.counted := by omega
    rw [State.correct_of_eq heq, hmin, BitVec.sub_self, BitVec.add_zero]
    exact { h with }
  case neg =>
    have hne : a.counted < a.n.toNat := lt_of_le_of_ne hcounted fun h' => heq (h.ended_iff.mpr h')
    have hupto := h.upto hne (hend heq)
    rw [State.correct_of_ne heq, hupto]
    refine ⟨h.delta, ?_, Nat.min_le_left .., Nat.min_le_right .., ?_, fun hmin => ?_⟩ <;> dsimp only at *
    · rw [add_sub_cancel_left, add_sub_cancel_left, BitVec.setWidth_ofNat_of_le_of_lt (by decide) (by omega), h.applied,
        h.delta, ← BitVec.mul_add, ← BitVec.ofNat_add]
      congr 2
      omega
    · rw [h.send, BitVec.add_assoc, ← BitVec.ofNat_add]
      congr 2
      omega
    · rw [h.slow hne, BitVec.add_assoc, ← BitVec.ofNat_add]
      congr 2
      omega

end Adjusting

theorem Adjusting.begin (send : BitVec 32) (delta : BitVec 64) :
    Adjusting { c with tod := { c.tod with sstart := c.slow, send := send, delta := delta } }
      ⟨delta, send - c.slow, 0, 0, 0⟩ where
  delta   := rfl
  applied := (BitVec.mul_zero ..).symm
  ticked  := le_rfl
  counted := Nat.zero_le _
  send    := by
    dsimp only
    rw [Nat.sub_zero, BitVec.ofNat_toNat, BitVec.setWidth_eq, add_sub_cancel]
  slow _  := (BitVec.add_zero ..).symm

-- What `todfix` has read.
structure Read (c : Clock) (fix : Fix) : Prop where
  ticks : fix.ticks.toNat ≤ c.k.ticks.toNat
  diff  : fix.diff.toNat ≤ fix.ticks.toNat

theorem Read.last_le {fix : Fix} (h : Read c fix) (hdiff : fix.diff = fix.ticks - c.tod.last) :
    c.tod.last.toNat ≤ fix.ticks.toNat := by
  have hlast : c.tod.last = fix.ticks - fix.diff := by rw [hdiff, sub_sub_cancel]
  rw [hlast, BitVec.toNat_sub_of_le h.diff]
  exact Nat.sub_le ..

end

-- What holds all along.
structure Good (s : Clock × Record) : Prop where
  init     : s.fst.tod.init = true
  ticks    : s.fst.k.ticks.toNat < 2 ^ 63
  last     : s.fst.tod.last.toNat ≤ s.fst.k.ticks.toNat
  fixing   : ∀ fix ∈ s.fst.fixing, Read s.fst fix
  lasttime : s.fst.tod.lasttime.toNat < 2 ^ 63
  le       : ∀ x ∈ s.snd.returned, x ≤ s.fst.tod.lasttime.toInt
  returned : s.snd.returned.Pairwise (· ≥ ·)
  adjust   : ∀ a ∈ s.snd.adjust, Adjusting s.fst a

namespace Good

variable {c : Clock} {r : Record} {t delta f : BitVec 64} {n : BitVec 32} {fix : Fix}

theorem pass (h : Good (c, r)) {n : Nat} (hn : c.k.ticks.toNat + n < 2 ^ 63) :
    Good ({ c with k := { c.k with ticks := c.k.ticks + BitVec.ofNat 64 n } }, r) := by
  have hticks : (c.k.ticks + BitVec.ofNat 64 n).toNat = c.k.ticks.toNat + n := by
    rw [BitVec.toNat_add, BitVec.toNat_ofNat]
    omega
  have hle : c.k.ticks.toNat ≤ (c.k.ticks + BitVec.ofNat 64 n).toNat := by omega
  exact { h with
    ticks  := hticks ▸ hn
    last   := h.last.trans hle
    fixing := fun fix hfix => ⟨(h.fixing fix hfix).ticks.trans hle, (h.fixing fix hfix).diff⟩
    adjust := fun a ha => { h.adjust a ha with } }

theorem tick (h : Good (c, r)) : Good ({ c with slow := c.slow + 1 }, r.note c .tick) where
  init     := h.init
  ticks    := h.ticks
  last     := h.last
  fixing   := fun fix hfix => { h.fixing fix hfix with }
  lasttime := h.lasttime
  le       := h.le
  returned := h.returned
  adjust a ha := by
    obtain ⟨a, hold, rfl⟩ := Option.map_eq_some_iff.mp ha
    exact (h.adjust a hold).tick

theorem todsetfreq (h : Good (c, r)) {tod : State} (hset : c.tod.todsetfreq f = some tod) :
    Good ({ c with tod := tod }, r) := by
  simp only [State.todsetfreq, Option.bind_eq_bind, Option.bind_eq_some_iff] at hset
  obtain ⟨m, -, d, -, um, -, ud, -, htod⟩ := hset
  obtain rfl := Option.some.inj htod
  exact { h with
    fixing := fun fix hfix => { h.fixing fix hfix with }
    adjust := fun a ha => { h.adjust a ha with } }

theorem todset (h : Good (c, r)) {tod : State} (hset : c.tod.todset c.k c.slow t delta n = some tod) :
    Good ({ c with tod := tod }, r.note c (.todset t delta n)) := by
  rcases le_or_gt 0 t.toInt with ht | ht
  · rw [State.todset_of_nonneg h.init ht] at hset
    obtain rfl := Option.some.inj hset
    rw [Record.note, if_pos ht]
    exact { h with
      last     := le_rfl
      fixing   := fun fix hfix => { h.fixing fix hfix with }
      lasttime := Nat.two_pow_pos 63
      le       := by simp
      returned := .nil
      adjust   := by simp }
  · rw [Record.note, if_neg ht.not_ge, hset]
    rw [State.todset_of_neg h.init ht] at hset
    split at hset
    case isTrue  => cases hset
    case isFalse =>
      obtain rfl := Option.some.inj hset
      exact { h with
        fixing := fun fix hfix => { h.fixing fix hfix with }
        adjust := fun a ha => by
          obtain rfl := Option.some.inj ha
          exact .begin .. }

theorem todget_eq (h : Good (c, r)) : c.todget = some ((c.tod.latest c.k c.slow, c.k.ticks),
    { c.tod.correct c.slow with lasttime := c.tod.latest c.k c.slow }) :=
  State.todget_eq h.init h.last h.ticks

theorem todget (h : Good (c, r)) (hfair : Fair (c, r) .todget) {c' : Clock} (hget : c.step .todget = some c') :
    Good (c', r.note c .todget) := by
  obtain ⟨hdue, hend⟩ := hfair
  obtain ⟨hle, hlt⟩ := State.latest_le h.lasttime (time_lt h.last hdue)
  have heq := h.todget_eq
  rw [Clock.step, heq] at hget
  obtain rfl := Option.some.inj hget
  have hc := @State.correct_eq c.tod c.slow
  have hold : ∀ x ∈ r.returned, x ≤ (c.tod.latest c.k c.slow).toInt := fun x hx => (h.le x hx).trans hle
  rw [Record.note, heq]
  refine ⟨?_, h.ticks, ?_, fun fix hfix => { h.fixing fix hfix with }, hlt, ?_, ?_, fun a ha => ?_⟩
  · rw [hc]
    exact h.init
  · rw [hc]
    exact h.last
  · exact List.forall_mem_cons.mpr ⟨le_rfl, hold⟩
  · exact .cons hold h.returned
  · obtain ⟨a, hadj, rfl⟩ := Option.map_eq_some_iff.mp ha
    exact (h.adjust a hadj).todget (hend a hadj) _

theorem todfix (h : Good (c, r)) : Good ({ c with fixing := (c.tod.todfix c.k).toList ++ c.fixing }, r) := by
  refine { h with fixing := fun fix hfix => ?_, adjust := fun a ha => { h.adjust a ha with } }
  rcases List.mem_append.mp hfix with hfix | hfix
  · rw [Option.mem_toList] at hfix
    obtain ⟨-, hread⟩ := Option.ite_none_right_eq_some.mp hfix
    obtain rfl := Option.some.inj hread
    refine ⟨le_rfl, ?_⟩
    rw [BitVec.toNat_sub_of_le h.last]
    exact Nat.sub_le ..
  · exact { h.fixing fix hfix with }

theorem todfixed (h : Good (c, r)) (hfix : fix ∈ c.fixing) :
    Good ({ c with tod := c.tod.todfixed fix, fixing := c.fixing.erase fix }, r) :=
  { h with
    last   := (h.fixing fix hfix).ticks
    fixing := fun fix' hfix' => { h.fixing fix' (List.mem_of_mem_erase hfix') with }
    adjust := fun a ha => { h.adjust a ha with } }

end Good

theorem good_invariant : tracked.Invariant (fun s a => Asked s a ∧ Fair s a) Good where
  init := by
    rintro ⟨⟨tod, k, slow, fixing⟩, r⟩ ⟨⟨rfl : fixing = [], hticks, tod, t, delta, n, hinit, ht, hset⟩, hr⟩
    obtain rfl : r = ⟨[], none⟩ := hr
    rw [State.todset_of_nonneg hinit ht] at hset
    dsimp only at hset
    obtain rfl := Option.some.inj hset
    exact ⟨hinit, hticks, le_rfl, by simp, Nat.two_pow_pos 63, by simp, .nil, by simp⟩
  step := by
    rintro ⟨c, r⟩ a ⟨c', r'⟩ h ⟨hasked, hfair⟩ hstep
    obtain ⟨hact, rfl : r' = _⟩ := Machine.track_step_eq.mp hstep
    clear hstep
    dsimp only at hact
    cases a
    case pass =>
      obtain rfl := Option.some.inj hact
      exact h.pass hasked
    case tick =>
      obtain rfl := Option.some.inj hact
      exact h.tick
    case todsetfreq =>
      obtain ⟨tod, hset, rfl⟩ := Option.map_eq_some_iff.mp hact
      exact h.todsetfreq hset
    case todset =>
      obtain ⟨tod, hset, rfl⟩ := Option.map_eq_some_iff.mp hact
      exact h.todset hset
    case todget => exact h.todget hfair hact
    case todfix =>
      obtain rfl := Option.some.inj hact
      exact h.todfix
    case todfixed =>
      obtain ⟨hfix, hact⟩ := Option.ite_none_right_eq_some.mp hact
      obtain rfl := Option.some.inj hact
      exact h.todfixed hfix

namespace Good

variable {s : Clock × Record}

theorem kept_todfixed (h : Good s) {fix : Fix} {c : Clock} (hfair : Fair s (.todfixed fix))
    (hstep : s.fst.step (.todfixed fix) = some c) : c.todget.map Prod.fst = s.fst.todget.map Prod.fst := by
  obtain ⟨hfix, hact⟩ := Option.ite_none_right_eq_some.mp hstep
  obtain rfl := Option.some.inj hact
  obtain ⟨hdiff, hcarry⟩ := hfair
  have hread := h.fixing fix hfix
  have htime := @State.time_todfixed _ _ s.fst.slow _ hdiff (hread.last_le hdiff) hread.ticks hcarry
  have hafter := (h.todfixed hfix).todget_eq
  rw [h.todget_eq, hafter]
  dsimp only [Option.map_some]
  unfold State.latest
  rw [htime]
  rfl

theorem divides (h : Good s) {a : Action} (hfair : Fair s a) (hfix : ∀ fix, a = .todfixed fix → fix ∈ s.fst.fixing) :
    (s.fst.step a).isSome := by
  cases a
  case pass   => rfl
  case tick   => rfl
  case todfix => rfl
  case todget =>
    rw [Clock.step, h.todget_eq]
    rfl
  case todfixed fix =>
    rw [Clock.step, if_pos (hfix fix rfl)]
    rfl
  case todsetfreq f =>
    have hmk (n d : BitVec 64) (hd : d ≠ 0) : mk64fract n d = some (n <<< 32 / d) := if_neg hd
    rw [Clock.step, State.todsetfreq, hmk _ _ hfair, hmk _ _ (by decide), hmk _ _ hfair, hmk _ _ (by decide)]
    rfl
  case todset t delta n =>
    rw [Clock.step, Option.isSome_map]
    rcases le_or_gt 0 t.toInt with ht | ht
    · rw [State.todset_of_nonneg h.init ht]
      rfl
    · obtain ⟨hn, hdelta⟩ := hfair ht
      rw [State.todset_of_neg h.init ht, if_neg fun h0 => (State.slowticks_eq_zero.mp h0).elim hn hdelta]
      rfl

end Good

-- Time does not go backwards, and an adjustment is what it was to be, where all of these is so.
theorem time_kept {s : Clock × Record} (hr : tracked.Reachable (fun s a => Asked s a ∧ Fair s a) s) :
    Kept (fun s a => Asked s a ∧ Fair s a) s := by
  have h := good_invariant.holds hr
  refine ⟨h.returned, fun fix c hc => h.kept_todfixed hc.right, fun a ha => ?_, fun a hc => h.divides hc.right⟩
  have hadj := h.adjust a ha
  exact ⟨hadj.applied, hadj.ticked, hadj.counted, hadj.ended_iff.mp⟩

-- A clock of a tick in a nanosecond, that was set to 5 microseconds.
def clock : Clock :=
  ⟨⟨true, 2 ^ 32, 2 ^ 32, 4294967, 4294967296001, 10 ^ 9, 0, 5000, 0, 0, 0, 0⟩, ⟨0, 10 ^ 9⟩, 0, []⟩

theorem clock_init : tracked.init (clock, ⟨[], none⟩) :=
  ⟨⟨rfl, by decide, clock.tod, 5000, 0, 0, rfl, by decide, by decide⟩, rfl⟩

-- An adjustment of 200 nanoseconds to its end.
theorem time_kept_adjusted : ∃ s, Kept (fun s a => Asked s a ∧ Fair s a) s ∧ s.snd.returned = [5301, 5000] := by
  have hrun : ((tracked.guarded fun s a => Asked s a ∧ Fair s a).exec (clock, ⟨[], none⟩)
      ([.todget, .todset (-1) 200 1] ++ List.replicate 101 .tick ++ [.pass 101, .todget])).any
      (fun s => s.snd.returned = [5301, 5000]) = true := by
    decide +kernel
  obtain ⟨s, hr, hs⟩ := Machine.exists_reachable clock_init hrun
  exact ⟨s, time_kept hr, of_decide_eq_true hs⟩

-- A millisecond less is ten microseconds less after a slow tick.
theorem not_time_kept : ∃ s, tracked.Reachable Asked s ∧ ¬Kept Asked s := by
  have hrun : ((tracked.guarded Asked).exec (clock, ⟨[], none⟩)
      [.todget, .todset (-1) (-1000000) 1, .tick, .todget]).any (fun s => s.snd.returned = [-5000, 5000]) = true := by
    decide +kernel
  obtain ⟨s, hr, hs⟩ := Machine.exists_reachable clock_init hrun
  refine ⟨s, hr, fun hkept => ?_⟩
  have hreturned := hkept.returned
  rw [of_decide_eq_true hs] at hreturned
  exact absurd hreturned (by decide)

end Port.Tod
