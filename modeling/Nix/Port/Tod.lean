import Mathlib.Data.BitVec
import Nix.Lib.Machine

-- The time of day from the ticks of the fastest clock.
namespace Port.Tod

def TODFREQ : BitVec 64 := 1000000000
def MicroFREQ : BitVec 64 := 1000000

-- Slow ticks in a second.
def HZ : BitVec 32 := 100

-- The middle of the product of two numbers, one of which has its fraction in the low word.
def mul64fract (a b : BitVec 64) : BitVec 64 :=
  let bl := b &&& 0xffffffff
  let bh := b >>> 32
  let al := a &&& 0xffffffff
  let ah := a >>> 32
  let res := (al * bl) >>> 32
  let res := res + al * bh
  let res := res + ah * bl
  res + (ah * bh) <<< 32

-- There is no result where it divides by zero.
def mk64fract (n d : BitVec 64) : Option (BitVec 64) :=
  if d = 0 then none else some (n <<< 32 / d)

-- What `fastticks` says: how many ticks there were and how many there are in a second.
structure Fastticks where
  ticks : BitVec 64
  hz    : BitVec 64
deriving DecidableEq

-- What `todfix` has read before it locks.
structure Fix where
  ticks : BitVec 64
  diff  : BitVec 64
deriving DecidableEq

structure State where
  init        : Bool
  multiplier  : BitVec 64
  divider     : BitVec 64
  umultiplier : BitVec 64
  udivider    : BitVec 64
  -- these are signed
  hz          : BitVec 64
  last        : BitVec 64
  off         : BitVec 64
  lasttime    : BitVec 64
  delta       : BitVec 64
  -- the slow ticks that `delta` is added at, in `sys->ticks`
  sstart      : BitVec 32
  send        : BitVec 32
deriving DecidableEq

namespace State

variable (tod : State) (k : Fastticks) (slow : BitVec 32)

def todsetfreq (f : BitVec 64) : Option State := do
  let multiplier ← mk64fract TODFREQ f
  let divider ← mk64fract f TODFREQ
  let umultiplier ← mk64fract MicroFREQ f
  let udivider ← mk64fract f MicroFREQ
  return { tod with
    hz := f, multiplier := multiplier, divider := divider + 1, umultiplier := umultiplier, udivider := udivider + 1 }

def todinit : Option State :=
  if tod.init then
    some tod
  else do
    let tod ← { tod with last := k.ticks, hz := k.hz }.todsetfreq k.hz
    return { tod with init := true }

-- The slow ticks that an adjustment takes, no more than there are nanoseconds to adjust by.
def slowticks (delta : BitVec 64) (n : BitVec 32) : BitVec 32 :=
  let n := if n.toInt ≤ 0 then 1 else n
  let n := n * HZ
  let n := if delta.toInt < 0 ∧ n.toInt > (-delta).toInt then (-delta).setWidth 32 else n
  if delta.toInt > 0 ∧ n.toInt > delta.toInt then delta.setWidth 32 else n

def todset (t delta : BitVec 64) (n : BitVec 32) : Option State := do
  let tod ← tod.todinit k
  if 0 ≤ t.toInt then
    return { tod with off := t, last := k.ticks, lasttime := 0, delta := 0, sstart := tod.send }
  else
    let n := slowticks delta n
    if n = 0 then
      none
    else
      return { tod with sstart := slow, send := slow + n, delta := delta.sdiv (n.signExtend 64) }

-- The slow tick up to which `todget` corrects.
def upto : BitVec 32 :=
  if slow ≥ tod.send then tod.send else slow

def correct : State :=
  if tod.sstart ≠ tod.send then
    { tod with
      off := tod.off + tod.delta * (tod.upto slow - tod.sstart).setWidth 64
      sstart := tod.upto slow }
  else
    tod

-- The time, with the ticks that it was read at.
def todget : Option ((BitVec 64 × BitVec 64) × State) := do
  let tod ← tod.todinit k
  let tod := tod.correct slow
  let diff := k.ticks - tod.last
  let diff := if diff.toInt < 0 then 0 else diff
  let x := mul64fract diff tod.multiplier + tod.off
  if x < tod.lasttime then
    return ((tod.lasttime, k.ticks), tod)
  else
    return ((x, k.ticks), { tod with lasttime := x })

-- Before the lock.
def todfix : Option Fix :=
  let diff := k.ticks - tod.last
  if diff.toInt > tod.hz.toInt then some ⟨k.ticks, diff⟩ else none

-- Under it.
def todfixed (fix : Fix) : State :=
  { tod with last := fix.ticks, off := mul64fract fix.diff tod.multiplier + tod.off }

-- The conversions, that are by one of the four factors.
def convert (factor : State → BitVec 64) (n : BitVec 64) : Option (BitVec 64 × State) := do
  let tod ← tod.todinit k
  return (mul64fract n (factor tod), tod)

def fastticks2us := tod.convert k umultiplier
def us2fastticks := tod.convert k udivider
def ns2fastticks := tod.convert k divider
def fastticks2ns := tod.convert k multiplier

end State

end Port.Tod
