import Mathlib.Data.BitVec
import Nix.Lib.Machine
import Nix.Lib.Parties
import Mathlib.Tactic.Ring

-- The offset of a channel, in the system calls that read and write. It is changed with the channel locked, before and
-- after the call of the device.
namespace Port.Sysfile

-- `okaddr` refuses lengths that are negative.
abbrev Count := Fin (2 ^ 31)

-- ~0LL, which asks for the offset of the channel.
def current : BitVec 64 := -1

-- What a device says: an error, or how many bytes it took or gave.
abbrev Answer := Option Nat

-- `offset` is what the process sees, and `devoffset` what the device sees of a directory that is read.
structure Chan where
  dir       : Bool
  offset    : BitVec 64
  devoffset : BitVec 64
deriving DecidableEq, Repr

-- The calls of `read` and `write`, that have no offset or one.
inductive Call
  | sys_read
  | syspread (off : BitVec 64)
  | sys_write
  | syspwrite (off : BitVec 64)
deriving DecidableEq, Repr

-- `write` and `read` of the library.
def write : Call := .syspwrite current
def read : Call := .syspread current

-- The device of a channel and what it answers at an offset, no more than the count. A directory is read from its mount
-- rock, if that has something, or from the union, if there is one, or from the device, and `mountfix` changes the length.
structure Dev (n : Count) where
  write         : BitVec 64 → Answer
  read          : BitVec 64 → Answer
  mountrockread : Answer
  umh           : Bool
  unionread     : Answer
  mountfix      : Nat → Answer
  write_le      : ∀ off, ∀ r ∈ write off, r ≤ n

namespace Chan

variable (c : Chan) {n : Count}

-- The start of `write`: the offset for the device, where there is no error.
def writestart (n : Count) (arg : Option (BitVec 64)) : Chan × Option (BitVec 64) :=
  if c.dir then
    (c, none)
  else
    let off := arg.getD current
    if off = current then
      ({ c with offset := c.offset + n.val }, some c.offset)
    else
      (c, some off)

-- Its end, with what the device answered.
def writeend (n : Count) (ispwrite : Bool) : Answer → Chan
  | none   => if ispwrite then c else { c with offset := c.offset - n.val }
  | some r => if ¬ispwrite ∧ r < n.val then { c with offset := c.offset - (n.val - r : Nat) } else c

-- The start of `read`: the offset to read at, and whether it is one of `pread`.
def readstart (arg : Option (BitVec 64)) : Chan × BitVec 64 × Bool :=
  let ispread := arg.any (· ≠ current)
  let off := if ispread then arg.getD 0 else c.offset
  -- rewind to the beginning of the file if necessary
  if c.dir ∧ off = 0 ∧ ¬ispread then
    ({ c with offset := 0, devoffset := 0 }, off, ispread)
  else
    (c, off, ispread)

-- What is read, in bytes of the device, and after `mountfix`.
def readdev (d : Dev n) (off : BitVec 64) : Option (Nat × Nat) :=
  if c.dir then do
    let nn ← d.mountrockread <|>
      if d.umh then d.unionread else if off = c.offset then d.read c.devoffset else none
    let nnn ← d.mountfix nn
    return (nn, nnn)
  else
    (d.read off).map fun nn => (nn, nn)

-- The end of `read`. The offset of a directory is always kept.
def readend (ispread : Bool) : Option (Nat × Nat) → Chan
  | none           => c
  | some (nn, nnn) =>
    if c.dir ∨ ¬ispread then
      { c with offset := c.offset + nnn, devoffset := c.devoffset + nn }
    else
      c

-- Others change the offset between the start of a call and its end.
def shift (e : BitVec 64) : Chan :=
  { c with offset := c.offset + e }

def write (e : BitVec 64) (d : Dev n) (arg : Option (BitVec 64)) : Chan :=
  match c.writestart n arg with
  | (c, none)     => c.shift e
  | (c, some off) => (c.shift e).writeend n arg.isSome (d.write off)

def read (e : BitVec 64) (d : Dev n) (arg : Option (BitVec 64)) : Chan :=
  let (c, off, ispread) := c.readstart arg
  (c.shift e).readend ispread (c.readdev d off)

def call (e : BitVec 64) (d : Dev n) : Call → Chan
  | .sys_read      => c.read e d none
  | .syspread off  => c.read e d (some off)
  | .sys_write     => c.write e d none
  | .syspwrite off => c.write e d (some off)

end Chan

namespace Call

-- The call uses the offset of the channel.
def uses : Call → Bool
  | .sys_read | .sys_write         => true
  | .syspread off | .syspwrite off => off = current

def writes : Call → Bool
  | .sys_write | .syspwrite _ => true
  | .sys_read | .syspread _   => false

-- The offset that the device is called with, for a plain file.
def devoff (c : Chan) : Call → BitVec 64
  | .sys_read | .sys_write         => c.offset
  | .syspread off | .syspwrite off => if off = current then c.offset else off

-- How many bytes the device takes or gives. It is not called to write to a directory.
def accepted (c : Chan) (d : Dev n) (call : Call) : Nat :=
  if call.writes then
    if c.dir then 0 else (d.write <| call.devoff c).getD 0
  else
    (d.read <| call.devoff c).getD 0

end Call

-- Where a process is that has a channel open: in none of the calls, or waiting for the device, with what its call has
-- to know when that answers.
inductive Pc
  | user
  | write (n : Count) (arg : Option (BitVec 64))
  | read (n : Count) (ispread : Bool)
deriving DecidableEq

-- A channel of a plain file, the processes that have it open, and how many bytes the calls moved that are over and used
-- its offset.
structure State (P : Type*) where
  chan  : Chan
  pc    : P → Pc
  moved : Int

inductive Act (P : Type*)
  | call (p : P) (n : Count) (call : Call)
  -- The device answers.
  | answer (p : P) (a : Answer)

namespace State

variable {P : Type*} [DecidableEq P] (s : State P) (p : P)

def goto (pc : Pc) (c : Chan) : State P :=
  { s with chan := c, pc := Function.update s.pc p pc }

def write (n : Count) (arg : Option (BitVec 64)) : Option (State P) :=
  let (c, off) := s.chan.writestart n arg
  off.map fun _ => s.goto p (.write n arg) c

def read (n : Count) (arg : Option (BitVec 64)) : Option (State P) :=
  let (c, _, ispread) := s.chan.readstart arg
  some <| s.goto p (.read n ispread) c

def call (n : Count) : Call → Option (State P)
  | .sys_read      => s.read p n none
  | .syspread off  => s.read p n (some off)
  | .sys_write     => s.write p n none
  | .syspwrite off => s.write p n (some off)

def answer (a : Answer) : Option (State P) :=
  match s.pc p with
  | .user           => none
  | .write n arg    =>
    if a.getD 0 ≤ n then
      some { s.goto p .user (s.chan.writeend n arg.isSome a) with
        moved := s.moved + if arg.getD current = current then a.getD 0 else 0 }
    else
      none
  | .read n ispread =>
    if a.getD 0 ≤ n then
      some { s.goto p .user (s.chan.readend ispread <| a.map fun nn => (nn, nn)) with
        moved := s.moved + if ispread then 0 else a.getD 0 }
    else
      none

end State

section

variable {P : Type*} [DecidableEq P]

def step (s : State P) : Act P → Option (State P)
  | .call p n call => if s.pc p = .user then s.call p n call else none
  | .answer p a    => s.answer p a

structure Init (base : BitVec 64) (s : State P) : Prop where
  dir    : s.chan.dir = false
  offset : s.chan.offset = base
  pc     : ∀ p, s.pc p = .user
  moved  : s.moved = 0

def machine (P : Type*) [DecidableEq P] (base : BitVec 64) : Machine (State P) (Act P) where
  init := Init base
  step := step

end

variable {c : Chan} {n : Count} {e : BitVec 64} {d : Dev n} {arg : Option (BitVec 64)}

-- The offset is moved by what others do and by what the device took or gave, if the call uses it.
def Accounted (c : Chan) (e : BitVec 64) (d : Dev n) (call : Call) : Prop :=
  (c.call e d call).offset = c.offset + e + if call.uses then (call.accepted c d : BitVec 64) else 0

-- A call of `pwrite` that asks for the offset of the channel has all of its bytes written, unless it is refused at once.
def Whole (c : Chan) (d : Dev n) (call : Call) : Prop :=
  call = .syspwrite current → c.dir = true ∨ call.accepted c d = n

theorem eq_of_cast_eq {k : Nat} (hk : k ≤ n) (h : (k : BitVec 64) = (n.val : BitVec 64)) : k = n := by
  have hn := n.isLt
  have hmod : k % 2 ^ 64 = n.val % 2 ^ 64 := by simpa using congrArg BitVec.toNat h
  rwa [Nat.mod_eq_of_lt (by omega), Nat.mod_eq_of_lt (by omega)] at hmod

theorem cast_sub {k : Nat} (hk : k ≤ n) : ((n.val - k : Nat) : BitVec 64) = (n.val : BitVec 64) - k := by
  rw [eq_sub_iff_add_eq, ← Nat.cast_add, Nat.sub_add_cancel hk]

theorem Dev.accepted_le (d : Dev n) (off : BitVec 64) : (d.write off).getD 0 ≤ n := by
  cases h : d.write off
  case none => exact Nat.zero_le _
  case some r => exact d.write_le off r h

namespace Chan

theorem writestart_eq (h : c.dir = false) : c.writestart n arg =
    if arg.getD current = current then ({ c with offset := c.offset + n.val }, some c.offset) else (c, some (arg.getD current)) := by
  rw [writestart, h]
  rfl

theorem writeend_pwrite (c : Chan) (a : Answer) : c.writeend n true a = c := by
  cases a <;> simp [writeend]

-- Without an offset of its own, a call takes back what the device did not take.
theorem writeend_write {a : Answer} (h : a.getD 0 ≤ n) :
    (c.writeend n false a).offset = c.offset - n.val + (a.getD 0 : Nat) := by
  cases a
  case none => simp [writeend]
  case some r =>
    rw [Option.getD_some] at h ⊢
    rw [writeend]
    split
    case isTrue =>
      rw [cast_sub h]
      ring
    case isFalse hlt =>
      obtain rfl : r = n := by simpa using le_antisymm h (by simpa using hlt)
      ring

theorem writeend_dir (c : Chan) (n : Count) (ispwrite : Bool) (a : Answer) : (c.writeend n ispwrite a).dir = c.dir := by
  cases a
  case none   => simp only [writeend, apply_ite dir, ite_self]
  case some r => simp only [writeend, apply_ite dir, ite_self]

theorem readend_dir (c : Chan) (ispread : Bool) (a : Option (Nat × Nat)) : (c.readend ispread a).dir = c.dir := by
  cases a
  case none   => rfl
  case some r => simp only [readend, apply_ite dir, ite_self]

theorem readstart_eq (h : c.dir = false) :
    c.readstart arg = (c, if arg.any (· ≠ current) then arg.getD 0 else c.offset, arg.any (· ≠ current)) := by
  rw [readstart]
  exact if_neg fun hc => Bool.false_ne_true <| h.symm.trans hc.left

theorem readend_pread (h : c.dir = false) (a : Option (Nat × Nat)) : c.readend true a = c := by
  cases a <;> simp [readend, h]

theorem readend_read (c : Chan) (a : Answer) :
    (c.readend false <| a.map fun nn => (nn, nn)).offset = c.offset + (a.getD 0 : Nat) := by
  cases a <;> simp [readend]

theorem write_dir (h : c.dir = true) : c.write e d arg = c.shift e := by
  rw [write, writestart, if_pos h]

section

variable (h : c.dir = false)
include h

theorem write_none : (c.write e d none).offset = c.offset + e + ((d.write c.offset).getD 0 : Nat) := by
  rw [write, writestart_eq h]
  refine (writeend_write <| d.accepted_le _).trans ?_
  rw [shift]
  ring

theorem write_current : (c.write e d (some current)).offset = c.offset + e + n.val := by
  rw [write, writestart_eq h]
  refine (congrArg offset <| writeend_pwrite ..).trans ?_
  rw [shift]
  ring

theorem write_at {off : BitVec 64} (hoff : off ≠ current) : c.write e d (some off) = c.shift e := by
  rw [write, writestart_eq h, Option.getD_some, if_neg hoff]
  exact writeend_pwrite ..

theorem readdev_eq (off : BitVec 64) : c.readdev d off = (d.read off).map fun nn => (nn, nn) := by
  rw [readdev, h]
  rfl

theorem read_current (harg : arg.any (· ≠ current) = false) :
    (c.read e d arg).offset = c.offset + e + ((d.read c.offset).getD 0 : Nat) := by
  rw [read, readstart_eq h]
  dsimp only
  rw [harg, readdev_eq h]
  exact readend_read (c.shift e) _

theorem read_at {off : BitVec 64} (hoff : off ≠ current) : c.read e d (some off) = c.shift e := by
  rw [read, readstart_eq h]
  dsimp only
  rw [Option.any_some, decide_eq_true hoff]
  exact readend_pread (c := c.shift e) h _

end

end Chan

-- The offset is right after every call but one of `pwrite` that asks for the offset of the channel and is cut short.
theorem offset_accounted (c : Chan) (e : BitVec 64) (d : Dev n) (call : Call) (h : c.dir = true → call.writes = true) :
    Accounted c e d call ↔ Whole c d call := by
  rw [Accounted, Whole]
  cases hdir : c.dir
  case true =>
    have hw := h hdir
    cases call <;> simp_all [Chan.call, Chan.write_dir, Call.writes, Call.accepted, Chan.shift]
  case false =>
    cases call
    case sys_read => simp [Chan.call, Chan.read_current hdir, Call.uses, Call.accepted, Call.devoff, Call.writes]
    case syspread off =>
      by_cases hoff : off = current
      case pos => simp [Chan.call, Chan.read_current hdir, Call.uses, Call.accepted, Call.devoff, Call.writes, hoff]
      case neg => simp [Chan.call, Chan.read_at hdir hoff, Call.uses, hoff, Chan.shift]
    case sys_write => simp [Chan.call, Chan.write_none hdir, Call.uses, Call.accepted, Call.devoff, Call.writes, hdir]
    case syspwrite off =>
      by_cases hoff : off = current
      case pos =>
        subst hoff
        have hacc : Call.accepted c d (.syspwrite current) = (d.write c.offset).getD 0 := by
          simp [Call.accepted, Call.writes, Call.devoff, hdir]
        have hle : Call.accepted c d (.syspwrite current) ≤ n := hacc ▸ d.accepted_le _
        have hcall : (c.call e d (.syspwrite current)).offset = c.offset + e + n.val := Chan.write_current hdir
        rw [hcall, Call.uses, if_pos (by decide)]
        constructor
        case mp => exact fun hn _ => .inr <| eq_of_cast_eq hle (add_left_cancel hn).symm
        case mpr => exact fun hn => by rw [(hn rfl).resolve_left nofun]
      case neg => simp [Chan.call, Chan.write_at hdir hoff, Call.uses, hoff, Chan.shift]

-- A device that takes no more than so many bytes.
def Dev.upto (n : Count) (r : Nat) : Dev n where
  write _       := some (min r n)
  read _        := some (min r n)
  mountrockread := none
  umh           := false
  unionread     := none
  mountfix nn   := some nn
  write_le _ k hk := by
    obtain rfl := Option.some.inj hk
    exact min_le_right ..

-- The library's `write` of five bytes, all of which are taken.
theorem offset_accounted_write : Accounted ⟨false, 0, 0⟩ 0 (Dev.upto 5 5) write :=
  (offset_accounted _ _ _ _ fun _ => rfl).mpr fun _ => .inr (by decide)

-- The same with three of them taken.
theorem offset_accounted_short : ¬Accounted ⟨false, 0, 0⟩ 0 (Dev.upto 5 3) write := by
  unfold Accounted
  decide

section

variable {P : Type*} [Fintype P] [DecidableEq P] {base : BitVec 64} {s s' : State P} {p : P}

-- By how much a call has moved the offset that waits for the device.
def Pc.claimed : Pc → Int
  | .write n arg => if arg.getD current = current then n else 0
  | _            => 0

-- No call of `pwrite` that asks for the offset of the channel is cut short.
def Meets (s : State P) : Act P → Prop
  | .answer p a => ∀ n, s.pc p = .write n (some current) → a.getD 0 = n
  | .call ..    => True

structure Kept (base : BitVec 64) (s : State P) : Prop where
  dir    : s.chan.dir = false
  offset : s.chan.offset = base + (s.moved + tally Pc.claimed s.pc : Int)

namespace Kept

theorem goto (h : Kept base s) {pc : Pc} {c : Chan} (hdir : c.dir = false)
    (hc : c.offset = s.chan.offset + (pc.claimed - (s.pc p).claimed : Int)) : Kept base (s.goto p pc c) where
  dir := hdir
  offset := by
    rw [State.goto, tally_update, hc, h.offset]
    push_cast
    ring

theorem finish (h : Kept base s) {c : Chan} {m : Int} (hdir : c.dir = false)
    (hc : c.offset = s.chan.offset + (m - (s.pc p).claimed : Int)) :
    Kept base { s.goto p .user c with moved := s.moved + m } where
  dir := hdir
  offset := by
    have huser : Pc.user.claimed = 0 := rfl
    rw [State.goto, tally_update, hc, h.offset, huser, add_zero]
    push_cast
    ring

theorem write (h : Kept base s) (hp : s.pc p = .user) (hs : s.write p n arg = some s') : Kept base s' := by
  rw [State.write, Chan.writestart_eq h.dir] at hs
  split_ifs at hs with harg <;> (obtain rfl := Option.some.inj hs; refine h.goto h.dir ?_)
  · simp [hp, Pc.claimed, harg]
  · simp [hp, Pc.claimed, harg]

theorem read (h : Kept base s) (hp : s.pc p = .user) (hs : s.read p n arg = some s') : Kept base s' := by
  rw [State.read, Chan.readstart_eq h.dir] at hs
  obtain rfl := Option.some.inj hs
  exact h.goto h.dir (by simp [hp, Pc.claimed])

theorem call (h : Kept base s) (hp : s.pc p = .user) (k : Call) (hs : s.call p n k = some s') : Kept base s' := by
  cases k
  case sys_read      => exact h.read hp hs
  case syspread off  => exact h.read hp hs
  case sys_write     => exact h.write hp hs
  case syspwrite off => exact h.write hp hs

theorem answer {a : Answer} (h : Kept base s) (hm : Meets s (.answer p a)) (hs : s.answer p a = some s') :
    Kept base s' := by
  rw [State.answer] at hs
  split at hs
  case h_1 => contradiction
  case h_2 n arg hp =>
    obtain ⟨ha, hs⟩ := Option.ite_none_right_eq_some.mp hs
    obtain rfl := Option.some.inj hs
    refine h.finish ((Chan.writeend_dir ..).trans h.dir) ?_
    match arg with
    | none     =>
      rw [Option.isSome_none, Chan.writeend_write ha, hp]
      simp only [Pc.claimed, Option.getD_none, if_true]
      push_cast
      ring
    | some off =>
      rw [Option.isSome_some, Chan.writeend_pwrite, hp]
      by_cases hoff : off = current
      case pos =>
        subst hoff
        simp [Pc.claimed, hm n hp]
      case neg => simp [Pc.claimed, hoff]
  case h_3 n ispread hp =>
    obtain ⟨-, hs⟩ := Option.ite_none_right_eq_some.mp hs
    obtain rfl := Option.some.inj hs
    refine h.finish ((Chan.readend_dir ..).trans h.dir) ?_
    cases ispread
    case true  => simp [Chan.readend_pread h.dir, hp, Pc.claimed]
    case false => simp [Chan.readend_read, hp, Pc.claimed]

theorem step {act : Act P} (h : Kept base s) (hm : Meets s act) (hs : Sysfile.step s act = some s') : Kept base s' := by
  cases act
  case call p n k =>
    obtain ⟨hp, hs⟩ := Option.ite_none_right_eq_some.mp hs
    exact h.call hp k hs
  case answer p a => exact h.answer hm hs

end Kept

theorem invariant (P : Type*) [Fintype P] [DecidableEq P] (base : BitVec 64) : (machine P base).Invariant Meets (Kept base) where
  init {s} h := by
    refine ⟨h.dir, ?_⟩
    rw [h.offset, h.moved, tally_eq_zero fun p => by rw [h.pc p]; rfl]
    simp
  step h hm hs := h.step hm hs

-- Whatever processes do to a channel at the same time, its offset tells how many bytes were moved once they are done.
theorem offset_moved (hr : (machine P base).Reachable Meets s) (hidle : ∀ p, s.pc p = .user) :
    s.chan.offset = base + (s.moved : BitVec 64) := by
  rw [((invariant P base).holds hr).offset, tally_eq_zero fun p => by rw [hidle p]; rfl, add_zero]

theorem offset_moved_two : ∃ s, (machine (Fin 2) 0).Reachable Meets s ∧ s.moved = 6 ∧ s.chan.offset = 6 := by
  let s₀ : State (Fin 2) := ⟨⟨false, 0, 0⟩, fun _ => .user, 0⟩
  let s₁ : State (Fin 2) := ⟨⟨false, 5, 0⟩, Function.update s₀.pc 0 (.write 5 none), 0⟩
  let s₂ : State (Fin 2) := ⟨⟨false, 5, 0⟩, Function.update s₁.pc 1 (.read 3 false), 0⟩
  let s₃ : State (Fin 2) := ⟨⟨false, 7, 2⟩, Function.update s₂.pc 1 .user, 2⟩
  let s₄ : State (Fin 2) := ⟨⟨false, 6, 2⟩, Function.update s₃.pc 0 .user, 6⟩
  have h₀ : (machine (Fin 2) 0).Reachable Meets s₀ := .init ⟨rfl, rfl, fun _ => rfl, rfl⟩
  have m₁ : Meets s₀ (.call 0 5 .sys_write) := trivial
  have m₂ : Meets s₁ (.call 1 3 .sys_read) := trivial
  have m₃ : Meets s₂ (.answer 1 (some 2)) := fun n h => nomatch (h : Pc.read 3 false = .write n (some current))
  have m₄ : Meets s₃ (.answer 0 (some 4)) := fun n h => nomatch (h : Pc.write 5 none = .write n (some current))
  have h₁ : (machine (Fin 2) 0).Reachable Meets s₁ := h₀.step m₁ rfl
  have h₂ : (machine (Fin 2) 0).Reachable Meets s₂ := h₁.step m₂ rfl
  have h₃ : (machine (Fin 2) 0).Reachable Meets s₃ := h₂.step m₃ rfl
  have h₄ : (machine (Fin 2) 0).Reachable Meets s₄ := h₃.step m₄ (by with_unfolding_all rfl)
  exact ⟨s₄, h₄, rfl, offset_moved h₄ fun p => by revert p; decide⟩

end

end Port.Sysfile
