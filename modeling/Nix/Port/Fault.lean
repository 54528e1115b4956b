import Nix.Port.Sysseg

-- The addresses that a process may use.
namespace Port.Fault

open Sysseg

def SG_RONLY : Nat := 32

-- The top of the user's stack, above which there are no user addresses.
def USTKTOP : Nat := 0x7fffffe00000

def long (n : Int) : Int :=
  n.bmod (2 ^ 32)

def ulong (n : Int) : Nat :=
  (n % 2 ^ 32).toNat

-- The sum of a `uintptr` and an `int`.
def plus (a : Nat) (n : Int) : Nat :=
  ((a + n) % 2 ^ 64).toNat

-- The segments are not locked.
def seg (p : Proc) (addr : Nat) : Option Segment :=
  SegNo.all.findSome? fun i => (p i).filter fun n => n.base ≤ addr ∧ addr < n.top

def ronly (s : Segment) : Bool :=
  s.type &&& SG_RONLY ≠ 0

section

variable (p : Proc)

-- It goes from one segment to the next. There is no result where it goes on for longer.
def okaddrs (write : Bool) : Nat → Nat → Int → Option Bool
  | 0, _, _          => none
  | k + 1, addr, len =>
    match seg p addr with
    | none   => some false
    | some s =>
      if write ∧ ronly s then
        some false
      else if s.top < plus addr len then
        okaddrs write k s.top (long (len - minus s.top addr))
      else
        some true

def okaddr (addr : Nat) (len : Int) (write : Bool) : Option Bool :=
  if 0 ≤ len then okaddrs p write (len.toNat + 1) addr len else some false

end

-- What is done at an address: a byte is read, or it is validated.
inductive Event
  | read (a : Nat)
  | valid (a : Nat)
deriving DecidableEq

inductive Outcome
  | ret (t : Option Nat)
  -- by `validaddr`
  | suicide
deriving DecidableEq

section

variable (p : Proc) (mem : Nat → UInt8) (c : UInt8)

def memchr : Nat → Nat → List Event × Option Nat
  | 0, _     => ([], none)
  | n + 1, a =>
    if mem a = c then
      ([.read a], some a)
    else
      let r := memchr n (plus a 1)
      (.read a :: r.fst, r.snd)

-- There is no result where the loop goes on for longer.
def vmemchr : Nat → Nat → Int → Option (List Event × Outcome)
  | 0, _, _     => none
  | k + 1, a, n =>
    if roundup a BIGPGSZ ≠ roundup (plus a (n - 1)) BIGPGSZ then
      let m := BIGPGSZ - a % BIGPGSZ
      let r := memchr mem c m a
      if r.snd ≠ none then
        some (r.fst, .ret r.snd)
      else
        let a := plus a m
        let n := n - m
        if a &&& KZERO ≠ KZERO then do
          let ok ← okaddr p a 1 false
          if ok then
            let r' ← vmemchr k a n
            return (r.fst ++ .valid a :: r'.fst, r'.snd)
          else
            return (r.fst ++ [.valid a], .suicide)
        else do
          let r' ← vmemchr k a n
          return (r.fst ++ r'.fst, r'.snd)
    else
      let r := memchr mem c (ulong n) a
      some (r.fst, .ret r.snd)

end

-- Segments may be anywhere, but not in the same place.
structure Layout (p : Proc) : Prop where
  disjoint : ∀ i j, i ≠ j → ∀ s ∈ p i, ∀ t ∈ p j, Disjoint (Set.Ico s.base s.top) (Set.Ico t.base t.top)
  lt       : ∀ i, ∀ s ∈ p i, s.top < 2 ^ 64

-- There is a segment with the byte, that can be written if it is to be.
def Has (p : Proc) (write : Bool) (n : Nat) : Prop :=
  ∃ i, ∃ s ∈ p i, s.base ≤ n ∧ n < s.top ∧ (write = true → ronly s = false)

-- There are no bytes after the last address.
def OkaddrRight (p : Proc) (addr : Nat) (len : Int) (write : Bool) : Prop :=
  ∃ b, okaddr p addr len write = some b ∧
    (b = true ↔ ∀ n, addr ≤ n → n < addr + max 1 len.toNat → Has p write n)

-- The first byte is there, and the address of the last is not one.
def Wraps (p : Proc) (addr : Nat) (len : Int) (write : Bool) : Prop :=
  Has p write addr ∧ 2 ^ 64 ≤ addr + len

-- There is no `c` from `a` up to `b`.
def Without (mem : Nat → UInt8) (c : UInt8) (a b : Nat) : Prop :=
  ∀ x, a ≤ x → x < b → mem x ≠ c

-- It is the address of the first `c`, or there is none.
def IsFirst (mem : Nat → UInt8) (c : UInt8) (s n : Nat) : Option Nat → Prop
  | none   => Without mem c s (s + n)
  | some a => s ≤ a ∧ a < s + n ∧ mem a = c ∧ Without mem c s a

structure VmemchrRight (p : Proc) (mem : Nat → UInt8) (c : UInt8) (s n : Nat) (es : List Event) (o : Outcome) : Prop where
  reads  : ∀ a, .read a ∈ es → s ≤ a ∧ a < s + n
  pages  : ∀ a, .valid a ∈ es → ∃ b, s ≤ b ∧ b < s + n ∧ b / BIGPGSZ = a / BIGPGSZ
  result : ∀ t, o = .ret t → IsFirst mem c s n t
  -- it is the validation that fails
  fails  : o = .suicide → ∃ a, .valid a ∈ es ∧ ¬Has p false a

-- The last page has only one byte of the string, or the string is all on a page that it does not begin.
def Ends (s n : Nat) : Prop :=
  if n = 0 then s % BIGPGSZ ≠ 1 else (s + n) % BIGPGSZ = 1 ∨ s % BIGPGSZ ≠ 0 ∧ n ≤ BIGPGSZ - s % BIGPGSZ

instance (s n : Nat) : Decidable (Ends s n) :=
  inferInstanceAs (Decidable (if n = 0 then _ else _))

-- There is a `c`, or a page that is not valid, or the string ends well.
def Stays (p : Proc) (mem : Nat → UInt8) (c : UInt8) (s n : Nat) : Prop :=
  ¬Without mem c s (s + n) ∨ (∃ b, BIGPGSZ ∣ b ∧ s < b ∧ b < s + n ∧ ¬Has p false b) ∨ Ends s n

end Port.Fault
