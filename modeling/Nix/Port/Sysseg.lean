import Nix.Lib.Words
import Nix.Lib.Machine
import Mathlib.Order.CompletePartialOrder
import Mathlib.Order.Interval.Set.Disjoint

namespace Port.Sysseg

def MiB : Nat := 2 ^ 20

def GiB : Nat := 2 ^ 30

def BIGPGSZ : Nat := 2 ^ 21

def PTEMAPMEM : Nat := GiB

def SEGMAPSIZE : Nat := 1984

def UTZERO : Nat := 2 * MiB

def KZERO : Nat := 0xfffffffff0000000

def Ebadarg : String := "bad arg in system call"

def Enovmem : String := "virtual memory allocation failed"

def Esoverlap : String := "segments overlap"

-- The values of a `uintptr` and of a `usize`.
def uintptr (n : Nat) : Nat := n % 2 ^ 64

def usize (n : Nat) : Nat := n % 2 ^ 32

-- A `long` that is stored in a `usize`.
def longusize (n : Int) : Nat := (n % 2 ^ 32).toNat

-- The difference of two `uintptr`s.
def minus (x y : Nat) : Nat := uintptr (x + 2 ^ 64 - y)

def roundup (x y : Nat) : Nat := uintptr (x + (y - 1)) / y * y

inductive SegNo
  | sseg | tseg | dseg | bseg | hseg | eseg | lseg | seg1 | seg2 | seg3 | seg4
deriving DecidableEq, Repr

def SegNo.all : List SegNo :=
  [.sseg, .tseg, .dseg, .bseg, .hseg, .eseg, .lseg, .seg1, .seg2, .seg3, .seg4]

def SG_TYPE : Nat := 7

def SG_TEXT : Nat := 0

def SG_DATA : Nat := 1

def SG_BSS : Nat := 2

def SG_STACK : Nat := 3

-- The sizes of pages that the machine knows.
inductive Pgsz
  | small | big | huge
deriving DecidableEq, Repr

def Pgsz.bytes : Pgsz → Nat
  | small => 2 ^ 12
  | big   => BIGPGSZ
  | huge  => GiB

structure Segment where
  type  : Nat
  base  : Nat
  top   : Nat
  size  : Nat
  pgszi : Pgsz
deriving DecidableEq, Repr

namespace Segment

variable (s : Segment)

def pgsz : Nat := s.pgszi.bytes

def ptepertab : Nat := PTEMAPMEM / s.pgsz

end Segment

structure Physseg where
  name : String
  attr : Nat
  size : Nat
  gva  : Nat

-- A segment of the segment device. It has no address until one is set.
structure Globalseg where
  name : String
  seg  : Option Segment

structure Sys where
  physseg   : List Physseg
  globalseg : List Globalseg
  -- whether there are pages of 1 GiB
  huge      : Bool

abbrev Proc := SegNo → Option Segment

inductive Fault
  | error (msg : String)
  | panic (msg : String)
  | nil
deriving DecidableEq, Repr

def newseg (sys : Sys) (type base size : Nat) : Except Fault Segment :=
  if SEGMAPSIZE * (PTEMAPMEM / BIGPGSZ) < size then
    .error (.error Enovmem)
  else
    let huge := sys.huge ∧ GiB ≤ size * BIGPGSZ ∧ base % GiB = 0 ∧ size * BIGPGSZ % GiB = 0
    .ok { type := type, base := base, top := uintptr (base + size * BIGPGSZ), size := size,
          pgszi := if huge then .huge else .big }

namespace Segment

-- What `isoverlap` asks of each segment.
def Meets (ns : Segment) (va newtop : Nat) : Prop :=
  (ns.base < newtop ∧ newtop ≤ ns.top) ∨ (ns.base ≤ va ∧ va < ns.top)

instance (ns : Segment) (va newtop : Nat) : Decidable (ns.Meets va newtop) :=
  inferInstanceAs (Decidable (_ ∨ _))

end Segment

def isoverlap (p : Proc) (va len : Nat) : Option Segment :=
  SegNo.all.findSome? fun i => (p i).filter fun ns => ns.Meets va (uintptr (va + len))

theorem meets_of_isoverlap {p : Proc} (h : isoverlap p va len = some os) : os.Meets va (uintptr (va + len)) := by
  obtain ⟨i, -, h⟩ := List.exists_of_findSome?_eq_some h
  exact of_decide_eq_true (Option.filter_eq_some_iff.mp h).right

-- The loop that looks for a hole goes down from `va`.
def hole (p : Proc) (len : Nat) (hl : 0 < len) (va : Nat) : Except Fault Nat :=
  match _h : isoverlap p va len with
  | none    => .ok va
  | some os =>
    if _hb : os.base < len then
      .error (.error "cannot fit segment at virtual address")
    else
      hole p len hl (os.base - len)
termination_by va
decreasing_by
  have hm := meets_of_isoverlap _h
  simp only [Segment.Meets, uintptr] at hm
  omega

-- The length that is attached, and the address that is asked for.
def request (ps : Physseg) (va len : Nat) : Nat × Nat :=
  if va = 0 ∧ ps.gva ≠ 0 then
    (ps.gva, if len = 0 then usize (ps.size * BIGPGSZ) else len)
  else
    (va, len)

-- The address for `len` bytes that are asked for at `va`, or anywhere.
def place (p : Proc) (va len : Nat) (hl : 0 < len) : Except Fault Nat := do
  let va ←
    if va = 0 then
      match p .sseg with
      | some stack => hole p len hl (minus stack.base len)
      | none       => .error .nil
    else
      .ok va
  return va / BIGPGSZ * BIGPGSZ

-- The range that a segment is attached at, and its length.
def settle (p : Proc) (ps : Physseg) (va len : Nat) : Except Fault (Nat × Nat) :=
  let (va, len) := request ps va len
  if len = 0 then
    .error (.error "zero length")
  else
    let len := usize (roundup len BIGPGSZ)
    if hl : len = 0 then
      .error (.error "length overflow")
    else do
      let va ← place p va len (Nat.pos_of_ne_zero hl)
      return (va, len)

-- A global segment, which has been made already.
def globalsegattach (sys : Sys) (p : Proc) (name : String) : Except Fault (Option Segment) :=
  match sys.globalseg.find? (·.name = name) with
  | none => .ok none
  | some g =>
    match g.seg with
    | none => .error (.error "global segment not assigned a virtual address")
    | some s =>
      if (isoverlap p s.base (usize (minus s.top s.base))).isSome then
        .error (.error "overlaps existing segment")
      else
        .ok s

def attachphys (sys : Sys) (p : Proc) (sno : SegNo) (attr : Nat) (name : String) (va len : Nat) :
    Except Fault (Nat × Proc) :=
  match sys.physseg.find? (·.name = name) with
  | none => .error (.error "segment not found")
  | some ps => do
    let (va, len) ← settle p ps va len
    if (isoverlap p va len).isSome then
      .error (.error Esoverlap)
    else if ps.size < len / BIGPGSZ then
      .error (.error "len > segment size")
    else do
      let type := (attr / (SG_TYPE + 1) * (SG_TYPE + 1) ||| ps.attr) % 2 ^ 16
      let s ← newseg sys type va (len / BIGPGSZ)
      return (va, Function.update p sno (some s))

def segattach (sys : Sys) (p : Proc) (attr : Nat) (name : String) (va len : Nat) : Except Fault (Nat × Proc) :=
  if (va ≠ 0 ∧ va < UTZERO) ∨ KZERO ≤ va then
    .error (.error "virtual address in kernel")
  else
    match SegNo.all.find? fun i => (p i).isNone ∧ i ≠ .eseg with
    | none => .error (.error "too many segments in process")
    | some sno => do
      match ← globalsegattach sys p name with
      | some s => return (s.base, Function.update p sno (some s))
      | none   => attachphys sys p sno attr name va len

-- The segment that an address lies in, for `segdetach`.
def Segment.At (s : Segment) (addr : Nat) : Prop :=
  (s.base ≤ addr ∧ addr < s.top) ∨ (s.top = s.base ∧ addr = s.base)

instance (s : Segment) (addr : Nat) : Decidable (s.At addr) :=
  inferInstanceAs (Decidable (_ ∨ _))

def segdetach (p : Proc) (addr : Nat) : Except Fault Proc :=
  match SegNo.all.find? fun i => ∃ s ∈ p i, s.At addr with
  | none => .error (.error Ebadarg)
  | some i =>
    if i = .sseg then
      .error (.error Ebadarg)
    else
      .ok (Function.update p i none)

-- The bss may overlap the data at first, and then `addr` may lie before it.
def clamp (p : Proc) (s : Segment) (seg : SegNo) (addr : Nat) : Except Fault Nat :=
  if addr < s.base then
    match p .dseg with
    | some d => if seg ≠ .bseg ∨ addr < d.base then .error (.error Enovmem) else .ok s.base
    | none   => .error (.error Enovmem)
  else
    .ok addr

-- The first address past the next 1 GiB that a bss may grow to without one more segment.
def Segment.far (s : Segment) : Nat := uintptr (roundup s.top GiB + GiB)

def Segment.newtop (s : Segment) (seg : SegNo) (addr : Nat) : Nat :=
  if seg = .bseg ∧ s.far ≤ addr then roundup addr GiB else roundup addr s.pgsz

def Segment.newsize (s : Segment) (newtop : Nat) : Int :=
  int32 (minus newtop s.base / s.pgsz)

-- The bss is extended to the next 1 GiB, and what is left is another segment.
def extend (sys : Sys) (p : Proc) (s : Segment) (seg : SegNo) (newtop : Nat) : Except Fault (Nat × Proc) :=
  if seg = .bseg ∧ s.far ≤ newtop then do
    let rtop := roundup newtop GiB
    let newtop' := roundup s.top GiB
    let newsize := int32 (s.newsize newtop - minus rtop newtop' / BIGPGSZ)
    if newsize < 0 then
      .error (.panic "newsize >= 0")
    else do
      let ns ← newseg sys SG_BSS newtop' (minus rtop newtop' / BIGPGSZ)
      let s := { s with top := newtop', size := longusize newsize }
      return (rtop, Function.update (Function.update p .hseg (some ns)) seg (some s))
  else
    return (newtop, Function.update p seg (some { s with top := newtop, size := longusize (s.newsize newtop) }))

def ibrk (sys : Sys) (p : Proc) (addr : Nat) (seg : SegNo) : Except Fault (Nat × Proc) :=
  match p seg with
  | none => .error (.error Ebadarg)
  | some s =>
    if addr = 0 then
      .ok (s.top, p)
    else do
      let addr ← clamp p s seg addr
      let newtop := s.newtop seg addr
      let newsize := s.newsize newtop
      if newtop < s.top then
        return (newtop, Function.update p seg (some { s with top := newtop, size := longusize newsize }))
      else if SEGMAPSIZE * s.ptepertab < newsize % 2 ^ 32 then
        .error (.error Enovmem)
      else if ∃ i ∈ SegNo.all, i ≠ seg ∧ ∃ ns ∈ p i, ns.base ≤ newtop ∧ newtop < ns.top then
        .error (.error Esoverlap)
      else
        extend sys p s seg newtop

-- The segment that `segbrk` is asked about.
def Segment.Holds (s : Segment) (saddr : Nat) : Prop :=
  s.base ≤ saddr ∧ saddr ≤ s.top ∧ ¬(saddr = s.top ∧ s.base < s.top)

instance (s : Segment) (saddr : Nat) : Decidable (s.Holds saddr) :=
  inferInstanceAs (Decidable (_ ∧ _))

def segbrkseg (p : Proc) (saddr : Nat) : Option SegNo :=
  SegNo.all.find? fun i => ∃ s ∈ p i, s.Holds saddr

def syssegbrk (sys : Sys) (p : Proc) (saddr addr : Nat) : Except Fault (Nat × Proc) :=
  if saddr = 0 then
    match p .hseg, p .bseg with
    | some s, _      => .ok (s.top, p)
    | none, some s   => .ok (s.top, p)
    | none, none     => .error .nil
  else
    match segbrkseg p saddr with
    | none => .error (.error Ebadarg)
    | some i =>
      match p i with
      | none => .error (.error Ebadarg)
      | some s =>
        if s.type % (SG_TYPE + 1) ∈ [SG_TEXT, SG_DATA, SG_STACK] then
          .error (.error Ebadarg)
        else
          ibrk sys p addr i

def sysbrk (sys : Sys) (p : Proc) (addr : Nat) : Except Fault (Nat × Proc) :=
  ibrk sys p addr .bseg

inductive Act
  | segattach (attr : Nat) (name : String) (va len : Nat)
  | segdetach (addr : Nat)
  | ibrk (addr : Nat) (seg : SegNo)
  | segbrk (saddr addr : Nat)

-- A request that fails changes nothing.
def step (sys : Sys) (p : Proc) : Act → Option Proc
  | .segattach attr name va len => ((segattach sys p attr name (uintptr va) (usize len)).map Prod.snd).toOption
  | .segdetach addr             => (segdetach p (uintptr addr)).toOption
  | .ibrk addr seg              => ((ibrk sys p (uintptr addr) seg).map Prod.snd).toOption
  | .segbrk saddr addr          => ((syssegbrk sys p (uintptr saddr) (uintptr addr)).map Prod.snd).toOption

-- The addresses that a segment may have.
def Within (lo hi : Nat) : Prop :=
  UTZERO ≤ lo ∧ lo ≤ hi ∧ hi ≤ KZERO

structure AddressSpace (p : Proc) : Prop where
  disjoint : ∀ i j, i ≠ j → ∀ s ∈ p i, ∀ t ∈ p j, Disjoint (Set.Ico s.base s.top) (Set.Ico t.base t.top)
  within   : ∀ i, ∀ s ∈ p i, Within s.base s.top

-- A process may have any segments that do not overlap to begin with.
def machine (sys : Sys) : Machine Proc Act where
  init := AddressSpace
  step := step sys

-- A segment lies inside the range, and has neither of its ends.
def Hides (p : Proc) (lo hi : Nat) : Prop :=
  ∃ i ∈ SegNo.all, ∃ ns ∈ p i, ns.base < ns.top ∧ lo < ns.base ∧ ns.top < hi

-- A segment ends in what a segment from `lo` would cover.
def Jumps (p : Proc) (seg : SegNo) (lo hi : Nat) : Prop :=
  ∃ i ∈ SegNo.all, i ≠ seg ∧ ∃ ns ∈ p i, ns.base < ns.top ∧ lo < ns.top ∧ ns.top ≤ hi

def Attaches (sys : Sys) (p : Proc) (name : String) (va len : Nat) : Prop :=
  match sys.globalseg.find? (·.name = name) with
  | some g => ∀ s ∈ g.seg, Within s.base s.top ∧ s.top - s.base < 2 ^ 32 ∧ ¬Hides p s.base s.top
  | none   => ∀ ps ∈ sys.physseg.find? (·.name = name), ∀ r ∈ (settle p ps va len).toOption,
    Within r.fst (r.fst + r.snd) ∧ ¬Hides p r.fst (r.fst + r.snd)

-- A segment can be grown to `newtop`, if it grows.
def Grows (p : Proc) (s : Segment) (seg : SegNo) (newtop : Nat) : Prop :=
  s.top ≤ newtop → newtop ≤ KZERO ∧ ¬Jumps p seg s.base newtop

-- The address is not so large that it is rounded up to a small one.
def Breaks (p : Proc) (addr : Nat) (seg : SegNo) : Prop :=
  ∀ s ∈ p seg, addr ≠ 0 → ∀ addr' ∈ (clamp p s seg addr).toOption,
    addr' ≤ s.newtop seg addr' ∧ Grows p s seg (s.newtop seg addr')

def Clear (sys : Sys) (p : Proc) : Act → Prop
  | .segattach _ name va len => Attaches sys p name (uintptr va) (usize len)
  | .segdetach _             => True
  | .ibrk addr seg           => Breaks p (uintptr addr) seg
  | .segbrk saddr addr       => uintptr saddr ≠ 0 → ∀ i ∈ segbrkseg p (uintptr saddr), Breaks p (uintptr addr) i

-- The range that a request is about, and the segments that are not to overlap with it.
inductive Wants (sys : Sys) (p : Proc) : Act → (SegNo → Prop) → Nat → Nat → Prop
  | globalseg : sys.globalseg.find? (·.name = name) = some g → g.seg = some s →
    Wants sys p (.segattach attr name va len) (fun _ => True) s.base s.top
  | physseg : sys.globalseg.find? (·.name = name) = none → sys.physseg.find? (·.name = name) = some ps →
    settle p ps (uintptr va) (usize len) = .ok (lo, n) →
    Wants sys p (.segattach attr name va len) (fun _ => True) lo (lo + n)
  | ibrk : p seg = some s → uintptr addr ≠ 0 → clamp p s seg (uintptr addr) = .ok addr' →
    Wants sys p (.ibrk addr seg) (· ≠ seg) s.base (s.newtop seg addr')
  | segbrk : uintptr saddr ≠ 0 → segbrkseg p (uintptr saddr) = some seg → Wants sys p (.ibrk addr seg) others lo hi →
    Wants sys p (.segbrk saddr addr) others lo hi

-- The request would make two segments overlap.
def Overlaps (sys : Sys) (p : Proc) (a : Act) : Prop :=
  ∃ others lo hi, Wants sys p a others lo hi ∧ ∃ i, others i ∧ ∃ t ∈ p i, ¬Disjoint (Set.Ico lo hi) (Set.Ico t.base t.top)

instance : Decidable (Within lo hi) :=
  inferInstanceAs (Decidable (_ ∧ _))

instance : Decidable (Hides p lo hi) :=
  inferInstanceAs (Decidable (∃ i ∈ SegNo.all, _))

instance : Decidable (Jumps p seg lo hi) :=
  inferInstanceAs (Decidable (∃ i ∈ SegNo.all, _))

instance : Decidable (Attaches sys p name va len) :=
  match h : sys.globalseg.find? (·.name = name) with
  | some g => decidable_of_iff (∀ s ∈ g.seg, Within s.base s.top ∧ s.top - s.base < 2 ^ 32 ∧ ¬Hides p s.base s.top)
    (by simp [Attaches, h])
  | none   => decidable_of_iff (∀ ps ∈ sys.physseg.find? (·.name = name), ∀ r ∈ (settle p ps va len).toOption,
      Within r.fst (r.fst + r.snd) ∧ ¬Hides p r.fst (r.fst + r.snd)) (by simp [Attaches, h])

instance : Decidable (Grows p s seg newtop) :=
  inferInstanceAs (Decidable (s.top ≤ newtop → _))

instance : Decidable (Breaks p addr seg) :=
  inferInstanceAs (Decidable (∀ s ∈ p seg, _))

instance : ∀ p a, Decidable (Clear sys p a)
  | p, .segattach _ name va len => inferInstanceAs (Decidable (Attaches sys p name (uintptr va) (usize len)))
  | _, .segdetach _             => inferInstanceAs (Decidable True)
  | p, .ibrk addr seg           => inferInstanceAs (Decidable (Breaks p (uintptr addr) seg))
  | p, .segbrk saddr _          => inferInstanceAs (Decidable (uintptr saddr ≠ 0 → ∀ i ∈ segbrkseg p _, _))

end Port.Sysseg
