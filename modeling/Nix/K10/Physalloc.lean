import Nix.Lib.Machine

-- The buddy allocator of physical memory. Memory is kept in lists of free blocks, one for each size. The links
-- are the numbers of the blocks of the least size, counted from address 0, and 0 ends a list.
namespace K10

abbrev kmin : Nat := 21

abbrev kmax : Nat := 30

def bminsz : Nat :=
  2 ^ kmin

-- What `mmuinit` leaves of the memory after the kernel.
structure Sys where
  pmstart : Nat
  mult    : 2 ^ 22 ∣ pmstart
  pos     : 0 < pmstart

def index (v : Nat) : Nat :=
  v / bminsz

def Sys.block (sys : Sys) (i : Nat) : Nat :=
  i - index sys.pmstart

def lg2table (w : Nat) : Nat :=
  Nat.log2 w

def lg2floor (w : Nat) : Nat :=
  if w >>> 48 ≠ 0 then
    if w >>> 48 >>> 8 ≠ 0 then 56 + lg2table (w >>> 48 >>> 8) else 48 + lg2table (w >>> 48)
  else if w >>> 32 ≠ 0 then
    if w >>> 32 >>> 8 ≠ 0 then 40 + lg2table (w >>> 32 >>> 8) else 32 + lg2table (w >>> 32)
  else if w >>> 16 ≠ 0 then
    if w >>> 16 >>> 8 ≠ 0 then 24 + lg2table (w >>> 16 >>> 8) else 16 + lg2table (w >>> 16)
  else
    if w >>> 8 ≠ 0 then 8 + lg2table (w >>> 8) else lg2table w

def IsPowerOf2 (x : Nat) : Prop :=
  x ≠ 0 ∧ x &&& (x - 1) = 0

instance (x : Nat) : Decidable (IsPowerOf2 x) :=
  inferInstanceAs (Decidable (_ ∧ _))

inductive Tag
  | used
  | avail
  deriving DecidableEq

structure Buddy where
  tag  : Tag
  kval : Nat
  next : Nat
  prev : Nat
  p    : Nat

-- Where a call is that has the lock: at the label `S1` with the block `l`, or at the loop that splits it.
inductive Pc
  | idle
  | s1 (l size : Nat)
  | split (l j k size tag : Nat)
  deriving DecidableEq

structure State where
  base   : Nat
  size   : Nat
  nfree  : Int
  blocks : Nat → Buddy
  avail  : Nat → Nat
  pc     : Pc
  -- what `iimbchunk` has still to add
  plops : List (Nat × Nat)
  -- what was allocated and not freed since, and all that was added
  live  : List (Nat × Nat)
  added : List Nat

namespace State

variable (sys : Sys) (s : State)

def upd (r : Nat) (f : Buddy → Buddy) : State :=
  { s with blocks := Function.update s.blocks r (f (s.blocks r)) }

-- The block becomes the first one of its list.
def link (l k : Nat) : State :=
  let i := l + index sys.pmstart
  let s' := s.upd l fun b => { b with tag := .avail, kval := k, next := s.avail k, prev := 0 }
  let n := (s'.blocks l).next
  let s' := if n ≠ 0 then s'.upd (sys.block n) fun b => { b with prev := i } else s'
  { s' with avail := Function.update s'.avail k i }

-- The block before `p` gets the link of `p`.
def unlinkprev (p : Nat) : State :=
  let b := s.blocks p
  if b.prev ≠ 0 then
    (s.upd (sys.block b.prev) fun q => { q with next := b.next }).upd p fun b => { b with prev := 0 }
  else { s with avail := Function.update s.avail b.kval 0 }

def unlinknext (p : Nat) : State :=
  let b := s.blocks p
  if b.next ≠ 0 then
    (s.upd (sys.block b.next) fun q => { q with prev := b.prev }).upd p fun b => { b with next := 0 }
  else s

-- Block `p` is removed from its list, as `xphysfree` does it.
def unlink (p : Nat) : State :=
  ((s.unlinkprev sys p).unlinknext sys p).upd p fun b => { b with tag := .used }

def buddy (l k : Nat) : Nat :=
  if l / (2 ^ k / bminsz) % 2 = 1 then l - 2 ^ k / bminsz else l + 2 ^ k / bminsz

-- The test for that the block can not be merged with its buddy.
def Apart (l : Nat) : Prop :=
  let k := (s.blocks l).kval
  let p := s.blocks (buddy l k)
  k = kmax ∨ p.tag = .used ∨ (p.tag = .avail ∧ p.kval ≠ k)

instance (l : Nat) : Decidable (s.Apart l) :=
  inferInstanceAs (Decidable (_ ∨ _ ∨ _))

-- Block `l` is put on its list, or merged with its buddy.
def merge (l size : Nat) : State :=
  let k := (s.blocks l).kval
  let p := buddy l k
  if s.Apart l then
    { s.link sys l k with nfree := s.nfree + (size / bminsz : Nat), pc := .idle }
  else
    let s := s.unlink sys p
    let l := if p < l then p else l
    { s.upd l fun b => { b with kval := b.kval + 1 } with pc := .s1 l size }

def s1 (l size : Nat) : State :=
  (s.upd l fun b => { b with p := 0 }).merge sys l size

def xphysfree (data size : Nat) : State :=
  if data = 0 then s else { s with pc := .s1 (sys.block (index data)) size }

def plop (a k : Nat) : State :=
  (s.upd (sys.block (index a)) fun b => { b with kval := k }).xphysfree sys a (2 ^ k)

def roundsize (size : Nat) : Nat :=
  if size < bminsz then bminsz else size

def find (k : Nat) : Option Nat :=
  (List.range' k (kmax + 1 - k)).find? fun j => s.avail j ≠ 0

-- The first block of the list `j` is taken for a block of size `2 ^ k`.
def take (j k : Nat) : State :=
  let l := sys.block (s.avail j)
  let s := { s with avail := Function.update s.avail j (s.blocks l).next }
  let s := s.upd (s.avail j) fun b => { b with prev := 0 }
  s.upd l fun b => { b with prev := 0, next := 0, tag := .used, kval := k }

def split (l j k size tag : Nat) : Option State :=
  if k < j then
    let j := j - 1
    let p := l + 2 ^ j / bminsz
    some { s.link sys p j with pc := .split l j k size tag }
  else
    let m := sys.pmstart + bminsz * l
    if s.base ≤ m ∧ m < s.base + s.size then
      some { s.upd l fun b => { b with p := tag } with
        nfree := s.nfree - (roundsize size / bminsz : Nat), pc := .idle, live := (m, size) :: s.live }
    else none

def run : Option State :=
  match s.pc with
  | .idle =>
    match s.plops with
    | []           => none
    | (a, k) :: ps => some <| { s with plops := ps }.plop sys a k
  | .s1 l size             => some <| s.s1 sys l size
  | .split l j k size tag  => s.split sys l j k size tag

def xphysalloc (size tag : Nat) : State :=
  if IsPowerOf2 (roundsize size) then
    let k := lg2floor (roundsize size)
    match s.find k with
    | none   => s
    | some j => { s.take sys j k with pc := .split (sys.block (s.avail j)) j k size tag }
  else s

end State

def roundup (a : Nat) : Nat :=
  (a + (bminsz - 1)) / bminsz * bminsz

def rounddn (e : Nat) : Nat :=
  e / bminsz * bminsz

-- The loops of `iimbchunk`: what they plop, and where they end.
def up (e : Nat) : Nat → Nat → Nat → List (Nat × Nat) × Nat × Nat
  | 0, k, a     => ([], a, k)
  | n + 1, k, a =>
    if a + 2 ^ k < e then
      if a &&& 2 ^ k ≠ 0 then
        let (ps, a', k') := up e n (k + 1) (a + 2 ^ k)
        ((a, k) :: ps, a', k')
      else up e n (k + 1) a
    else ([], a, k)

def level (e k : Nat) : Nat → Nat → List (Nat × Nat) × Nat
  | 0, a     => ([], a)
  | n + 1, a =>
    if a + 2 ^ k ≤ e then
      let (ps, a') := level e k n (a + 2 ^ k)
      ((a, k) :: ps, a')
    else ([], a)

def down (e : Nat) : Nat → Nat → List (Nat × Nat)
  | 0, _     => []
  | k + 1, a =>
    if a < e then
      if a + 2 ^ k ≤ e then (a, k) :: down e k (a + 2 ^ k) else down e k a
    else []

def loops (e n k a : Nat) : List (Nat × Nat) :=
  let (ps, a, k) := up e n k a
  let (qs, a) := level e k ((e - a) / 2 ^ k) a
  ps ++ qs ++ down e k a

def iimbchunk (a e : Nat) : List (Nat × Nat) :=
  loops (rounddn e) (kmax - kmin) kmin (roundup a)

-- The blocks of the least size that are in a range.
def Sys.range (sys : Sys) (a e : Nat) : List Nat :=
  List.range' (sys.block (index (roundup a))) (index (rounddn e) - index (roundup a))

-- One round of the loop of `physinit`, all for one domain.
def State.physinit (sys : Sys) (s : State) (addr len : Nat) : Option State :=
  let s := { s with plops := iimbchunk addr (addr + len), added := s.added ++ sys.range addr (addr + len) }
  if s.size = 0 then some { s with base := addr, size := len }
  else if addr < s.base then none
  else if s.base + s.size < addr + len then some { s with size := addr - s.base + len }
  else some s

inductive Act
  | physinit (addr len : Nat)
  | xphysalloc (size tag : Nat)
  | xphysfree (data size : Nat)
  -- the next step of the call that has the lock, or of `physinit`
  | run

instance lawfulBEq_range : LawfulBEq (Nat × Nat) := inferInstance

variable (sys : Sys)

def step (s : State) : Act → Option State
  | .physinit addr len =>
    if s.pc = .idle ∧ s.plops = [] ∧ 0 < len ∧ sys.pmstart ≤ addr ∧
        ∀ u ∈ sys.range addr (addr + len), u ∉ s.added then
      s.physinit sys addr len
    else none
  | .xphysalloc size tag =>
    if s.pc = .idle ∧ s.plops = [] ∧ 0 < s.size then some <| s.xphysalloc sys size tag else none
  | .xphysfree data size =>
    if s.pc = .idle ∧ s.plops = [] ∧ (data, size) ∈ s.live then
      some <| { s with live := s.live.erase (data, size) }.xphysfree sys data size
    else none
  | .run => s.run sys

structure Created (s : State) : Prop where
  size   : s.size = 0
  nfree  : s.nfree = 0
  blocks : ∀ r, s.blocks r = ⟨.used, 0, 0, 0, 0⟩
  avail  : ∀ k, s.avail k = 0
  pc     : s.pc = .idle
  plops  : s.plops = []
  live   : s.live = []
  added  : s.added = []

def machine : Machine State Act where
  init := Created
  step := step sys

end K10
