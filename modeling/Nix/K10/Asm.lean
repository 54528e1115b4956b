import Nix.Lib.Chain
import Nix.Lib.Machine
import Nix.Lib.Spans

-- The map of the physical address space.
namespace K10.Asm

abbrev Uintmem := Fin (2 ^ 64)

def uintmem (n : Int) : Nat :=
  (n % 2 ^ 64).toNat

def AsmNONE : Int := 0
def AsmMEMORY : Int := 1

-- An entry of the array, without its link.
abbrev Entry := Span Int

def Entry.stop (e : Entry) : Nat :=
  uintmem (e.addr + e.size)

abbrev nelem : Nat := 64

-- The entries are known by where they are in the array, which ends here.
abbrev nil : Nat := nelem

structure State where
  asm      : Nat → Entry
  next     : Nat → Nat
  index    : Nat
  list     : Nat
  freelist : Nat

-- What the loop of `asmalloc` does at an entry.
def fit (size : Nat) (align : Int) (e : Entry) (a : Nat) : Span.Scan Nat :=
  let a := if 0 < align then uintmem (a + align - 1) / align.toNat * align.toNat else a
  if uintmem (e.addr + e.size - a) < size then .next else .take a

def scan (addr size : Nat) (type align : Int) (e : Entry) : Span.Scan Nat :=
  if e.type ≠ type then
    .next
  else if addr ≠ 0 then
    if addr < e.addr then
      .stop
    else if e.size < addr - e.addr then
      .next
    else if uintmem (e.size - size) < addr - e.addr then
      .stop
    else
      fit size align e addr
  else
    fit size align e e.addr

namespace State

variable (s : State)

def set (i : Nat) (e : Entry) : State :=
  { s with asm := Function.update s.asm i e }

-- What `asmdump` prints. A list that has no end is no list.
def walk : Nat → Nat → Option (List Entry)
  | 0, _     => none
  | k + 1, i => if i = nil then some [] else (walk k (s.next i)).map (s.asm i :: ·)

def entries : Option (List Entry) :=
  s.walk (nelem + 1) s.list

def asmnew (e : Entry) : Option (Nat × State) :=
  if s.freelist ≠ nil then
    some (s.freelist, { s.set s.freelist e with
      next := Function.update s.next s.freelist nil, freelist := s.next s.freelist })
  else if nelem ≤ s.index then
    none
  else
    some (s.index, { s.set s.index e with index := s.index + 1 })

-- The link that leads on from `pp`, or the head of the list.
def link (pp i : Nat) : State :=
  if pp = nil then { s with list := i } else { s with next := Function.update s.next pp i }

def free (i : Nat) : State :=
  { s with next := Function.update s.next i s.freelist, freelist := i }

-- The entries that an address is between.
def find (addr : Nat) : Nat → Nat → Nat → Option (Nat × Nat)
  | 0, _, _       => none
  | k + 1, pp, np =>
    if np ≠ nil ∧ (s.asm np).addr ≤ addr then find addr k np (s.next np) else some (pp, np)

def asmfree (addr size : Nat) (type : Int) : Option (Int × State) :=
  if size = 0 then
    some (0, s)
  else do
    let (pp, np) ← s.find addr (nelem + 1) nil s.list
    let p := s.asm pp
    let q := s.asm np
    if pp ≠ nil ∧ addr < p.stop ∨ np ≠ nil ∧ q.addr < uintmem (addr + size) then
      some (-1, s)
    else if pp ≠ nil ∧ p.type = type ∧ p.stop = addr then
      let n := uintmem (p.size + size)
      if np ≠ nil ∧ q.type = type ∧ uintmem (addr + size) = q.addr then
        some (0, ((s.set pp { p with size := uintmem (n + q.size) }).link pp (s.next np)).free np)
      else
        some (0, s.set pp { p with size := n })
    else if np ≠ nil ∧ q.type = type ∧ uintmem (addr + size) = q.addr then
      some (0, s.set np { q with addr := uintmem (q.addr - size), size := uintmem (q.size + size) })
    else
      match s.asmnew ⟨addr, size, type⟩ with
      | none => some (-1, s)
      | some (i, s) =>
        let s := s.link pp i
        some (0, { s with next := Function.update s.next i np })

def search (addr size : Nat) (type align : Int) : Nat → Nat → Nat → Option (Option (Nat × Nat × Nat))
  | 0, _, _      => none
  | k + 1, pp, i =>
    if i = nil then
      some none
    else
      match scan addr size type align (s.asm i) with
      | .next   => search addr size type align k i (s.next i)
      | .stop   => some none
      | .take a => some (some (pp, i, a))

-- An entry that is used up. The head of the list stays as it is.
def drop (pp i : Nat) : State :=
  if pp ≠ nil then (s.link pp (s.next i)).free i else s.free i

-- The address is `none` where the loop ends and 0 is returned.
def asmalloc (addr size : Nat) (type align : Int) : Option (Option Nat × State) := do
  match ← s.search addr size type align (nelem + 1) nil s.list with
  | none            => some (none, s)
  | some (pp, i, a) =>
    let e := s.asm i
    let e' := { e with addr := uintmem (a + size), size := uintmem (e.size - (a - e.addr + size)) }
    let s := s.set i e'
    let s := if e'.size = 0 then s.drop pp i else s
    if e.addr ≠ a then
      let r ← s.asmfree e.addr (uintmem (a - e.addr)) type
      some (some a, r.snd)
    else
      some (some a, s)

def asminsert (addr size : Nat) (type : Int) : Option State :=
  if type = AsmNONE then
    some s
  else do
    let (a, s) ← s.asmalloc addr size AsmNONE 0
    if a.getD 0 = 0 then
      some s
    else do
      let (r, s) ← s.asmfree addr size type
      if r = 0 then
        some s
      else do
        let (_, s) ← s.asmfree addr size AsmNONE
        some s

end State

-- The map that there is to begin with.
def initial : State where
  asm i    := if i = 0 then ⟨0, uintmem (-1), AsmNONE⟩ else ⟨0, 0, 0⟩
  next _   := nil
  index    := 1
  list     := 0
  freelist := nil

inductive Act
  | asmfree (addr size : Uintmem) (type : Int)
  | asmalloc (addr size : Uintmem) (type align : Int)
  | asminsert (addr size : Uintmem) (type : Int)

-- The calls that return.
def machine : Machine State Act where
  init s := s = initial
  step s
    | .asmfree addr size type        => (s.asmfree addr size type).map Prod.snd
    | .asmalloc addr size type align => (s.asmalloc addr size type align).map Prod.snd
    | .asminsert addr size type      => s.asminsert addr size type

-- The addresses of each type that were freed or inserted and not allocated since.
abbrev Owned := Int → Nat → Prop

namespace Owned

variable (o : Owned) (s : State)

def asmfree (addr size : Nat) (type : Int) : Owned :=
  fun t n => o t n ∨ (s.asmfree addr size type).map Prod.fst = some 0 ∧ t = type ∧ addr ≤ n ∧ n < addr + size

def asmalloc (addr size : Nat) (type align : Int) : Owned :=
  fun t n => o t n ∧
    ¬∃ a, (s.asmalloc addr size type align).map Prod.fst = some (some a) ∧ t = type ∧ a ≤ n ∧ n < a + size

def asminsert (addr size : Nat) (type : Int) : Owned :=
  if type = AsmNONE then
    o
  else
    match s.asmalloc addr size AsmNONE 0 with
    | none         => o
    | some (a, s') =>
      if a.getD 0 = 0 then
        o.asmalloc s addr size AsmNONE 0
      else
        match s'.asmfree addr size type with
        | none          => o.asmalloc s addr size AsmNONE 0
        | some (r, s'') =>
          if r = 0 then
            (o.asmalloc s addr size AsmNONE 0).asmfree s' addr size type
          else
            (o.asmalloc s addr size AsmNONE 0).asmfree s'' addr size AsmNONE

end Owned

def tracked : Machine (State × Owned) Act :=
  machine.track Owned (fun _ t n => t = AsmNONE ∧ n < 2 ^ 64 - 1) fun s a o =>
    match a with
    | .asmfree addr size type        => o.asmfree s addr size type
    | .asmalloc addr size type align => o.asmalloc s addr size type align
    | .asminsert addr size type      => o.asminsert s addr size type

def State.Spare (s : State) : Prop :=
  s.freelist ≠ nil ∨ s.index < nelem

instance (s : State) : Decidable s.Spare :=
  inferInstanceAs (Decidable (_ ∨ _))

section

variable (s : State) (addr size : Nat) (type align : Int)

-- No padding goes wrong, and there is another entry to be had if one is split.
def Clear (e : Entry) : Prop :=
  ¬Span.Astray addr size type align.toNat e 64 ∧ (Span.Room addr size type align.toNat e → size ≠ 0 →
    Span.place addr align.toNat e ≠ e.addr → Span.place addr align.toNat e + size ≠ e.top → s.Spare)

-- The first entry of all is not used up.
def Heads (es : List Entry) : Prop :=
  ∀ e ∈ es.head?, Span.Room addr size type align.toNat e → Span.place addr align.toNat e + size ≠ e.top

def Allocs : Prop :=
  ∀ es ∈ s.entries, Span.Upto addr size type align.toNat (fun e _ => Clear s addr size type align e) es ∧
    Heads addr size type align es

instance (e : Entry) : Decidable (Clear s addr size type align e) :=
  inferInstanceAs (Decidable (_ ∧ (_ → _)))

instance (es : List Entry) : Decidable (Heads addr size type align es) :=
  inferInstanceAs (Decidable (∀ e ∈ es.head?, _))

instance : Decidable (Allocs s addr size type align) :=
  inferInstanceAs (Decidable (∀ es ∈ s.entries, _))

end

-- Ranges end before the last address, and no `asmalloc` goes wrong. `asminsert` is of a range that is at some address.
def Fair (s : State) : Act → Prop
  | .asmfree addr size _           => addr.val + size.val < 2 ^ 64
  | .asmalloc addr size type align => Allocs s addr size type align
  | .asminsert addr size type      => type ≠ AsmNONE →
    addr.val ≠ 0 ∧ addr.val + size.val < 2 ^ 64 ∧ Allocs s addr size AsmNONE 0

instance (s : State) : DecidablePred (Fair s)
  | .asmfree ..   => inferInstanceAs (Decidable (_ < _))
  | .asmalloc ..  => inferInstanceAs (Decidable (Allocs ..))
  | .asminsert .. => inferInstanceAs (Decidable (_ → _ ∧ _))

-- What `asmalloc` does to a map.
def Allocates (addr size : Nat) (type align : Int) (es es' : List Entry) : Option Nat → Prop
  | none   => es' = es
  | some a => (0 < align → align ∣ a) ∧ (addr ≠ 0 → a = addr) ∧
    (∃ e ∈ es, e.type = type ∧ e.addr ≤ a ∧ a + size ≤ e.top) ∧
    ∀ t n, Span.Covers es' t n ↔ Span.Covers es t n ∧ ¬(t = type ∧ a ≤ n ∧ n < a + size)

-- The map is in order, nothing in it can be merged, and it has what it is to have. `asmalloc` keeps to it where `fair`.
structure Kept (fair : State → Act → Prop) (s : State × Owned) : Prop where
  entries  : ∃ es, s.fst.entries = some es ∧ Span.Laid es ∧ ∀ t n, Span.Covers es t n ↔ s.snd t n
  asmalloc : ∀ (addr size : Uintmem) type align es, fair s.fst (.asmalloc addr size type align) →
    s.fst.entries = some es → ∃ a s' es', s.fst.asmalloc addr size type align = some (a, s') ∧
    s'.entries = some es' ∧ Allocates addr size type align es es' a

end K10.Asm
