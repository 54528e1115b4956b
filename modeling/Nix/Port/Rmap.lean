import Mathlib.Data.BitVec
import Nix.Lib.Machine
import Nix.Lib.Spans

-- The maps of a resource that has addresses.
namespace Port.Rmap

-- The types are not declared with `rmap.c`, but in `memory.c` of `pxeload`. A `ulong` has 32 bits.
structure Map where
  addr : BitVec 64
  size : BitVec 32
deriving DecidableEq

-- The entries from `map` up to the one that `mapend` is at, which is to have no size.
abbrev RMap := List Map

def ulong (a : BitVec 64) : BitVec 32 :=
  a.setWidth 32

def uintptr (n : BitVec 32) : BitVec 64 :=
  n.setWidth 64

-- The range that there was no entry for, as it is printed.
abbrev Losing := Option (BitVec 64 × BitVec 32)

-- The loop that makes an entry by moving the others up. The address of each goes through a `uint`.
def moveup (addr : BitVec 64) (size : BitVec 32) : List Map → List Map × Losing
  | mp :: mp' :: mps =>
    let r := if mp.size = 0 then (mp' :: mps, none) else moveup (uintptr <| ulong mp.addr) mp.size (mp' :: mps)
    (⟨addr, size⟩ :: r.fst, r.snd)
  | mps => (mps, some (addr, size))

-- The loops that take the place of an entry by moving the others down.
def movedown : List Map → List Map
  | mp :: mp' :: mps => if mp.size = 0 then mp :: mp' :: mps else mp' :: movedown (mp' :: mps)
  | mps              => mps

def used (mp : Map) : Bool :=
  mp.size ≠ 0

-- Where the range is not next to the entry that is before it.
def insert (addr : BitVec 64) (size : BitVec 32) (pre post : List Map) : RMap × Losing :=
  match post with
  | []        => (pre, some (addr, size))
  | mp :: mps =>
    if addr + uintptr size = mp.addr ∧ mp.size ≠ 0 then
      (pre ++ ⟨mp.addr - uintptr size, mp.size + size⟩ :: mps, none)
    else
      let r := moveup addr size (mp :: mps)
      (pre ++ r.fst, r.snd)

def rmapfree (rmap : RMap) (addr : BitVec 64) (size : BitVec 32) : RMap × Losing :=
  if size = 0 then
    (rmap, none)
  else
    let pre := rmap.takeWhile fun mp => mp.addr ≤ addr ∧ mp.size ≠ 0
    let post := rmap.dropWhile fun mp => mp.addr ≤ addr ∧ mp.size ≠ 0
    match pre.getLast? with
    | none   => insert addr size pre post
    | some p =>
      if p.addr + uintptr p.size = addr then
        match post with
        | []        => (pre.dropLast ++ [⟨p.addr, p.size + size⟩], none)
        | mp :: mps =>
          if addr + uintptr size = mp.addr then
            (pre.dropLast ++ ⟨p.addr, p.size + size + mp.size⟩ :: movedown (mp :: mps), none)
          else
            (pre.dropLast ++ ⟨p.addr, p.size + size⟩ :: mp :: mps, none)
      else
        insert addr size pre post

section

variable (addr : BitVec 64) (size align : BitVec 32) (mp : Map)

def fit (maddr : BitVec 32) : Span.Scan (BitVec 32) :=
  let maddr := if (0#32).slt align then (maddr + align - 1) / align * align else maddr
  if mp.addr + uintptr mp.size - uintptr maddr < uintptr size then .next else .take maddr

-- The loop of `rmapalloc`, and where it ends.
def scan : Span.Scan (BitVec 32) :=
  let maddr := ulong mp.addr
  if mp.size = 0 then
    .stop
  else if addr ≠ 0 then
    if addr < uintptr maddr then
      .stop
    else if uintptr mp.size < addr - uintptr maddr then
      .next
    else if uintptr (mp.size - size) < addr - uintptr maddr then
      .stop
    else
      fit size align mp (ulong addr)
  else
    fit size align mp maddr

end

-- The address is `none` where the loop ends and 0 is returned.
def rmapalloc (rmap : RMap) (addr : BitVec 64) (size align : BitVec 32) : Option (BitVec 64) × RMap × Losing :=
  match Span.Scan.find (scan addr size align) rmap with
  | none                         => (none, rmap, none)
  | some (pre, mp, mps, maddr) =>
    let oaddr := ulong mp.addr
    let mp' : Map := ⟨uintptr (maddr + size), mp.size - (maddr - oaddr + size)⟩
    let rmap := pre ++ if mp'.size = 0 then mps.head?.toList ++ movedown mps else mp' :: mps
    if oaddr ≠ maddr then
      (some <| uintptr maddr, rmapfree rmap (uintptr oaddr) (maddr - oaddr))
    else
      (some <| uintptr maddr, rmap, none)

inductive Act
  | rmapfree (addr : BitVec 64) (size : BitVec 32)
  | rmapalloc (addr : BitVec 64) (size align : BitVec 32)

def machine : Machine RMap Act where
  -- nothing is in the map to begin with
  init rmap := rmap ≠ [] ∧ ∀ mp ∈ rmap, mp.size = 0
  step rmap
    | .rmapfree addr size        => some (rmapfree rmap addr size).fst
    | .rmapalloc addr size align => some (rmapalloc rmap addr size align).snd.fst

-- The addresses that were freed and not allocated since.
abbrev Owned := Nat → Prop

def Owned.note (rmap : RMap) : Act → Owned → Owned
  | .rmapfree addr size, o        => fun n => o n ∨ addr.toNat ≤ n ∧ n < addr.toNat + size.toNat
  | .rmapalloc addr size align, o => fun n => o n ∧
    ¬∃ a ∈ (rmapalloc rmap addr size align).fst, a.toNat ≤ n ∧ n < a.toNat + size.toNat

def tracked : Machine (RMap × Owned) Act :=
  machine.track Owned (fun _ _ => False) Owned.note

def span (mp : Map) : Span Unit :=
  ⟨mp.addr.toNat, mp.size.toNat, ()⟩

def entries (rmap : RMap) : List (Span Unit) :=
  (rmap.takeWhile used).map span

-- There is room for one more entry.
def Spare (rmap : RMap) : Prop :=
  (entries rmap).length + 1 < rmap.length

-- `e` is next to an entry.
def Touches (e : Span Unit) (es : List (Span Unit)) : Prop :=
  ∃ x ∈ es, x.top = e.addr ∨ e.top = x.addr

section

variable (addr size align : Nat) (e : Span Unit) (es : List (Span Unit))

-- A range is taken from the middle of `e`.
def Splits : Prop :=
  size ≠ 0 ∧ Span.place addr align e ≠ e.addr ∧ Span.place addr align e + size ≠ e.top

-- The entry and the place in it have 32 bits, as do the entries that are moved up to make one of the part before it.
def Narrow : Prop :=
  e.addr < 2 ^ 32 ∧ (Span.Meets addr size () e → Span.start addr e < 2 ^ 32) ∧ ¬Span.Astray addr size () align e 32 ∧
  (Span.Room addr size () align e →
    (Span.place addr align e + size < 2 ^ 32 ∨ Span.place addr align e + size = e.top) ∧
    (Span.place addr align e ≠ e.addr → Splits addr size align e ∨ Span.place addr align e + size = e.top →
      ∀ y ∈ es, y.addr < 2 ^ 32))

-- Neither does an entry become too large nor is one moved up that has an address of more than 32 bits.
def Small : Prop :=
  (∀ x ∈ es, x.top = e.addr → x.size + e.size < 2 ^ 32) ∧ (∀ y ∈ es, e.top = y.addr → e.size + y.size < 2 ^ 32) ∧
  (∀ x ∈ es, x.top = e.addr → ∀ y ∈ es, e.top = y.addr → x.size + e.size + y.size < 2 ^ 32) ∧
  (¬Touches e es → ∀ y ∈ es, e.addr < y.addr → y.addr < 2 ^ 32)

instance : Decidable (Touches e es) :=
  inferInstanceAs (Decidable (∃ x ∈ es, _))

instance : Decidable (Splits addr size align e) :=
  inferInstanceAs (Decidable (_ ∧ _))

instance : Decidable (Narrow addr size align e es) :=
  inferInstanceAs (Decidable (_ ∧ _))

instance : Decidable (Small e es) :=
  inferInstanceAs (Decidable (_ ∧ _))

end

-- The alignment, if there is one.
def padding (align : BitVec 32) : Nat :=
  align.toInt.toNat

-- The ranges that are freed are not in the map, and there is room in it.
def Asked (rmap : RMap) : Act → Prop
  | .rmapfree addr size        => size ≠ 0 →
    let e := ⟨addr.toNat, size.toNat, ()⟩
    Span.Apart e (entries rmap) ∧ (Touches e (entries rmap) ∨ Spare rmap)
  | .rmapalloc addr size align => Spare rmap ∨
    ∀ e ∈ (entries rmap).find? (Span.Room addr.toNat size.toNat () (padding align)),
      ¬Splits addr.toNat size.toNat (padding align) e

-- No address has to go through 32 bits that has more, and no padding goes wrong.
def Fair (rmap : RMap) : Act → Prop
  | .rmapfree addr size        => size ≠ 0 → Small ⟨addr.toNat, size.toNat, ()⟩ (entries rmap)
  | .rmapalloc addr size align => Span.Upto addr.toNat size.toNat () (padding align)
    (Narrow addr.toNat size.toNat (padding align)) (entries rmap)

instance (rmap : RMap) : Decidable (Spare rmap) :=
  inferInstanceAs (Decidable (_ < _))

instance (rmap : RMap) : DecidablePred (Asked rmap)
  | .rmapfree ..  => inferInstanceAs (Decidable (_ → (∀ x ∈ entries rmap, _) ∧ _))
  | .rmapalloc .. => inferInstanceAs (Decidable (_ ∨ ∀ e ∈ List.find? _ _, _))

instance (rmap : RMap) : DecidablePred (Fair rmap)
  | .rmapfree ..  => inferInstanceAs (Decidable (_ → _))
  | .rmapalloc .. => inferInstanceAs (Decidable (Span.Upto ..))

-- A range that would do for `rmapalloc`.
def Suits (addr align : Nat) (size a : Nat) (e : Span Unit) : Prop :=
  (align ≠ 0 → align ∣ a) ∧ (addr ≠ 0 → a = addr) ∧ e.addr ≤ a ∧ a + size ≤ e.top

-- What `rmapalloc` does to the entries.
def Allocates (addr size align : Nat) (rmap rmap' : RMap) : Option Nat → Prop
  | none   => rmap' = rmap ∧ ∀ e ∈ entries rmap, ∀ a, ¬Suits addr align size a e
  | some a => (∃ e ∈ entries rmap, Suits addr align size a e) ∧
    ∀ n, Span.Covers (entries rmap') () n ↔ Span.Covers (entries rmap) () n ∧ ¬(a ≤ n ∧ n < a + size)

-- The entries are in order, they are what they are to be, and those after them have no size. `rmapalloc` keeps to it
-- where `fair`.
structure Kept (fair : RMap → Act → Prop) (s : RMap × Owned) : Prop where
  laid      : Span.Laid (entries s.fst)
  ends      : ∃ es z, s.fst = es ++ z ∧ es.map span = entries s.fst ∧ z ≠ [] ∧ ∀ mp ∈ z, mp.size = 0
  covers    : ∀ n, Span.Covers (entries s.fst) () n ↔ s.snd n
  rmapalloc : ∀ addr size align, fair s.fst (.rmapalloc addr size align) →
    Allocates addr.toNat size.toNat (padding align) s.fst (rmapalloc s.fst addr size align).snd.fst
      ((rmapalloc s.fst addr size align).fst.map BitVec.toNat)

end Port.Rmap
