import Nix.Lib.Machine
import Nix.Creepy.Dk

-- The reference blocks and the two copies of each that are on disk. A step is what a process does
-- while it holds a lock, or one write or read of the disk.
namespace Creepy.Refs

-- The entries of a reference block: a counter, or the next block in the free list.
abbrev Counters := Nat → UInt64

structure Super where
  -- first free block on list
  free    : UInt64
  -- end of the assigned disk portion
  eaddr   : Nat
  -- use odd ref blocks? or even ref blocks?
  oddrefs : Bool
  deriving DecidableEq

-- A reference block in memory.
structure Ref where
  ref     : Counters
  dirty   : Bool
  frozen  : Bool
  -- It was dirty when frozen last, and has not been written to both copies yet.
  changed : Bool
  -- the copy that is being read, if any
  loading : Option Bool

-- The even copy of the reference block of a group is found at the address of the group, and the odd
-- one right after it.
structure Disk where
  super : Option Super
  ref   : (odd : Bool) → (group : Nat) → Counters

def groupaddr (g : Nat) : Nat :=
  blkaddr (g * Nblkgrpsz)

-- The group that starts at an address.
def groupof (addr : Nat) : Nat :=
  (addr - Dblk0addr) / Dblksz / Nblkgrpsz

-- Where the process is that freezes and writes.
inductive Phase
  | idle
  -- before `fswrite`
  | frozen
  -- in `writerefs`, before these blocks
  | writerefs (l : List Nat)
  | writedata
  -- in `syncrefs`, before the copy in use is changed, and before these blocks
  | written
  | syncrefs (l : List Nat)
  deriving DecidableEq

structure State where
  disk     : Disk
  super    : Super
  fzsuper  : Option Super
  mem      : Nat → Option Ref
  -- the list of those in memory
  refs     : List Nat
  phase    : Phase
  -- the group that is being created, by a process that holds the lock of `fs`
  clearing : Option Nat
  -- the groups and the indices of the blocks that `dbput` is about to link into the free list
  freeing  : List (Nat × Nat)

inductive Act
  -- `newblkaddr` for the first block of a group, and whether `dbclear` succeeds for each of the copies
  | dbclear (ok : Bool)
  | dbclearodd (ok : Bool)
  -- `newblkaddr` for another block, and for one of the free list that is followed by `naddr`
  | extend
  | takefree (naddr : UInt64)
  -- the two halves of `dbget` for a block that is not in memory
  | dbget (g : Nat)
  | dbread (g : Nat)
  -- `ok` tells whether `meltedref` can write the block, if it has to.
  | dbaddref (g i : Nat) (delta set : UInt64) (ok : Bool)
  | dbput (g i : Nat) (ok : Bool)
  -- the end of `dbput`
  | link (g i : Nat)
  | freezesuperrefs
  | fswrite
  | writeref (ok : Bool)
  -- A data block cannot be written.
  | writedatafails
  | writezsuper (ok : Bool)
  | syncrefs
  | syncref (ok : Bool)
  -- The machine stops, and `fsopen` is called later.
  | crash
  deriving DecidableEq

namespace Disk

def pwrite (d : Disk) (odd : Bool) (g : Nat) (ref : Counters) : Disk :=
  { d with ref := Function.update d.ref odd <| Function.update (d.ref odd) g ref }

end Disk

namespace Ref

-- The counter `i` is incremented, or set if there is a value to set it to.
def add (rb : Ref) (i : Nat) (delta set : UInt64) : Ref :=
  { rb with
    ref   := Function.update rb.ref i (if set ≠ 0 then set else rb.ref i + delta)
    dirty := true }

-- `meltedref` has to write the block.
def writes (rb : Ref) : Bool :=
  rb.frozen ∧ rb.dirty

-- The block after `meltedref`. It stays frozen if it cannot be written.
def melted (rb : Ref) (ok : Bool) : Ref :=
  if rb.frozen ∧ rb.dirty ∧ ¬ok then { rb with dirty := false }
  else { rb with dirty := rb.dirty ∧ ¬rb.frozen, frozen := false }

def freeze (rb : Ref) : Ref :=
  { rb with frozen := true, changed := rb.dirty }

end Ref

namespace State

variable (s : State) (g : Nat)

def put (rb : Ref) : State :=
  { s with mem := Function.update s.mem g (some rb) }

-- The group has been created, and blocks of it were allocated.
def has : Prop :=
  blkaddr (g * Nblkgrpsz + 2) < s.super.eaddr

instance : Decidable (s.has g) :=
  inferInstanceAs (Decidable (_ < _))

-- The copy that is not in use is written. There is a frozen super block when a block is frozen.
def meltedref (rb : Ref) (ok : Bool) : State :=
  let s := s.put g (rb.melted ok)
  if rb.writes ∧ ok then
    { s with disk := s.disk.pwrite (s.fzsuper.any (·.oddrefs)) g rb.ref }
  else s

-- `dbaddref` when the block is in memory. Nothing is done but to melt it if that fails.
def dbaddref (rb : Ref) (i : Nat) (delta set : UInt64) (ok : Bool) : State :=
  let s := s.meltedref g rb ok
  let rb := rb.melted ok
  if rb.frozen then s else s.put g (rb.add i delta set)

-- The lock of the list of reference blocks is not free.
def locked : Bool :=
  match s.phase with
  | .writerefs _ => true
  | _            => false

end State

-- `fsopen`. Nothing is in memory but the super block.
def fsopen (disk : Disk) (super : Super) : State where
  disk     := disk
  super    := super
  fzsuper  := none
  mem      := fun _ => none
  refs     := []
  phase    := .idle
  clearing := none
  freeing  := []

def step (limit : Nat) (s : State) : Act → Option State
  | .dbclear ok =>
    if s.clearing = none ∧ s.super.free = 0 ∧ s.super.eaddr < limit ∧ newgroup s.super.eaddr then
      let g := groupof s.super.eaddr
      let s := { s with super.eaddr := s.super.eaddr + Dblksz }
      if ok then some { s with disk := s.disk.pwrite false g 0, clearing := some g } else some s
    else none
  | .dbclearodd ok =>
    match s.clearing with
    | none => none
    | some g =>
      let s := { s with clearing := none }
      if ok then
        some { s with
          disk        := s.disk.pwrite true g 0
          super.eaddr := s.super.eaddr + 2 * Dblksz }
      else some s
  | .extend =>
    if s.clearing = none ∧ s.super.free = 0 ∧ s.super.eaddr < limit ∧ ¬newgroup s.super.eaddr then
      some { s with super.eaddr := s.super.eaddr + Dblksz }
    else none
  | .takefree naddr =>
    if s.clearing = none ∧ s.super.free ≠ 0 then some { s with super.free := naddr } else none
  | .dbget g =>
    if s.has g ∧ (s.mem g).isNone ∧ ¬s.locked then
      let rb := { ref := 0, dirty := false, frozen := false, changed := false, loading := s.super.oddrefs }
      some { s.put g rb with refs := g :: s.refs }
    else none
  | .dbread g =>
    match s.mem g with
    | none => none
    | some rb =>
      match rb.loading with
      | none => none
      | some odd => some (s.put g { rb with ref := s.disk.ref odd g, loading := none })
  | .dbaddref g i delta set ok =>
    match s.mem g with
    | none => none
    | some rb =>
      if rb.loading.isNone ∧ ¬s.locked ∧ (ok ∨ rb.writes) then
        some (s.dbaddref g rb i delta set ok)
      else none
  | .dbput g i ok =>
    match s.mem g with
    | none => none
    | some rb =>
      if rb.loading.isNone ∧ ¬s.locked ∧ (ok ∨ rb.writes) then
        let last := ok ∧ rb.ref i = 1
        some { s.dbaddref g rb i (-1) 0 ok with
          freeing := if last then (g, i) :: s.freeing else s.freeing }
      else none
  | .link g i =>
    match s.mem g with
    | none => none
    | some rb =>
      if (g, i) ∈ s.freeing ∧ ¬s.locked ∧ s.clearing = none then
        some { s.put g { rb with ref := Function.update rb.ref i s.super.free } with
          super.free := .ofNat (addrofref (groupaddr g) i)
          freeing    := s.freeing.erase (g, i) }
      else none
  | .freezesuperrefs =>
    -- There is no request in progress.
    if s.phase = .idle ∧ s.fzsuper = none ∧ s.clearing = none ∧ s.freeing = [] ∧
        ∀ g ∈ s.refs, ∀ rb ∈ s.mem g, rb.loading.isNone then
      some { s with
        fzsuper := some { s.super with oddrefs := !s.super.oddrefs }
        mem     := fun g => (s.mem g).map Ref.freeze
        phase   := .frozen }
    else none
  | .fswrite =>
    if s.phase = .frozen then some { s with phase := .writerefs s.refs } else none
  | .writeref ok =>
    match s.phase with
    | .writerefs [] => some { s with phase := .writedata }
    | .writerefs (g :: l) =>
      match s.mem g with
      | none => none
      | some rb =>
        if ok then some { s.meltedref g rb true with phase := .writerefs l }
        else if rb.writes then some { s.meltedref g rb false with phase := .idle }
        else none
    | _ => none
  | .writedatafails =>
    if s.phase = .writedata then some { s with phase := .idle } else none
  | .writezsuper ok =>
    match s.phase, s.fzsuper with
    | .writedata, some fz =>
      if ok then some { s with disk.super := some fz, fzsuper := none, phase := .written }
      else some { s with phase := .idle }
    | _, _ => none
  | .syncrefs =>
    if s.phase = .written then
      some { s with super.oddrefs := !s.super.oddrefs, phase := .syncrefs s.refs }
    else none
  | .syncref ok =>
    match s.phase with
    | .syncrefs [] => some { s with phase := .idle }
    | .syncrefs (g :: l) =>
      match s.mem g with
      | none => none
      | some rb =>
        if ¬rb.changed then some { s with phase := .syncrefs l } else
        if ok then
          some { s.put g { rb with changed := false } with
            disk  := s.disk.pwrite (!s.super.oddrefs) g (s.disk.ref s.super.oddrefs g)
            phase := .syncrefs l }
        else some { s with phase := .idle }
    | _ => none
  | .crash => s.disk.super.map (fsopen s.disk)

-- `fsfmt` before it allocates the first block.
def fsfmt (ref : Bool → Nat → Counters) : State :=
  fsopen { super := none, ref := ref } { free := 0, eaddr := Dblk0addr, oddrefs := false }

def machine (limit : Nat) : Machine State Act where
  init s := ∃ ref, s = fsfmt ref
  step   := step limit

end Creepy.Refs
