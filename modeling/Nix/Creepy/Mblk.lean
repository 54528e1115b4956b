import Nix.Lib.Machine
import Nix.Lib.DList
import Nix.Creepy.Dk

-- The lists and the hash that blocks in memory are kept in. A step is what a process does while it
-- holds the lock of a list, or one write outside of these locks.
namespace Creepy.Mblk

-- `dl` is the private list of `writedata`.
inductive ListId
  | lru | mdirty | refs | dl
  deriving DecidableEq

-- The types the functions here tell apart. `other` is for files, data and pointers.
inductive BType
  | super | ref | other
  deriving DecidableEq

-- A block that was freed and allocated again counts as another one, so these do not change.
structure Blocks (Blk : Type*) where
  addr  : Blk → Nat
  type  : Blk → BType
  -- the number of buckets of the hash
  nhash : Nat

-- What a process does once a block is off a list.
inductive Unlinked (Blk : Type*)
  | relink (last : Bool)
  | mark
  | unhash
  | reclaim (bprev : Option Blk)
  deriving DecidableEq

-- What a process does once a block is on a list.
inductive Linked
  | done | changed | hashed | got | written | failed
  deriving DecidableEq

inductive Proc (Blk : Type*)
  | idle
  -- before a call to `munlink`, and to `mlink` or `mlinklast`
  | unlink (b : Blk) (l : ListId) (k : Unlinked Blk)
  | link (b : Blk) (l : ListId) (last : Bool) (k : Linked)
  -- in `changed`, before the lock is taken, and before the block is marked as dirty
  | chg (b : Blk)
  | mark (b : Blk)
  -- in `mbget`, before `mbused`
  | get (b : Blk)
  -- in `mfilter`, at a block
  | filter (cur : Option Blk)
  -- in the loop of `writedata`, and in `dbwrite`
  | write
  | wr (b : Blk)
  -- in `fslru`, at a block
  | scan (cur : Option Blk)
  -- has called `fatal`, or an assertion failed
  | dead
  deriving DecidableEq

structure State (Blk Pid : Type*) where
  links  : Links Blk
  ends   : ListId → Ends Blk
  hash   : Nat → List Blk
  dirty  : Blk → Bool
  frozen : Blk → Bool
  -- The block was allocated by `mballoc` some time.
  used   : Blk → Bool
  proc   : Pid → Proc Blk
  -- The locks of lists, of buckets, and `dirtylk` of blocks, when held for longer than a step. The
  -- one of the private list is `fzlk`, which the process that writes holds.
  lk     : ListId → Option Pid
  hlk    : Nat → Option Pid
  dirtylk : Blk → Option Pid

inductive Lru
  | stop | ignore | out
  deriving DecidableEq

inductive Act (Blk : Type*)
  | mbused (b : Blk)
  | mbunused (b : Blk)
  | changed (b : Blk)
  | written (b : Blk)
  | freeze (b : Blk)
  | mbhash (b : Blk)
  | mbunhash (b : Blk)
  -- When no block is found at `addr`, `mk` is made for it, if any.
  | mbget (addr : Nat) (mk : Option Blk)
  | writedata
  | fslru
  -- the next step of a call
  | next
  -- the next step of `dbwrite`, whether `pwrite` succeeds and the block is linked last
  | wrote (ok last : Bool)
  -- the next step of `fslru`, and what it does with the block
  | lru (d : Lru)
  deriving DecidableEq

section

variable {Blk Pid : Type*} [DecidableEq Blk] [DecidableEq Pid]

namespace Blocks

variable (B : Blocks Blk) (b : Blk)

def fake : Bool := B.addr b ≥ Fakeaddr

def bucket : Nat := B.addr b % B.nhash

-- A block that moves between the lru list and the dirty list.
def moves : Bool := B.type b = .other ∧ ¬B.fake b

end Blocks

namespace State

variable (s : State Blk Pid) (p : Pid) (B : Blocks Blk) (b : Blk)

def goto (c : Proc Blk) : State Blk Pid :=
  { s with proc := Function.update s.proc p c }

def munlink (l : ListId) : State Blk Pid :=
  { s with
    links := s.links.unlink b
    ends  := Function.update s.ends l ((s.ends l).unlink s.links b) }

def mlink (l : ListId) : State Blk Pid :=
  { s with
    links := s.links.link (s.ends l) b
    ends  := Function.update s.ends l ((s.ends l).link b) }

def mlinklast (l : ListId) : State Blk Pid :=
  { s with
    links := s.links.linklast (s.ends l) b
    ends  := Function.update s.ends l ((s.ends l).linklast b) }

def unlinked : Bool := s.links.next b = none ∧ s.links.prev b = none

-- `mbused` and `mbunused`
def touch (last : Bool) : State Blk Pid :=
  if s.dirty b ∨ ¬B.moves b then s.goto p .idle
  else s.goto p (.unlink b .lru (.relink last))

-- The zeroed block that `mballoc` returns goes into the hash.
def hash1 (hash : List Blk) : State Blk Pid :=
  { s with
    hash   := Function.update s.hash (B.bucket b) hash
    links  := { next := Function.update s.links.next b none, prev := Function.update s.links.prev b none }
    dirty  := Function.update s.dirty b false
    frozen := Function.update s.frozen b false
    used   := Function.update s.used b true }

-- `linkblock`, the bucket being locked until the block is on its list
def linkblock (k : Linked) (c : Proc Blk) : State Blk Pid :=
  if B.fake b ∨ B.type b = .super then s.goto p c
  else
    { s.goto p (.link b (if B.type b = .ref then .refs else .lru) false k) with
      hlk := Function.update s.hlk (B.bucket b) (some p) }

-- `mbunhash`, the bucket being locked until the block is off its list
def unhash (k : Unlinked Blk) (c : Proc Blk) : State Blk Pid :=
  if B.type b = .ref then s.goto p .dead else
  match (s.hash (B.bucket b)).find? (B.addr · = B.addr b) with
  | none => s.goto p .dead
  | some a =>
    if a ≠ b then s.goto p .dead else
    let s := { s with hash := Function.update s.hash (B.bucket b) ((s.hash (B.bucket b)).erase b) }
    if B.fake b then s.goto p c else
    if B.type b = .super then s.goto p .dead else
    { s.goto p (.unlink b (if s.dirty b then .mdirty else .lru) k) with
      hlk := Function.update s.hlk (B.bucket b) (some p) }

end State

-- The next step of a call. `none` when a lock is not free.
def next (B : Blocks Blk) (s : State Blk Pid) (p : Pid) : Option (State Blk Pid) :=
  match s.proc p with
  | .get b => some (s.touch p B b false)
  | .chg b =>
    if s.dirtylk b ≠ none then none else
    if s.dirty b then some (s.goto p .idle) else
    if B.type b ≠ .other then some { s.goto p .idle with dirty := Function.update s.dirty b true } else
    some { s.goto p (.unlink b .lru .mark) with dirtylk := Function.update s.dirtylk b (some p) }
  | .unlink b l k =>
    match k with
    | .relink last =>
      if s.lk l ≠ none then none else some ((s.munlink b l).goto p (.link b .lru last .done))
    | .mark =>
      if s.lk l ≠ none then none else some ((s.munlink b l).goto p (.mark b))
    | .unhash =>
      if s.lk l ≠ none then none else
      some { (s.munlink b l).goto p .idle with hlk := Function.update s.hlk (B.bucket b) none }
    | .reclaim bprev =>
      some { (s.munlink b l).goto p (.scan bprev) with hlk := Function.update s.hlk (B.bucket b) none }
  | .mark b =>
    some { s.goto p (.link b .mdirty false .changed) with dirty := Function.update s.dirty b true }
  | .link b l last k =>
    if ¬last ∧ ¬s.unlinked b then some (s.goto p .dead) else
    if s.lk l ≠ none then none else
    let s := if last then s.mlinklast b l else s.mlink b l
    match k with
    | .done    => some (s.goto p .idle)
    | .changed => some { s.goto p .idle with dirtylk := Function.update s.dirtylk b none }
    | .hashed  => some { s.goto p .idle with hlk := Function.update s.hlk (B.bucket b) none }
    | .got     => some { s.goto p (.get b) with hlk := Function.update s.hlk (B.bucket b) none }
    | .written => some (s.goto p .write)
    -- The blocks that are left on the private list are forgotten.
    | .failed  => some { s.goto p .idle with lk := Function.update s.lk .dl none }
  | .filter none => some { s.goto p .write with lk := Function.update s.lk .mdirty none }
  | .filter (some b) =>
    let bnext := s.links.next b
    if s.frozen b then some (((s.munlink b .mdirty).mlinklast b .dl).goto p (.filter bnext))
    else some (s.goto p (.filter bnext))
  | .write =>
    match (s.ends .dl).hd with
    | none   => some { s.goto p .idle with lk := Function.update s.lk .dl none }
    | some b =>
      let s := s.munlink b .dl
      if ¬s.dirty b ∨ B.fake b then some (s.goto p .dead) else some (s.goto p (.wr b))
  | _ => none

def step (B : Blocks Blk) (s : State Blk Pid) : Pid × Act Blk → Option (State Blk Pid)
  | (p, .next) => next B s p
  | (p, .wrote ok last) =>
    match s.proc p with
    | .wr b =>
      if s.dirtylk b ≠ none then none else
      if ¬s.dirty b ∨ ¬s.unlinked b then some (s.goto p .dead) else
      some { s.goto p (.link b .lru last (if ok then .written else .failed)) with
        dirty := Function.update s.dirty b false }
    | _ => none
  | (p, .lru d) =>
    match s.proc p with
    | .scan none => some { s.goto p .idle with lk := Function.update s.lk .lru none }
    | .scan (some b) =>
      match d with
      | .stop => some { s.goto p .idle with lk := Function.update s.lk .lru none }
      | .ignore =>
        if s.dirty b ∨ B.type b ≠ .other then some (s.goto p .dead)
        else some (s.goto p (.scan (s.links.prev b)))
      | .out =>
        if s.dirty b ∨ B.type b ≠ .other then some (s.goto p .dead) else
        if s.hlk (B.bucket b) ≠ none then none else
        some (s.unhash p B b (.reclaim (s.links.prev b)) (.scan (s.links.prev b)))
    | _ => none
  | (p, a) =>
    if s.proc p ≠ .idle then none else
    match a with
    | .mbused b => some (s.touch p B b false)
    | .mbunused b => some (s.touch p B b true)
    | .changed b =>
      if B.type b ≠ .super ∧ s.frozen b then some (s.goto p .dead) else
      if s.dirty b ∨ B.fake b then some s else some (s.goto p (.chg b))
    | .written b =>
      if B.type b = .other ∨ s.dirtylk b ≠ none then none else
      if ¬s.dirty b then some (s.goto p .dead) else
      some { s with dirty := Function.update s.dirty b false }
    | .freeze b => some { s with frozen := Function.update s.frozen b true }
    | .mbhash b =>
      if s.used b ∨ s.hlk (B.bucket b) ≠ none then none else
      match (s.hash (B.bucket b)).find? (B.addr · = B.addr b) with
      | some _ => some (s.goto p .dead)
      | none => some ((s.hash1 B b (s.hash (B.bucket b) ++ [b])).linkblock p B b .hashed .idle)
    | .mbunhash b =>
      if s.hlk (B.bucket b) ≠ none then none else some (s.unhash p B b .unhash .idle)
    | .mbget addr mk =>
      if s.hlk (addr % B.nhash) ≠ none then none else
      match (s.hash (addr % B.nhash)).find? (B.addr · = addr), mk with
      | some b, _ => some (s.goto p (.get b))
      | none, none => some s
      | none, some b =>
        if s.used b ∨ B.addr b ≠ addr then none else
        some ((s.hash1 B b (b :: s.hash (B.bucket b))).linkblock p B b .got (.get b))
    | .writedata =>
      if s.lk .dl ≠ none ∨ s.lk .mdirty ≠ none then none else
      some { s.goto p (.filter (s.ends .mdirty).hd) with
        ends := Function.update s.ends .dl { hd := none, tl := none, n := 0 }
        lk   := Function.update (Function.update s.lk .dl (some p)) .mdirty (some p) }
    | .fslru =>
      if s.lk .lru ≠ none then none else
      some { s.goto p (.scan (s.ends .lru).tl) with lk := Function.update s.lk .lru (some p) }
    | _ => none

-- Nothing is in memory.
def init : State Blk Pid where
  links   := { next := fun _ => none, prev := fun _ => none }
  ends    := fun _ => { hd := none, tl := none, n := 0 }
  hash    := fun _ => []
  dirty   := fun _ => false
  frozen  := fun _ => false
  used    := fun _ => false
  proc    := fun _ => .idle
  lk      := fun _ => none
  hlk     := fun _ => none
  dirtylk := fun _ => none

def machine (Pid : Type*) [DecidableEq Pid] (B : Blocks Blk) :
    Machine (State Blk Pid) (Pid × Act Blk) where
  init s := s = init
  step   := step B

end

end Creepy.Mblk
