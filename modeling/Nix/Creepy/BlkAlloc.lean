import Nix.Lib.Machine
import Nix.Lib.Chain
import Nix.Creepy.Dk

-- The allocation and the release of disk blocks by any number of processes. A step is what a
-- process does while it holds a lock, so steps of different processes come in any order.
namespace Creepy.BlkAlloc

structure Super where
  -- first free block on list
  free   : Nat
  -- end of the assigned disk portion
  eaddr  : Nat
  ndfree : Nat

-- Where a process is. A `dbput` made by another one, for a block that the first block points to,
-- counts as a process of its own.
inductive Proc
  | idle
  -- in `newblkaddr`, before and after the link of `addr` is fetched
  | fetching (addr : Nat)
  | fetched (addr naddr : Nat)
  -- in `dballoc`, after `newblkaddr` returned `addr`
  | fresh (addr : Nat)
  -- in `dbput`, before the reference is dropped, and after the last one was
  | putting (addr : Nat)
  | freeing (addr : Nat)
  -- has called `fatal`
  | dead
  deriving DecidableEq

-- What has become of an address.
inductive Status
  | never | fresh | live | dying | freed
  deriving DecidableEq

structure State (Pid : Type*) where
  super  : Super
  -- the entry of each reference block at each index: a counter, or the next block in the free list
  ref    : Nat × Nat → Nat
  proc   : Pid → Proc
  -- The code keeps no record of these two: what has become of each address, and how many of the
  -- references counted for it have yet to be dropped.
  status : Nat → Status
  held   : Nat → Nat

variable {Pid : Type*} [DecidableEq Pid]

-- Allocated earlier and not freed since.
def State.allocated (s : State Pid) (addr : Nat) : Prop :=
  s.status addr = .fresh ∨ s.status addr = .live ∨ s.status addr = .dying

def State.goto (s : State Pid) (p : Pid) (c : Proc) : State Pid :=
  { s with proc := Function.update s.proc p c }

def okaddr (limit addr : Nat) : Bool :=
  Dblksz ≤ addr ∧ addr < limit

-- `newblkaddr` returns `addr`, having left `super` and `ref`.
def State.take (s : State Pid) (limit : Nat) (p : Pid) (addr : Nat) : State Pid :=
  if okaddr limit addr then
    { s.goto p (.fresh addr) with status := Function.update s.status addr .fresh }
  else
    s.goto p .dead

-- `eaddr` moves past a block.
def State.extend (s : State Pid) : State Pid :=
  { s with super.eaddr := s.super.eaddr + Dblksz }

-- `eaddr` moves past a block and the two reference blocks before it, which are cleared.
def State.extendgroup (s : State Pid) : State Pid :=
  { s with
    super.eaddr := s.super.eaddr + Dblksz + 2 * Dblksz
    ref := fun r => if r.fst = s.super.eaddr then 0 else s.ref r }

-- `newblkaddr` from `Again` until the lock is released. Whether `dbclear` can write the reference
-- blocks is told by `cleared`.
def State.again (s : State Pid) (limit : Nat) (p : Pid) (cleared : Bool) : State Pid :=
  if s.super.free ≠ 0 then
    s.goto p (if okaddr limit s.super.free then .fetching s.super.free else .dead)
  else if s.super.eaddr < limit then
    if newgroup s.super.eaddr then
      if cleared then s.extendgroup.take limit p (s.super.eaddr + 2 * Dblksz)
      else s.extend.goto p .idle
    else s.extend.take limit p s.super.eaddr
  else s.goto p .dead

inductive Act
  | newblkaddr (cleared : Bool)
  | getref
  | relock (cleared : Bool)
  | setref
  | incref (addr : Nat)
  | dbput (addr : Nat)
  | decref
  | link
  -- An error is raised where the code can raise one.
  | error
  deriving DecidableEq

-- References are added and dropped by those who hold one.
def step (limit : Nat) (s : State Pid) : Pid × Act → Option (State Pid)
  | (p, .newblkaddr cleared) =>
    match s.proc p with
    | .idle => some (s.again limit p cleared)
    | _ => none
  | (p, .getref) =>
    match s.proc p with
    | .fetching addr =>
      let naddr := s.ref (refaddr addr)
      some (s.goto p (if naddr = 0 ∨ okaddr limit naddr then .fetched addr naddr else .dead))
    | _ => none
  | (p, .relock cleared) =>
    match s.proc p with
    | .fetched addr naddr =>
      if addr ≠ s.super.free then
        some (s.again limit p cleared)
      else
        let s := { s with super.free := naddr, super.ndfree := s.super.ndfree - 1 }
        some (s.take limit p addr)
    | _ => none
  | (p, .setref) =>
    match s.proc p with
    | .fresh addr =>
      some { s.goto p .idle with
        ref    := Function.update s.ref (refaddr addr) 1
        status := Function.update s.status addr .live
        held   := Function.update s.held addr 1 }
    | _ => none
  | (p, .incref addr) =>
    if s.proc p = .idle ∧ 0 < s.held addr then
      some { s with
        ref  := Function.update s.ref (refaddr addr) (s.ref (refaddr addr) + 1)
        held := Function.update s.held addr (s.held addr + 1) }
    else none
  | (p, .dbput addr) =>
    if s.proc p = .idle ∧ 0 < s.held addr then
      let ok := okaddr limit addr ∧ s.ref (refaddr addr) ≤ 2 * Dblksz
      some (s.goto p (if ok then .putting addr else .dead))
    else none
  | (p, .decref) =>
    match s.proc p with
    | .putting addr =>
      if 0 < s.held addr then
        let ref := s.ref (refaddr addr) - 1
        let s := { s with
          ref  := Function.update s.ref (refaddr addr) ref
          held := Function.update s.held addr (s.held addr - 1) }
        if ref ≠ 0 then some (s.goto p .idle)
        else some { s.goto p (.freeing addr) with status := Function.update s.status addr .dying }
      else none
    | _ => none
  | (p, .link) =>
    match s.proc p with
    | .freeing addr =>
      some { s.goto p .idle with
        ref          := Function.update s.ref (refaddr addr) s.super.free
        super.free   := addr
        super.ndfree := s.super.ndfree + 1
        status       := Function.update s.status addr .freed }
    | _ => none
  | (p, .error) =>
    match s.proc p with
    | .fetching _ | .fresh _ | .putting _ | .freeing _ => some (s.goto p .idle)
    | _ => none

-- As `fsfmt` leaves the super block.
def fmt (ref : Nat × Nat → Nat) : State Pid where
  super  := { free := 0, eaddr := Dblk0addr, ndfree := 0 }
  ref    := ref
  proc   := fun _ => .idle
  status := fun _ => .never
  held   := fun _ => 0

def machine (Pid : Type*) [DecidableEq Pid] (limit : Nat) : Machine (State Pid) (Pid × Act) where
  init s := ∃ ref, s = fmt ref
  step   := step limit

end Creepy.BlkAlloc
