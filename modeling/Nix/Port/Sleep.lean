import Nix.Lib.Machine

-- One process that sleeps on one Rendez.
namespace Port.Sleep

inductive PState
  | running | wakeme | ready
deriving DecidableEq, Repr

-- Who holds a lock: the process, one that calls `wakeup` or one that calls `postnote`.
inductive Agent (W N : Type*)
  | up
  | waker (w : W)
  | poster (n : N)
deriving DecidableEq

-- What the process does next.
inductive SleepPc
  | run
  -- it takes the lock of the Rendez, and then its own
  | lockr
  | lockp
  -- it holds both
  | test
  | note
  | commit
  | backout
  -- it gives its own lock up, and then that of the Rendez
  | unlockp (slept : Bool)
  | unlockr (slept : Bool)
  | asleep
  | awake
deriving DecidableEq, Repr

inductive WakePc
  | idle
  | called
  -- it holds the lock of the Rendez
  | locked
  -- it holds both
  | both
  | unlockp
  | unlockr
deriving DecidableEq, Repr

inductive NotePc
  | idle
  | posted
  -- it holds the process' lock
  | locked
  -- it holds both
  | both
  | unlockp
deriving DecidableEq, Repr

structure State (W N : Type*) where
  -- the lock of the Rendez, and the process' `rlock`
  lock  : Option (Agent W N)
  rlock : Option (Agent W N)
  -- whether `r->p` is the process, and `p->r` the Rendez
  rp : Bool
  pr : Bool
  state : PState
  -- what `f` returns
  cond : Bool
  notepending : Bool
  pc    : SleepPc
  wpc   : W → WakePc
  npc   : N → NotePc
  panic : Option String

inductive Act (W N : Type*)
  -- the next step of the process
  | up
  -- the process handles its notes, or somebody else reads them
  | clearnote
  -- what the process waits for is used up
  | unmake
  -- `wakeup` is called, after what the process waits for has been made true, or not
  | wakeup (w : W) (make : Bool)
  | waker (w : W)
  -- `postnote` is called
  | postnote (n : N)
  | poster (n : N)

variable {W N : Type*} [DecidableEq W] [DecidableEq N]

namespace State

variable (s : State W N) (w : W) (n : N)

def wgoto (c : WakePc) : State W N :=
  { s with wpc := Function.update s.wpc w c }

def ngoto (c : NotePc) : State W N :=
  { s with npc := Function.update s.npc n c }

-- `ready`, once the two do not refer to each other any more.
def part : State W N :=
  { s with rp := false, pr := false, state := .ready }

def sleep : Option (State W N) :=
  match s.pc with
  | .run => some { s with pc := .lockr }
  | .lockr => if s.lock = none then some { s with lock := some .up, pc := .lockp } else none
  | .lockp => if s.rlock = none then some { s with rlock := some .up, rp := true, pc := .test } else none
  | .test => some { s with pc := if s.cond then .backout else .note }
  | .note => some { s with pc := if s.notepending then .backout else .commit }
  | .commit => some { s with state := .wakeme, pr := true, pc := .unlockp true }
  | .backout => some { s with rp := false, pc := .unlockp false }
  | .unlockp slept => some { s with rlock := none, pc := .unlockr slept }
  | .unlockr slept => some { s with lock := none, pc := if slept then .asleep else .awake }
  | .asleep => if s.state = .ready then some { s with state := .running, pc := .awake } else none
  -- `error(Eintr)` if a note is pending
  | .awake => some { s with notepending := false, pc := .run }

def wakeup : Option (State W N) :=
  match s.wpc w with
  | .idle => none
  | .called => if s.lock = none then some ({ s with lock := some (.waker w) }.wgoto w .locked) else none
  | .locked =>
    if s.rp = false then some (s.wgoto w .unlockr)
    else if s.rlock = none then some ({ s with rlock := some (.waker w) }.wgoto w .both)
    else none
  | .both =>
    if s.state ≠ .wakeme ∨ s.pr = false then some { s with panic := some "wakeup: state" }
    else some (s.part.wgoto w .unlockp)
  | .unlockp => some ({ s with rlock := none }.wgoto w .unlockr)
  | .unlockr => some ({ s with lock := none }.wgoto w .idle)

-- Where it does not get the second lock it gives up the first one and tries again.
def postnote : Option (State W N) :=
  match s.npc n with
  | .idle => none
  | .posted => if s.rlock = none then some ({ s with rlock := some (.poster n) }.ngoto n .locked) else none
  | .locked =>
    if s.pr = false then some (s.ngoto n .unlockp)
    else if s.lock = none then some ({ s with lock := some (.poster n) }.ngoto n .both)
    else some ({ s with rlock := none }.ngoto n .posted)
  | .both =>
    if s.state ≠ .wakeme ∨ s.rp = false then some { s with panic := some "postnote: state" }
    else some ({ s.part with lock := none }.ngoto n .unlockp)
  | .unlockp => some ({ s with rlock := none }.ngoto n .idle)

def step : Act W N → Option (State W N)
  | .up            => s.sleep
  | .clearnote     => some { s with notepending := false }
  | .unmake        => some { s with cond := false }
  | .wakeup w make => if s.wpc w = .idle then some ({ s with cond := s.cond || make }.wgoto w .called) else none
  | .waker w       => s.wakeup w
  | .postnote n    => if s.npc n = .idle then some ({ s with notepending := true }.ngoto n .posted) else none
  | .poster n      => s.postnote n

end State

-- The process runs, and nobody is at the Rendez.
structure Begins (s : State W N) : Prop where
  lock  : s.lock = none
  rlock : s.rlock = none
  rp    : s.rp = false
  pr    : s.pr = false
  state : s.state = .running
  pc    : s.pc = .run
  wpc   : ∀ w, s.wpc w = .idle
  npc   : ∀ n, s.npc n = .idle
  panic : s.panic = none

def machine (W N : Type*) [DecidableEq W] [DecidableEq N] : Machine (State W N) (Act W N) where
  init := Begins
  step := State.step

-- Nobody is in `wakeup` or in `postnote`, and the process runs or is in `sched`.
structure Quiet (s : State W N) : Prop where
  pc  : s.pc = .run ∨ s.pc = .asleep
  wpc : ∀ w, s.wpc w = .idle
  npc : ∀ n, s.npc n = .idle

structure Rendezvous (s : State W N) : Prop where
  woken  : Quiet s → s.state = .wakeme → s.cond = false ∧ s.notepending = false
  linked : s.lock = none → s.rlock = none → s.rp = s.pr
  panic  : s.panic = none

end Port.Sleep
