import Nix.Lib.Words
import Nix.Port.Runq
import Mathlib.Data.List.Sort

-- The scheduler of the processes that have deadlines. The times are the low 32 bits of a time in µs. What is done
-- under `thelock` and the lock of the scheduler is one step.
namespace Port.EdfSched

open Runq (PState)

inductive Tf
  | releaseintr | deadlineintr
deriving DecidableEq, Repr

structure Edf where
  D : Int
  T : Int
  C : Int
  S : Int
  r : Int
  d : Int
  t : Int
  -- the time at which it was last scheduled
  s : Int
  admitted     : Bool
  sporadic     : Bool
  yieldonblock : Bool
  yield        : Bool
  extratime    : Bool
  -- whether the timer is on, and its function
  tt : Bool
  tf : Option Tf
deriving DecidableEq, Repr

-- Where a core is with a process.
inductive Mach
  -- it runs on none, and its state is saved
  | none
  -- it is `up`
  | up
  -- in `schedinit`, after `edfrecord`, and before its state is saved
  | recorded
  | left
deriving DecidableEq, Repr

structure Proc where
  state    : PState
  edf      : Option Edf
  -- whether `priority` is `PriEdf`
  priedf   : Bool
  mach     : Mach
  -- whether its own timer is on, to call `releaseintr`
  tt       : Bool
deriving DecidableEq, Repr

structure State (P : Type*) where
  -- what the clock shows
  clock : Int
  proc  : P → Proc
  -- the processes on `runq[PriEdf]`
  edfq  : List P
  -- and those on the other queues
  runq  : List P

inductive Param
  | T (n : Int) | D (n : Int) | C (n : Int) | sporadic | extratime
deriving DecidableEq, Repr

inductive Act (P : Type*)
  | tick (n : Nat)
  | ready (p : P)
  -- a timer goes off, the process's own or that of its `Edf`. `busy` tells whether somebody else has the scheduler locked
  | releaseintr (p : P) (own busy : Bool)
  | deadlineintr (p : P)
  -- `runproc` takes a process off a queue, core 0 for another core if `amp`
  | runproc (p : P) (busy amp : Bool)
  | go (p : P)
  -- the running process changes its state, or gives the processor up
  | setstate (p : P) (st : PState)
  | edfrecord (p : P)
  | schedinit (p : P)
  | save (p : P)
  | edfyield (p : P)
  | edfinit (p : P)
  -- `up` tells whether the process asks for it itself, `sync` is the process to synchronize to
  | edfadmit (p : P) (up ok busy : Bool) (sync : Option P)
  | edfstop (p : P)
  | procctl (p : P) (x : Param)

namespace Edf

variable (e : Edf) (now : Int)

-- Non sporadic processes stay true to their period.
def next : Edf :=
  let n := int32 (now - e.t)
  if 0 < n then
    { e with t := if n < e.T then int32 (e.t + e.T) else int32 (now + e.T - n.tmod e.T) }
  else e

def release : Edf :=
  let e := { e with yield := false }
  if int32 (e.d - now) < 0 then
    let e := { e with r := now }
    let e := if e.sporadic then { e with t := int32 (e.r + e.T) } else e.next now
    { e with d := int32 (e.r + e.D), S := e.C }
  else e

def record : Edf :=
  let used := int32 (now - e.s)
  let e := if 0 < e.S then
    if e.S ≤ used then { e with d := now, S := 0 } else { e with S := int32 (e.S - used) }
  else e
  { e with s := now }

-- The timer for the deadline is started.
def run (edfpri : Bool) : Edf :=
  if edfpri ∧ ¬(int32 (e.d - now) ≤ 0 ∨ e.S = 0) then
    { e with tt := true, tf := some .deadlineintr, s := now }
  else { e with s := now }

def stop : Edf :=
  { e with admitted := false, tt := false }

def set : Param → Edf
  | .T n       => { e.stop with T := n }
  | .D n       => { e.stop with D := n }
  | .C n       => { e.stop with C := n }
  | .sporadic  => { e with sporadic := true }
  | .extratime => { e with extratime := true }

end Edf

-- What becomes of a process that `edfready` is called for.
inductive Ready
  -- it runs on best effort
  | other
  -- it waits for its release
  | wait
  -- it is put on the queue
  | queue
deriving DecidableEq

namespace Proc

variable (x : Proc) (now : Int)

def edflock : Option Edf :=
  x.edf.filter (·.admitted)

def edfready : Proc × Ready :=
  match x.edflock with
  | none => (x, .other)
  | some e =>
    if int32 (e.d - now) ≤ 0 then
      let e := if e.sporadic then e else e.next now
      if int32 (now - e.t) < 0 then
        let e := if ¬e.tt ∨ e.tf ≠ some .releaseintr then { e with tt := true, tf := some .releaseintr } else e
        if x.state = .running ∧ ¬(e.yield ∨ e.yieldonblock) ∧ e.extratime then
          ({ x with edf := some e }, .other)
        else
          ({ x with edf := some e, state := .waitrelease }, .wait)
      else
        ({ x with edf := some (e.release now) }, .queue)
    else
      (x, .queue)

end Proc

section
variable {P : Type*} [DecidableEq P] (s : State P) (p : P)

namespace State

def now : Int := int32 s.clock

-- The deadline of a process.
def d : Int :=
  (s.proc p).edf.elim 0 Edf.d

def setproc (x : Proc) : State P :=
  { s with proc := Function.update s.proc p x }

def setedf (e : Edf) : State P :=
  s.setproc p { s.proc p with edf := some e }

-- The process is inserted before the first one whose deadline is greater.
def insert : State P :=
  { s with edfq := s.edfq.orderedInsert (fun p pp => s.d p < s.d pp) p }.setproc p
    { s.proc p with priedf := true, state := .ready }

def queueproc : State P :=
  { s with runq := s.runq ++ [p] }.setproc p { s.proc p with priedf := false, state := .ready }

def schedready : State P :=
  match (s.proc p).edfready s.now with
  | (x, .other) => (s.setproc p x).queueproc p
  | (x, .wait)  => s.setproc p x
  | (x, .queue) => (s.setproc p x).insert p

-- It gives up where somebody else has the lock, the process is not there, or its state is not saved yet.
def dequeueproc (edf busy : Bool) : Option (State P) :=
  if busy ∨ (s.proc p).mach ≠ .none then none
  else if edf then
    if p ∈ s.edfq then some { s with edfq := s.edfq.erase p } else none
  else
    if p ∈ s.runq then some { s with runq := s.runq.erase p } else none

def release : State P :=
  match (s.proc p).edf with
  | some e => s.setedf p (e.release s.now)
  | none   => s

def edfrun (edfpri : Bool) : State P :=
  match (s.proc p).edflock with
  | some e => s.setedf p (e.run s.now edfpri)
  | none   => s

-- `releaseintr`, up to where the process is made ready, and whether it is. One that is woken up is made ready in
-- another step.
def releasing (busy : Bool) : State P × Bool :=
  match (s.proc p).edflock with
  | none   => (s, false)
  | some _ =>
    match (s.proc p).state with
    | .ready =>
      match s.dequeueproc p (s.proc p).priedf busy with
      | none   => (s.release p, false)
      | some s => ((s.setproc p { s.proc p with state := .waitrelease }).release p, true)
    | .waitrelease => (s.release p, true)
    | .running     => ((s.release p).edfrun p true, false)
    | .wakeme      => (s.release p, false)
    | _            => (s, false)

def releaseintr (busy : Bool) : State P :=
  match s.releasing p busy with
  | (s, true)  => s.schedready p
  | (s, false) => s

-- The timer that goes off is not on any more.
def expire (own : Bool) (tf : Tf) : Option (State P) :=
  if own then
    if (s.proc p).tt ∧ tf = .releaseintr then some (s.setproc p { s.proc p with tt := false }) else none
  else
    match (s.proc p).edf with
    | some e => if e.tt ∧ e.tf = some tf then some (s.setedf p { e with tt := false }) else none
    | none   => none

def runproc (busy amp : Bool) : State P :=
  let edf := p ∈ s.edfq
  match s.dequeueproc p edf busy with
  | none   => s
  | some s => (s.setproc p { s.proc p with state := .scheding }).edfrun p (edf ∧ !amp)

-- The last the core does with the process that it ran.
def schedinit : State P :=
  let s := s.setproc p { s.proc p with mach := .left }
  match (s.proc p).state with
  | .running  => s.schedready p
  | .moribund => s.setproc p { s.proc p with state := .dead, edf := none }
  | _         => s

def edfrecord : State P :=
  match (s.proc p).edflock with
  | some e => s.setedf p (e.record s.now)
  | none   => s

def edfyield : State P :=
  match (s.proc p).edflock with
  | some e =>
    let e := e.next s.now
    s.setproc p { s.proc p with edf := some { e with r := e.t, yield := true, d := s.now }, tt := true }
  | none   => s

def edfinit : State P :=
  s.setedf p {
    D := 0
    T := 0
    C := 0
    S := 0
    r := 0
    d := 0
    t := 0
    s := 0
    admitted     := false
    sporadic     := false
    yieldonblock := false
    yield        := false
    extratime    := false
    tt := false
    tf := none }

def edfstop : State P :=
  match (s.proc p).edflock with
  | some e => s.setedf p e.stop
  | none   => s

-- `edfadmit`, up to where the process is released when another one asks for it, and whether it is then. `ok` tells
-- whether the test is passed.
def admitting (up ok : Bool) (sync : Option P) : Option (State P × Bool) :=
  match (s.proc p).edf with
  | none   => none
  | some e =>
    if e.admitted ∨ e.T = 0 ∨ e.C = 0 ∨ e.T < e.D then some (s, false)
    else
      let e := { e with D := if e.D = 0 then e.T else e.D }
      if e.D < e.C ∨ !ok then some (s.setedf p e, false)
      else
        let e := { e with admitted := true }
        match sync with
        | none =>
          let s := (s.setedf p { e with t := s.now, d := 0 }).release p
          some <| if up then (s.edfrun p true, false) else (s, true)
        | some r =>
          match (s.proc r).edflock with
          | some x =>
            if r = p ∨ x.T ≠ e.T then none
            else
              let e := { e with t := x.t }
              some (s.setedf p (if !up ∧ !e.tt then { e with tt := true, tf := some .releaseintr } else e), false)
          | none => none

def edfadmit (up ok busy : Bool) (sync : Option P) : Option (State P) :=
  (s.admitting p up ok sync).map fun
    | (s, true)  => s.releaseintr p busy
    | (s, false) => s

def procctl (x : Param) : State P :=
  match (s.proc p).edf with
  | some e => s.setedf p (e.set x)
  | none   => s

end State

-- A process that is `up` on a core.
def running : Bool :=
  (s.proc p).mach = .up

def step : Act P → Option (State P)
  | .tick n                 => some { s with clock := s.clock + n }
  | .ready p                => some (s.schedready p)
  | .releaseintr p own busy => (s.expire p own .releaseintr).map (·.releaseintr p busy)
  | .deadlineintr p         => s.expire p false .deadlineintr
  | .runproc p busy amp     => if p ∈ s.edfq ∨ p ∈ s.runq then some (s.runproc p busy amp) else none
  | .go p                   =>
    if (s.proc p).state = .scheding then some (s.setproc p { s.proc p with state := .running, mach := .up }) else none
  | .setstate p st          =>
    if running s p ∧ (s.proc p).state = .running ∧ st ≠ .ready then some (s.setproc p { s.proc p with state := st })
    else none
  | .edfrecord p            =>
    if running s p then
      let s := s.edfrecord p
      some (s.setproc p { s.proc p with mach := .recorded })
    else none
  | .schedinit p            => if (s.proc p).mach = .recorded then some (s.schedinit p) else none
  | .save p                 =>
    if (s.proc p).mach = .left then some (s.setproc p { s.proc p with mach := .none }) else none
  | .edfyield p             =>
    if running s p ∧ (s.proc p).state = .running then some (s.edfyield p) else none
  | .edfinit p              => if (s.proc p).edf = none then some (s.edfinit p) else none
  | Act.edfadmit p up ok busy sync =>
    if up → running s p ∧ (s.proc p).state = .running then State.edfadmit s p up ok busy sync else none
  | .edfstop p              => some (s.edfstop p)
  | .procctl p x            => some (s.procctl p x)

end

-- No process has anything to do with deadlines at the start.
def machine (P : Type*) [DecidableEq P] : Machine (State P) (Act P) where
  init s := s.clock = 0 ∧ s.edfq = [] ∧ s.runq = [] ∧
    ∀ p, (s.proc p).edf = none ∧ (s.proc p).state ≠ .ready ∧ (s.proc p).tt = false
  step   := step

end Port.EdfSched
