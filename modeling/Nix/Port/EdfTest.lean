import Nix.Lib.Demand

namespace Port.EdfTest

inductive Fault
  -- an intermediate value is none of a `long`
  | overflow
  -- a nil pointer is used
  | nil
deriving DecidableEq, Repr

def long (n : Int) : Except Fault Int :=
  if -2 ^ 31 ≤ n ∧ n < 2 ^ 31 then .ok n else .error .overflow

structure Edf extends RtTask where
  -- `flags & Admitted`
  admitted : Bool
deriving DecidableEq, Repr

structure Proc where
  pid  : Nat
  -- whether the state is `Dead`
  dead : Bool
  edf  : Option Edf
deriving DecidableEq, Repr

inductive Testtype
  | Dl | Rl
deriving DecidableEq, Repr

-- What the test has of a process, the next of its events.
structure Test extends RtTask where
  testtype : Testtype
  testtime : Int
deriving DecidableEq, Repr

def Maxsteps : Nat := 200 * 100 * 2

-- `Dl < Rl`
def Testtype.lt : Testtype → Testtype → Bool
  | .Dl, .Rl => true
  | _, _     => false

def testenq (e : Test) : List Test → Except Fault (List Test)
  | [] => .ok [e]
  | x :: l => do
    let diff ← long (e.testtime - x.testtime)
    if diff < 0 ∨ (e.testtime = x.testtime ∧ e.testtype.lt x.testtype) then .ok (e :: x :: l)
    else return x :: (← testenq e l)

-- The first loop of `testschedulability`, which puts the processes on the queue.
def enqueue (theproc : Nat) : List Proc → List Test → Except Fault (List Test)
  | [], q => .ok q
  | p :: procs, q =>
    if p.dead then enqueue theproc procs q
    else if (p.edf.elim true fun e => !e.admitted) ∧ p.pid ≠ theproc then enqueue theproc procs q
    else match p.edf with
      | none   => .error .nil
      | some e => do enqueue theproc procs (← testenq { e with testtype := .Rl, testtime := 0 } q)

-- The second loop, with the steps that it has left.
def simulate : Nat → List Test → Int → Int → Except Fault (Option String)
  | 0, _, _, _ => .ok (some "probably not schedulable")
  | _ + 1, [], _, _ => .error .nil
  | steps + 1, p :: q, H, G =>
    let ticks := p.testtime
    match p.testtype with
    | .Dl => do
      let H ← long (H + p.C)
      if H > ticks then .ok (some "not schedulable")
      else
        let slack ← long (p.T - p.D)
        let testtime ← long (ticks + slack)
        let q ← testenq { p with testtype := .Rl, testtime := testtime } q
        simulate steps q H G
    | .Rl =>
      if ticks ≠ 0 ∧ G ≤ ticks then .ok none
      else do
        let G ← long (G + p.C)
        let testtime ← long (ticks + p.D)
        let q ← testenq { p with testtype := .Dl, testtime := testtime } q
        simulate steps q H G

def testschedulability (procs : List Proc) (theproc : Nat) : Except Fault (Option String) := do
  let q ← enqueue theproc procs []
  simulate Maxsteps q 0 0

-- The processes that the test is about.
def tested (procs : List Proc) (theproc : Nat) : List RtTask :=
  procs.filterMap fun p =>
    if p.dead then none
    else (p.edf.filter fun e => e.admitted ∨ p.pid = theproc).map Edf.toRtTask

-- What `edfadmit` does to the parameters before the test, and the error it ends with.
def sanity (e : Edf) : Edf × Option String :=
  if e.admitted then (e, some "task state")
  else if e.T = 0 then (e, some "T not set")
  else if e.C = 0 then (e, some "C not set")
  else if e.D > e.T then (e, some "D > T")
  else
    let e := if e.D = 0 then { e with D := e.T } else e
    (e, if e.C > e.D then some "C > D" else none)

def update (procs : List Proc) (theproc : Nat) (f : Proc → Proc) : List Proc :=
  procs.map fun p => if p.pid = theproc then f p else p

def setEdf (procs : List Proc) (theproc : Nat) (e : Edf) : List Proc :=
  update procs theproc fun p => { p with edf := some e }

-- `edfadmit`, up to where the process is admitted. `e` is what the process has.
def edfadmit (procs : List Proc) (theproc : Nat) (e : Edf) : Except Fault (List Proc × Option String) :=
  match sanity e with
  | (_, some err) =>
    .ok (update procs theproc fun p => { p with edf := p.edf.map fun e => (sanity e).fst }, some err)
  | (e, none)     => do
    match ← testschedulability (setEdf procs theproc e) theproc with
    | some err => .ok (setEdf procs theproc e, some err)
    | none     => .ok (setEdf procs theproc { e with admitted := true }, none)

end Port.EdfTest
