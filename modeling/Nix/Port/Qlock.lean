import Nix.Lib.Fifos
import Nix.Lib.Machine
import Mathlib.Data.Fintype.Card

namespace Port.Qlock

inductive PState
  | running | ready | queueing | queueingR | queueingW
deriving DecidableEq, Repr

-- What a process does next.
inductive Pc (P : Type*)
  | idle
  -- it is in `sched`
  | waiting
  -- it has given up a lock to `x`, which it is about to make ready
  | readying (x : P)
deriving DecidableEq

-- The lists that the locks keep of the processes that wait for them.
structure Waiting (P L : Type*) where
  head  : L → Option P
  tail  : L → Option P
  qnext : P → Option P
  state : P → PState
  pc    : P → Pc P

-- Who has been let in, and the order in which it was asked for.
structure Record (L P : Type*) where
  asked   : L → List P
  granted : L → List P

structure State (P Q W : Type*) extends Waiting P (Q ⊕ W), Record (Q ⊕ W) P where
  locked  : Q → Bool
  readers : W → Int
  writer  : W → Int
  panic   : Option String
  -- the processes that have been let in and have not left yet
  holders : Q → List P
  reading : W → List P
  writing : W → List P

inductive Act (P Q W : Type*)
  | qlock (p : P) (q : Q)
  | canqlock (p : P) (q : Q) (busy : Bool)
  | qunlock (p : P) (q : Q)
  | rlock (p : P) (w : W)
  | canrlock (p : P) (w : W)
  | runlock (p : P) (w : W)
  | wlock (p : P) (w : W)
  | wunlock (p : P) (w : W)
  -- the process that gives up a lock makes the next one ready
  | ready (p : P)
  -- a process that has been made ready returns from `sched`
  | resume (p : P)

variable {P L Q W : Type*} [DecidableEq P] [DecidableEq L] [DecidableEq Q] [DecidableEq W]

namespace Waiting

variable (s : Waiting P L) (p : P) (i : L)

def enqueue (st : PState) : Waiting P L where
  head  := Function.update s.head i (if s.tail i = none then some p else s.head i)
  tail  := Function.update s.tail i (some p)
  qnext := Function.update (updateAt s.qnext (s.tail i) (some p)) p none
  state := Function.update s.state p st
  pc    := Function.update s.pc p .waiting

-- The first process of the list, `x`, is taken off by `p`.
def pass (x : P) : Waiting P L :=
  { s with
    head := Function.update s.head i (s.qnext x)
    tail := Function.update s.tail i (if s.qnext x = none then none else s.tail i)
    pc   := Function.update s.pc p (.readying x) }

def ready : Waiting P L :=
  { s with state := Function.update s.state p .ready }

def goto (c : Pc P) : Waiting P L :=
  { s with pc := Function.update s.pc p c }

def run : Waiting P L :=
  { s with
    state := Function.update s.state p .running
    pc    := Function.update s.pc p .idle }

end Waiting

namespace Record

variable (r : Record L P) (p : P) (i : L)

def ask : Record L P :=
  { r with asked := Function.update r.asked i (r.asked i ++ [p]) }

def grant : Record L P :=
  { r with granted := Function.update r.granted i (r.granted i ++ [p]) }

end Record

namespace State

variable (s : State P Q W) (p : P) (q : Q) (w : W)

-- The process has asked for the lock and is let in.
def enter (i : Q ⊕ W) : State P Q W :=
  { s with toRecord := (s.toRecord.ask p i).grant p i }

-- The process has asked for the lock and waits for it.
def wait (i : Q ⊕ W) (st : PState) : State P Q W :=
  { s with toRecord := s.toRecord.ask p i, toWaiting := s.toWaiting.enqueue p i st }

-- The process gives the lock to `x`.
def hand (i : Q ⊕ W) (x : P) : State P Q W :=
  { s with toRecord := s.toRecord.grant x i, toWaiting := s.toWaiting.pass p i x }

def hold : State P Q W :=
  { s with holders := Function.update s.holders q (s.holders q ++ [p]) }

def unhold : State P Q W :=
  { s with holders := Function.update s.holders q ((s.holders q).erase p) }

def read : State P Q W :=
  { s with
    readers := Function.update s.readers w (s.readers w + 1)
    reading := Function.update s.reading w (s.reading w ++ [p]) }

def unread : State P Q W :=
  { s with
    readers := Function.update s.readers w (s.readers w - 1)
    reading := Function.update s.reading w ((s.reading w).erase p) }

def write : State P Q W :=
  { s with writing := Function.update s.writing w (s.writing w ++ [p]) }

def unwrite : State P Q W :=
  { s with writing := Function.update s.writing w ((s.writing w).erase p) }

def setlocked (b : Bool) : State P Q W :=
  { s with locked := Function.update s.locked q b }

def setwriter (n : Int) : State P Q W :=
  { s with writer := Function.update s.writer w n }

def qlock : State P Q W :=
  if s.locked q = false then
    ((s.setlocked q true).enter p (.inl q)).hold p q
  else
    s.wait p (.inl q) .queueing

-- It also gives up when somebody else is at the lock.
def canqlock (busy : Bool) : State P Q W :=
  if busy ∨ s.locked q then s
  else ((s.setlocked q true).enter p (.inl q)).hold p q

def qunlock : State P Q W :=
  match s.head (.inl q) with
  | some x => ((s.unhold p q).hand p (.inl q) x).hold x q
  | none   => (s.unhold p q).setlocked q false

def rlock : State P Q W :=
  if s.writer w = 0 ∧ s.head (.inr w) = none then
    (s.read p w).enter p (.inr w)
  else
    s.wait p (.inr w) .queueingR

def canrlock : State P Q W :=
  if s.writer w = 0 ∧ s.head (.inr w) = none then
    (s.read p w).enter p (.inr w)
  else
    s

def runlock : State P Q W :=
  let s := s.unread p w
  match s.head (.inr w) with
  | none   => s
  | some x =>
    if 0 < s.readers w then s
    else if s.state x ≠ .queueingW then { s with panic := some "runlock" }
    else ((s.hand p (.inr w) x).setwriter w 1).write x w

def wlock : State P Q W :=
  if s.readers w = 0 ∧ s.writer w = 0 then
    ((s.setwriter w 1).enter p (.inr w)).write p w
  else
    s.wait p (.inr w) .queueingW

-- The reader `x` at the head of the list is let in.
def letin (x : P) : State P Q W :=
  { s.read x w with
    toRecord  := s.toRecord.grant x (.inr w)
    toWaiting := { s.toWaiting.ready x with head := Function.update s.head (.inr w) (s.qnext x) } }

-- The readers at the head of the list are let in.
def wake (s : State P Q W) (w : W) : Nat → State P Q W
  | 0     => s
  | n + 1 =>
    match s.head (.inr w) with
    | none   => s
    | some x => if s.state x = .queueingR then (s.letin w x).wake w n else s

-- The tail is set once the readers have gone.
def retail : State P Q W :=
  { s with tail := Function.update s.tail (.inr w) (if s.head (.inr w) = none then none else s.tail (.inr w)) }

-- No more processes wait than there are.
def wunlock [Fintype P] : State P Q W :=
  let s := s.unwrite p w
  match s.head (.inr w) with
  | none   => s.setwriter w 0
  | some x =>
    if s.state x = .queueingW then (s.hand p (.inr w) x).write x w
    else if s.state x ≠ .queueingR then { s with panic := some "wunlock" }
    else ((s.wake w (Fintype.card P)).retail w).setwriter w 0

-- A process calls only while it runs.
def Calls : Prop :=
  s.panic = none ∧ s.pc p = .idle

instance : Decidable (s.Calls p) :=
  inferInstanceAs (Decidable (_ ∧ _))

-- Processes unlock what they hold, and do not lock again for reading what they read.
def step [Fintype P] : Act P Q W → Option (State P Q W)
  | .qlock p q         => if s.Calls p then some (s.qlock p q) else none
  | .canqlock p q busy => if s.Calls p then some (s.canqlock p q busy) else none
  | .qunlock p q       => if s.Calls p ∧ p ∈ s.holders q then some (s.qunlock p q) else none
  | .rlock p w         => if s.Calls p ∧ p ∉ s.reading w then some (s.rlock p w) else none
  | .canrlock p w      => if s.Calls p ∧ p ∉ s.reading w then some (s.canrlock p w) else none
  | .runlock p w       => if s.Calls p ∧ p ∈ s.reading w then some (s.runlock p w) else none
  | .wlock p w         => if s.Calls p then some (s.wlock p w) else none
  | .wunlock p w       => if s.Calls p ∧ p ∈ s.writing w then some (s.wunlock p w) else none
  | .ready p =>
    match s.pc p with
    | .readying x => some { s with toWaiting := (s.toWaiting.ready x).goto p .idle }
    | _           => none
  | .resume p =>
    if s.pc p = .waiting ∧ s.state p = .ready then some { s with toWaiting := s.toWaiting.run p } else none

end State

-- No lock has been taken.
def fresh : State P Q W where
  head _    := none
  tail _    := none
  qnext _   := none
  state _   := .running
  pc _      := .idle
  asked _   := []
  granted _ := []
  locked _  := false
  readers _ := 0
  writer _  := 0
  panic     := none
  holders _ := []
  reading _ := []
  writing _ := []

def machine (P Q W : Type*) [DecidableEq P] [DecidableEq Q] [DecidableEq W] [Fintype P] :
    Machine (State P Q W) (Act P Q W) where
  init s   := s = fresh
  step s a := s.step a

-- The states of a process that waits for a lock.
def PState.Queues : PState → Prop
  | .queueing | .queueingR | .queueingW => True
  | _ => False

instance : DecidablePred PState.Queues
  | .queueing | .queueingR | .queueingW => .isTrue trivial
  | .running | .ready => .isFalse id

-- `l` are the lists that the locks keep.
structure Protocol (s : State P Q W) (l : Q ⊕ W → List P) : Prop where
  lists   : Fifos s.head s.tail s.qnext l
  one     : ∀ q, (s.holders q).length ≤ 1
  apart   : ∀ w, ((s.writing w).length ≤ 1 ∧ s.reading w = []) ∨ s.writing w = []
  readers : ∀ w, s.readers w = (s.reading w).length ∧ (s.reading w).Nodup
  -- everyone is let in in the order in which they asked
  fifo    : ∀ i, s.asked i = s.granted i ++ l i
  -- the readers at the head do not wait once the writer has left
  together : ∀ w, s.writing w = [] → ∀ x ∈ (l (.inr w)).head?, s.state x ≠ .queueingR
  queued  : ∀ x, (∃ i, x ∈ l i) ↔ (s.state x).Queues ∧ ∀ r, s.pc r ≠ .readying x
  panic   : s.panic = none

end Port.Qlock
