import Nix.Port.Syssem

-- How the processes that wait on semaphores are made ready. The integers are the user's, and may be changed
-- at any time.
namespace Port.Semready

open Port.Sem (unqueue)

inductive PState
  | running | ready | semdown
deriving DecidableEq, Repr

-- What is next after `semwakeup`: its caller returns, or is in the last loop of `semalt`.
inductive Cont (X : Type*)
  | user
  | semalt (ss : List X) (i j : Nat) (r : Int)
deriving DecidableEq

-- What is next after `sched`.
inductive Slept (X : Type*)
  | semsleep (x : X)
  | semalt (ss : List X) (i : Nat)
deriving DecidableEq

inductive Pc (P X : Type*)
  | idle
  -- `semwakeup`, before it has the lock, at the condition of its loop, in its loop, and before it calls `ready`
  | wakelock (x : X) (c : Cont X)
  | wakeup (x : X) (didwake : Bool) (c : Cont X)
  | wake (x : X) (didwake : Bool) (c : Cont X)
  | readying (x : X) (y : P) (c : Cont X)
  -- `semsleep`
  | undo (x : X)
  | sleeplock (x : X)
  | sleep (x : X)
  | queue (x : X)
  | done (x : X)
  | killedlock (x : X)
  | killed (x : X)
  -- `semalt`
  | altdec (ss : List X) (i : Nat)
  | altlock (ss : List X) (i : Nat) (n : Int)
  | altqueue (ss : List X) (i : Nat) (n : Int)
  | altdown (ss : List X) (i : Nat)
  | altdone (ss : List X) (i j : Nat) (r : Int)
  | dequeuelock (ss : List X) (i j : Nat) (r : Int)
  | dequeue (ss : List X) (i j : Nat) (r : Int)
  -- it calls `sched`, and has given the processor up
  | sched (k : Slept X)
  | gone (k : Slept X)
  | panic
deriving DecidableEq

-- `postnote`, before it looks at the state of `y`, and before it calls `ready`.
inductive NotePc (P : Type*)
  | idle
  | test (y : P)
  | readying (y : P)
deriving DecidableEq

variable {P X N : Type*}

-- For whom they are about to call `ready`.
def Pc.readying? : Pc P X → Option P
  | .readying _ y _ => some y
  | _ => none

def NotePc.readying? : NotePc P → Option P
  | .readying y => some y
  | _ => none

structure Sems (P X : Type*) where
  np      : X → Int
  q       : X → List P
  lock    : X → Option P
  waitsem : P → Option X

structure State (P X N : Type*) extends Sems P X where
  state : P → PState
  -- how often the process is on the run queue, and was made ready since it last set its state to Semdown
  runq    : P → Nat
  readies : P → Nat
  pc      : P → Pc P X
  npc     : N → NotePc P

inductive Act (P X N : Type*)
  | store (x : X) (n : Int)
  | semwakeup (p : P) (x : X)
  | semsleep (p : P) (x : X) (dontblock : Bool)
  | semalt (p : P) (ss : List X)
  -- the next step of a process
  | run (p : P)
  | postnote (n : N) (y : P)
  | poster (n : N)

variable [DecidableEq P] [DecidableEq X] [DecidableEq N]

namespace Sems

variable (s : Sems P X) (p : P) (x : X)

def add (n : Int) : Sems P X :=
  { s with np := Function.update s.np x (s.np x + n) }

def release : Sems P X :=
  { s with lock := Function.update s.lock x none }

def setq (l : List P) : Sems P X :=
  { s with q := Function.update s.q x l }

def setwaitsem (x : Option X) : Sems P X :=
  { s with waitsem := Function.update s.waitsem p x }

end Sems

-- The bound of the loop in `semalt` is what the integer was left with.
def afterqueue (ss : List X) (i : Nat) (n : Int) : Pc P X :=
  if ((i + 1 : Nat) : Int) < n then .altdec ss (i + 1) else .altdown ss (i + 1)

def Cont.next : Cont X → Pc P X
  | .user            => .idle
  | .semalt ss i j r => .altdone ss i (j + 1) r

def Slept.next : Slept X → Pc P X
  | .semsleep x   => .done x
  | .semalt ss i  => .altdone ss i 0 (-1)

namespace State

variable (s : State P X N) (p y : P) (x : X) (n : N)

-- The process goes on, and the semaphores are `t`.
def goto (t : Sems P X) (c : Pc P X) : State P X N :=
  { s with toSems := t, pc := Function.update s.pc p c }

def ngoto (c : NotePc P) : State P X N :=
  { s with npc := Function.update s.npc n c }

def acquire (c : Pc P X) : Option (State P X N) :=
  if s.lock x = none then some (s.goto p { s.toSems with lock := Function.update s.lock x (some p) } c) else none

def ready : State P X N :=
  { s with
    state   := Function.update s.state y .ready
    runq    := Function.update s.runq y (s.runq y + 1)
    readies := Function.update s.readies y (s.readies y + 1) }

-- The process sets its state to Semdown, and calls `sched`.
def semdown (t : Sems P X) (k : Slept X) : State P X N :=
  { s.goto p t (.sched k) with
    state   := Function.update s.state p .semdown
    readies := Function.update s.readies p 0 }

-- The process is taken off the run queue.
def dispatch (k : Slept X) : Option (State P X N) :=
  if 0 < s.runq p then
    some
      { s.goto p s.toSems k.next with
        state := Function.update s.state p .running
        runq  := Function.update s.runq p (s.runq p - 1) }
  else
    none

def wakeup (didwake : Bool) (c : Cont X) : State P X N :=
  if 0 < (s.q x).length ∧ -s.np x < (s.q x).length then s.goto p s.toSems (.wake x didwake c)
  else s.goto p (s.release x) c.next

def wake (didwake : Bool) (c : Cont X) : Option (State P X N) :=
  match s.q x with
  | [] => none
  | q₀ :: _ =>
    let t := s.setq x (unqueue (s.q x) 0)
    if didwake = false then some (s.goto p t (.wakeup x didwake c))
    else if q₀ = p then some (s.goto p (t.setwaitsem q₀ (some x)) (.wakeup x didwake c))
    else some (s.goto p (t.setwaitsem q₀ (some x)) (.readying x q₀ c))

def altdec (ss : List X) (i : Nat) : State P X N :=
  let t := s.add x (-1)
  s.goto p t <| if t.np x ≥ 0 then .altdone ss i 0 i else .altlock ss i (t.np x)

def dequeue (ss : List X) (i j : Nat) (r : Int) : State P X N :=
  if p ∈ s.q x then
    s.goto p ((s.setq x (unqueue (s.q x) ((s.q x).idxOf p))).release x) (.altdone ss i (j + 1) r)
  else
    s.goto p (s.add x 1) (.wakeup x false (.semalt ss i j r))

def run : Option (State P X N) :=
  match s.pc p with
  | .idle | .panic => none
  | .wakelock x c => s.acquire p x (.wakeup x true c)
  | .wakeup x didwake c => some (s.wakeup p x didwake c)
  | .wake x didwake c => s.wake p x didwake c
  | .readying x y c => some ((s.goto p s.toSems (.wakeup x true c)).ready y)
  | .undo x => some (s.goto p (s.add x 1) (.wakelock x .user))
  | .sleeplock x => s.acquire p x (.sleep x)
  | .sleep x =>
    some <| if s.np x ≥ 0 then s.goto p (s.release x) (.done x) else s.goto p s.toSems (.queue x)
  | .queue x => some (s.semdown p (((s.setq x (s.q x ++ [p])).setwaitsem p none).release x) (.semsleep x))
  | .sched k => some (s.goto p s.toSems (.gone k))
  | .gone k => s.dispatch p k
  | .done x => some (s.goto p s.toSems (if s.waitsem p = none then .killedlock x else .idle))
  | .killedlock x => s.acquire p x (.killed x)
  | .killed x => some (s.goto p (s.add x 1) (.wakeup x true .user))
  | .altdec ss i => ss[i]?.map fun x => s.altdec p x ss i
  | .altlock ss i n => ss[i]?.bind fun x => s.acquire p x (.altqueue ss i n)
  | .altqueue ss i n =>
    ss[i]?.map fun x => s.goto p ((s.setq x (s.q x ++ [p])).release x) (afterqueue ss i n)
  | .altdown ss i => some (s.semdown p s.toSems (.semalt ss i))
  | .altdone ss i j r =>
    if j < i then
      ss[j]?.map fun x =>
        s.goto p s.toSems <| if s.waitsem p = some x then .altdone ss i (j + 1) j else .dequeuelock ss i j r
    else some (s.goto p s.toSems (if r < 0 then .panic else .idle))
  | .dequeuelock ss i j r => ss[j]?.bind fun x => s.acquire p x (.dequeue ss i j r)
  | .dequeue ss i j r => ss[j]?.map fun x => s.dequeue p x ss i j r

def postnote : Option (State P X N) :=
  match s.npc n with
  | .idle => none
  | .test y => some (s.ngoto n (if s.state y = .semdown then .readying y else .idle))
  | .readying y => some ((s.ngoto n .idle).ready y)

def step (s : State P X N) : Act P X N → Option (State P X N)
  | .store x n => some { s with np := Function.update s.np x n }
  | .semwakeup p x => if s.pc p = .idle then some (s.goto p s.toSems (.wakelock x .user)) else none
  | .semsleep p x dontblock =>
    if s.pc p = .idle then some (s.goto p s.toSems (if dontblock then .undo x else .sleeplock x)) else none
  | .semalt p ss => if s.pc p = .idle then some (s.goto p s.toSems (.altdec ss 0)) else none
  | .run p => s.run p
  | .postnote n y => if s.npc n = .idle then some (s.ngoto n (.test y)) else none
  | .poster n => s.postnote n

-- Someone is about to call `ready` for the process.
def Readying (s : State P X N) (y : P) : P ⊕ N → Prop
  | .inl p => (s.pc p).readying? = some y
  | .inr n => (s.npc n).readying? = some y

-- Whom an action decides to make ready.
def decides (s : State P X N) : Act P X N → Option P
  | .run p =>
    match s.pc p with
    | .wake x true _ => (s.q x).head?.filter (· ≠ p)
    | _ => none
  | .poster n =>
    match s.npc n with
    | .test y => if s.state y = .semdown then some y else none
    | _ => none
  | _ => none

end State

-- All processes run, and nobody is in any of the calls.
structure Begins (s : State P X N) : Prop where
  q       : ∀ x, s.q x = []
  lock    : ∀ x, s.lock x = none
  state   : ∀ p, s.state p = .running
  runq    : ∀ p, s.runq p = 0
  readies : ∀ p, s.readies p = 0
  pc      : ∀ p, s.pc p = .idle
  npc     : ∀ n, s.npc n = .idle

def machine (P X N : Type*) [DecidableEq P] [DecidableEq X] [DecidableEq N] : Machine (State P X N) (Act P X N) where
  init   := Begins
  step s := s.step

-- No process is made ready twice.
structure Once (s : State P X N) : Prop where
  readies : ∀ y, s.readies y ≤ 1
  runq    : ∀ y, s.runq y ≤ 1

-- Whoever decides to make a process ready finds that it sleeps, and that nobody else has decided so.
def Sole (s : State P X N) (y : P) : Prop :=
  s.state y = .semdown ∧ ∀ a, ¬s.Readying y a

def Decides (s : State P X N) (a : Act P X N) : Prop :=
  ∀ y ∈ s.decides a, Sole s y

end Port.Semready
