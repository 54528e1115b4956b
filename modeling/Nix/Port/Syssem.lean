import Nix.Lib.Machine

-- Optimistic semaphores. An integer is changed by any process at any time, and the processes that
-- wait are queued under a lock. A step of a process is one access to what it shares with others.
namespace Port.Sem

-- `downsem` is called by a process, or by `altsems` for the semaphore at a position of its list.
inductive Caller (X : Type*)
  | proc
  | altsems (ss : List X) (i : Nat)
  deriving DecidableEq

-- What is next after `semwakeup`.
inductive Cont (X : Type*)
  | upsem
  | downsem (k : Caller X)
  -- the last loop of `semalt`, called from `semdequeue`
  | semalt (ss : List X) (i j : Nat) (r : Int)
  deriving DecidableEq

-- Where a process is.
inductive Pc (X : Type*)
  | idle
  -- `downsem`, before it looks at the integer, and before it decrements it
  | test (x : X) (dontblock : Bool) (k : Caller X)
  | dec (x : X) (dontblock : Bool) (k : Caller X)
  | ret (x : X)
  -- `semwakeup`, before it has the lock, at the condition of its loop, and in its loop
  | wakelock (x : X) (c : Cont X)
  | wakeup (x : X) (didwake : Bool) (c : Cont X)
  | wake (x : X) (didwake : Bool) (c : Cont X)
  -- `semsleep`: `undo` is for those that do not block, `done` is where its label is
  | undo (x : X) (k : Caller X)
  | sleeplock (x : X)
  | sleep (x : X)
  | queue (x : X)
  | asleep (x : X)
  | done (x : X)
  | killedlock (x : X)
  | killed (x : X)
  -- `semalt`, with `n` as its loop has it
  | altdec (ss : List X) (i : Nat)
  | altlock (ss : List X) (i : Nat) (n : Int)
  | altqueue (ss : List X) (i : Nat) (n : Int)
  | altasleep (ss : List X) (i : Nat)
  | altdone (ss : List X) (i j : Nat) (r : Int)
  | dequeuelock (ss : List X) (i j : Nat) (r : Int)
  | dequeue (ss : List X) (i j : Nat) (r : Int)
  | altret (ss : List X) (r : Nat)
  | panic
  deriving DecidableEq

structure State (P X : Type*) where
  np      : X → Int
  q       : X → List P
  lock    : X → Option P
  waitsem : P → Option X
  pc      : P → Pc X
  -- how many ups were begun, and have returned, and how many downs have reported success
  ups     : X → Nat
  upped   : X → Nat
  downs   : X → Nat

inductive Act (P X : Type*)
  | upsem (p : P) (x : X)
  | downsem (p : P) (x : X) (dontblock : Bool)
  | altsems (p : P) (ss : List X)
  -- the next step of a call
  | run (p : P)

namespace Caller

variable {X : Type*}

-- After `downsem` returned 0.
def success (x : X) : Caller X → Pc X
  | .proc         => .ret x
  | .altsems ss i => .altret ss i

-- After `downsem` returned -1.
def failure : Caller X → Pc X
  | .proc => .idle
  | .altsems ss i =>
    match ss[i + 1]? with
    | some x => .test x true (.altsems ss (i + 1))
    | none   => .altdec ss 0

end Caller

-- The last of a queue takes the place of the one that is removed.
def unqueue {P : Type*} (q : List P) (i : Nat) : List P :=
  match q.getLast? with
  | none   => []
  | some p => (q.set i p).dropLast

section

variable {P X : Type*} [DecidableEq P] [DecidableEq X]

namespace State

variable (s : State P X) (p : P) (x : X)

def goto (c : Pc X) : State P X :=
  { s with pc := Function.update s.pc p c }

-- `semainc` and `semadec`.
def add (n : Int) : State P X :=
  { s with np := Function.update s.np x (s.np x + n) }

def acquire (c : Pc X) : Option (State P X) :=
  if s.lock x = none then some <| { s with lock := Function.update s.lock x (some p) }.goto p c
  else none

def release : State P X :=
  { s with lock := Function.update s.lock x none }

def setq (l : List P) : State P X :=
  { s with q := Function.update s.q x l }

-- The process is given a ticket.
def give : State P X :=
  { s with waitsem := Function.update s.waitsem p (some x) }

-- The process that is woken up continues after `sched`.
def ready : State P X :=
  match s.pc p with
  | .asleep x       => s.goto p (.done x)
  | .altasleep ss i => s.goto p (.altdone ss i 0 (-1))
  | _               => s

def up : State P X :=
  { s with upped := Function.update s.upped x (s.upped x + 1) }.goto p .idle

def down : State P X :=
  { s with downs := Function.update s.downs x (s.downs x + 1) }.goto p .idle

-- The lock is released at the end of `semwakeup`, or by its caller right after.
def awoken : Cont X → State P X
  | .upsem          => (s.release x).up p x
  | .downsem k      => (s.release x).goto p (k.success x)
  | .semalt ss i j r => (s.release x).goto p (.altdone ss i (j + 1) r)

def upsem : State P X :=
  let s := { s with ups := Function.update s.ups x (s.ups x + 1) }.add x 1
  if s.np x ≤ 0 then s.goto p (.wakelock x .upsem) else s.up p x

def wakeup (didwake : Bool) (c : Cont X) : State P X :=
  if 0 < (s.q x).length ∧ -s.np x < (s.q x).length then s.goto p (.wake x didwake c)
  else s.awoken p x c

def wake (didwake : Bool) (c : Cont X) : Option (State P X) :=
  match s.q x with
  | []     => none
  | q₀ :: _ =>
    let s := s.setq x (unqueue (s.q x) 0)
    let s := if didwake then s.give q₀ x else s
    let s := if didwake ∧ q₀ ≠ p then s.ready q₀ else s
    some <| s.goto p (.wakeup x didwake c)

def dec (dontblock : Bool) (k : Caller X) : State P X :=
  let s := s.add x (-1)
  s.goto p <| if s.np x ≥ 0 then k.success x else if dontblock then .undo x k else .sleeplock x

def altdec (ss : List X) (i : Nat) : State P X :=
  let s := s.add x (-1)
  s.goto p <| if s.np x ≥ 0 then .altdone ss i 0 i else .altlock ss i (s.np x)

def dequeue (ss : List X) (i j : Nat) (r : Int) : State P X :=
  if p ∈ s.q x then
    ((s.setq x <| unqueue (s.q x) <| (s.q x).idxOf p).release x).goto p (.altdone ss i (j + 1) r)
  else (s.add x 1).goto p (.wakeup x false <| .semalt ss i j r)

-- The next step of a process.
def run : Option (State P X) :=
  match s.pc p with
  | .idle | .asleep _ | .altasleep .. | .panic => none
  | .test x nb k =>
    some <| s.goto p <| if s.np x ≤ 0 ∧ nb then k.failure else .dec x nb k
  | .dec x nb k => some <| s.dec p x nb k
  | .ret x => some <| s.down p x
  | .wakelock x c => s.acquire p x (.wakeup x true c)
  | .wakeup x didwake c => some <| s.wakeup p x didwake c
  | .wake x didwake c => s.wake p x didwake c
  | .undo x k => some <| (s.add x 1).goto p (.wakelock x <| .downsem k)
  | .sleeplock x => s.acquire p x (.sleep x)
  | .sleep x => some <| if s.np x ≥ 0 then (s.release x).goto p (.done x) else s.goto p (.queue x)
  | .queue x =>
    let s := { s with waitsem := Function.update s.waitsem p none }
    some <| ((s.setq x (s.q x ++ [p])).release x).goto p (.asleep x)
  | .done x => some <| s.goto p <| if s.waitsem p = none then .killedlock x else .ret x
  | .killedlock x => s.acquire p x (.killed x)
  | .killed x => some <| (s.add x 1).goto p (.wakeup x true <| .downsem .proc)
  | .altdec ss i => ss[i]?.map fun x => s.altdec p x ss i
  | .altlock ss i n => ss[i]?.bind fun x => s.acquire p x (.altqueue ss i n)
  | .altqueue ss i n =>
    ss[i]?.map fun x =>
      ((s.setq x (s.q x ++ [p])).release x).goto p <|
        if ((i + 1 : Nat) : Int) < n then .altdec ss (i + 1) else .altasleep ss (i + 1)
  | .altdone ss i j r =>
    if j < i then
      ss[j]?.map fun x =>
        s.goto p <| if s.waitsem p = some x then .altdone ss i (j + 1) j else .dequeuelock ss i j r
    else some <| s.goto p <| if r < 0 then .panic else .altret ss r.toNat
  | .dequeuelock ss i j r => ss[j]?.bind fun x => s.acquire p x (.dequeue ss i j r)
  | .dequeue ss i j r => ss[j]?.map fun x => s.dequeue p x ss i j r
  | .altret ss r => ss[r]?.map fun x => s.down p x

end State

def step (s : State P X) : Act P X → Option (State P X)
  | .upsem p x      => if s.pc p = .idle then some <| s.upsem p x else none
  | .downsem p x nb => if s.pc p = .idle then some <| s.goto p (.test x nb .proc) else none
  | .altsems p ss   =>
    if s.pc p = .idle then ss.head?.map fun x => s.goto p (.test x true <| .altsems ss 0) else none
  | .run p => s.run p

-- Semaphores with some tickets, that no process has used.
structure Created (v₀ : X → Nat) (s : State P X) : Prop where
  np    : ∀ x, s.np x = v₀ x
  q     : ∀ x, s.q x = []
  pc    : ∀ p, s.pc p = .idle
  ups   : ∀ x, s.ups x = 0
  upped : ∀ x, s.upped x = 0
  downs : ∀ x, s.downs x = 0

-- The processes of a new system.
def fresh {P X : Type*} (v₀ : X → Nat) : State P X where
  np x      := v₀ x
  q _       := []
  lock _    := none
  waitsem _ := none
  pc _      := .idle
  ups _     := 0
  upped _   := 0
  downs _   := 0

theorem fresh_created {P X : Type*} (v₀ : X → Nat) : Created v₀ (fresh v₀ : State P X) :=
  ⟨fun _ => rfl, fun _ => rfl, fun _ => rfl, fun _ => rfl, fun _ => rfl, fun _ => rfl⟩

def machine (v₀ : X → Nat) : Machine (State P X) (Act P X) where
  init := Created v₀
  step := step

end

end Port.Sem
