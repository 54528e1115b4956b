import Mathlib.Data.Fintype.Card
import Nix.Lib.Buckets
import Nix.Lib.Machine

-- The processes of a rendezvous group meet by tags.
namespace Port.Rendez

abbrev RENDLOG : Nat := 5
abbrev RENDHASH : Nat := 2 ^ RENDLOG

-- The chain for a tag.
def REND (tag : UInt64) : Nat :=
  tag.toNat % RENDHASH

inductive PState
  | running
  | ready
  | rendezvous
deriving DecidableEq

inductive Pc (P : Type*)
  | user
  -- `sysrendezvous`, which is in the loop for `p` in `mach`, and is going to sleep from `wait` on
  | rendval (tag val : UInt64)
  | lock (tag val : UInt64)
  | find (tag val : UInt64)
  | mach (p : P) (val : UInt64)
  | unlock (val : UInt64)
  | wait
  | sched
  | woken
  -- `postnote`
  | state (p : P)
  | rgrp (p : P)
  | pull (p : P)
  | ready (p : P)
  | noted
deriving DecidableEq

structure Call where
  tag : UInt64
  val : UInt64
deriving DecidableEq

-- What becomes of a call: it meets another one, or a note comes.
inductive Fate
  | pending
  | paired (n : Nat)
  | noted
deriving DecidableEq

-- `lock` has the process that has the lock of the group. The last five tell of the calls in the order they were made:
-- which one a process is in, what became of a call, how often its process was made ready, and its result.
structure State (P : Type*) where
  hash     : Nat → Option P
  rendhash : P → Option P
  rendtag  : P → UInt64
  rendval  : P → UInt64
  state    : P → PState
  mach     : P → Bool
  lock     : Option P
  pc       : P → Pc P
  calls    : List Call
  cur      : P → Nat
  fate     : Nat → Fate
  readied  : Nat → Nat
  res      : Nat → Option UInt64

variable {P : Type*} [Fintype P] [DecidableEq P]

namespace State

variable (s : State P) (p : P)

def goto (c : Pc P) : State P :=
  { s with pc := Function.update s.pc p c }

def acquire (c : Pc P) : Option (State P) :=
  if s.lock = none then some <| { s with lock := some p }.goto p c else none

def release (c : Pc P) : State P :=
  { s with lock := none }.goto p c

-- `ready`.
def makeready (q : P) : State P :=
  { s with
    state   := Function.update s.state q .ready
    readied := Function.update s.readied (s.cur q) (s.readied (s.cur q) + 1) }

-- Two calls meet: that of the process that waits and that of the one which has found it.
def pair (q : P) (val : UInt64) : State P :=
  { s with
    rendval := Function.update s.rendval q val
    fate    := Function.update (Function.update s.fate (s.cur q) (.paired (s.cur p))) (s.cur p) (.paired (s.cur q)) }

-- A process gives up its processor.
def off : State P :=
  { s with
    mach  := Function.update s.mach p false
    state := if s.state p = .running then Function.update s.state p .ready else s.state }

-- The result of a call.
def finish (v : UInt64) : State P :=
  { s with res := Function.update s.res (s.cur p) (some v) }.goto p .user

-- The next step of a process.
def run : Option (State P) :=
  match s.pc p with
  | .user          => none
  -- `sysrendezvous`
  | .rendval t v   => some <| { s with rendval := Function.update s.rendval p (~~~0) }.goto p (.lock t v)
  | .lock t v      => s.acquire p (.find t v)
  | .find t v      => do
    let (l, f) ← search s.rendhash (fun q => some (s.rendtag q = t)) (Fintype.card P) none (s.hash (REND t))
    match f with
    | some q => some <|
        { s.pair p q v with
          hash     := if l = none then Function.update s.hash (REND t) (s.rendhash q) else s.hash
          rendhash := updateAt s.rendhash l (s.rendhash q) }.goto p (.mach q (s.rendval q))
    | none   => some <|
        { s with
          rendtag  := Function.update s.rendtag p t
          rendval  := Function.update s.rendval p v
          rendhash := Function.update s.rendhash p (s.hash (REND t))
          hash     := Function.update s.hash (REND t) (some p)
          state    := Function.update s.state p .rendezvous }.goto p .wait
  | .mach q v      => if s.mach q then none else some <| (s.makeready q).goto p (.unlock v)
  | .unlock v      => some <| (s.release p .user).finish p v
  | .wait          => some <| s.release p .sched
  | .sched         => some <| (s.off p).goto p .woken
  | .woken         => some <| s.finish p (s.rendval p)
  -- `postnote`
  | .state q       => some <| s.goto p (if s.state q = .rendezvous then .rgrp q else .user)
  | .rgrp q        => s.acquire p (.pull q)
  | .pull q        =>
    if s.state q = .rendezvous then do
      let (hash, rendhash) ← Buckets.unlink s.hash s.rendhash (REND (s.rendtag q)) q (Fintype.card P)
      some <|
        { s with
          rendval := Function.update s.rendval q (~~~0)
          fate    := Function.update s.fate (s.cur q) .noted
          hash, rendhash }.goto p (.ready q)
    else
      some <| s.goto p .noted
  | .ready q       => some <| (s.makeready q).goto p .noted
  | .noted         => some <| s.release p .user

end State

inductive Act (P : Type*)
  | sysrendezvous (p : P) (tag val : UInt64)
  -- the second one gets a note
  | postnote (p q : P)
  | run (p : P)
  -- a process loses its processor, or gets one
  | preempt (p : P)
  | dispatch (p : P)

def step (s : State P) : Act P → Option (State P)
  | .sysrendezvous p t v =>
    if s.pc p = .user ∧ s.mach p then
      some <| { s with calls := s.calls ++ [Call.mk t v], cur := Function.update s.cur p s.calls.length }.goto p (.rendval t v)
    else
      none
  | .postnote p q        => if s.pc p = .user ∧ s.mach p then some <| s.goto p (.state q) else none
  | .run p               => if s.mach p then s.run p else none
  | .preempt p           => if s.mach p then some <| s.off p else none
  | .dispatch p          =>
    if s.state p = .ready ∧ s.mach p = false then
      some { s with state := Function.update s.state p .running, mach := Function.update s.mach p true }
    else
      none

structure Init (s : State P) : Prop where
  hash    : ∀ i, s.hash i = none
  state   : ∀ p, s.state p = .ready
  mach    : ∀ p, s.mach p = false
  lock    : s.lock = none
  pc      : ∀ p, s.pc p = .user
  calls   : s.calls = []
  fate    : ∀ n, s.fate n = .pending
  readied : ∀ n, s.readied n = 0
  res     : ∀ n, s.res n = none

def machine : Machine (State P) (Act P) where
  init := Init
  step := step

end Port.Rendez
