import Nix.Lib.Fifos
import Nix.Lib.Machine
import Mathlib.Data.Fintype.Card

-- The run queues, and the routines that put processes on them and take them off. What is done with the scheduler
-- locked is one step, and so are the calls of the routines.
namespace Port.Runq

def Npriq := 20
def Nrq := Npriq + 2
def PriEdf : Fin Nrq := ⟨Npriq + 1, by decide⟩
def PriNormal := 10
def PriExtra : Fin Npriq := ⟨Npriq - 1, by decide⟩
def PriRoot : Fin Npriq := ⟨13, by decide⟩

def HZ : Int := 100
def Scaling : Int := 2
def schedgain : Int := 30
def AMPmincores : Int := 5

inductive PState
  | dead | moribund | ready | scheding | running | queueing | queueingR | queueingW | wakeme | broken | stopped
  | rendezvous | waitrelease | exotic | semdown
deriving DecidableEq, Repr

structure Edf where
  D : Int
  T : Int
  C : Int
  S : Int
  r : Int
  d : Int
  t : Int
  admitted     : Bool
  sporadic     : Bool
  yieldonblock : Bool
  yield        : Bool
  extratime    : Bool
deriving DecidableEq

structure Proc (C : Type*) where
  state      : PState
  priority   : Fin Nrq
  basepri    : Fin Npriq
  fixedpri   : Bool
  cpu        : Int
  lastupdate : Int
  mp         : Option C
  wired      : Option C
  -- where it runs, or ran and its state is not saved yet
  mach       : Option C
  edf        : Option Edf

structure Sched (P : Type*) where
  head   : Fin Nrq → Option P
  tail   : Fin Nrq → Option P
  rnext  : P → Option P
  n      : Fin Nrq → Int
  nrdy   : Int
  runvec : BitVec 64

-- Where a core is in the scheduler.
inductive Pc (P : Type*)
  | runproc
  -- in `smprunproc`, for the `i`th time round its loop, and with a process to take off a queue
  | smp (i : Nat)
  | found (rq : Fin Nrq) (p : P)
  -- in `mach0sched`
  | mach0 (n : Nat)
  | found0 (n : Nat) (rq : Fin Nrq) (p : P)
  -- it waits for a process from core 0
  | wait
  -- it has got a process, and the process runs
  | scheding (p : P)
  | running (p : P)
  -- in `schedinit`, before it looks at the state of the process that it ran, and before that is saved
  | schedinit (p : P)
  | save (p : P)
deriving DecidableEq

structure State (P C : Type*) extends Sched P where
  proc : P → Proc C
  pc   : C → Pc P
  -- `m->proc`
  mproc : C → Option P
  balancetime : Int
  -- the queue that `rebalance` is at
  balancing : Option (Fin Npriq)

-- What is read of the rest of the system. `now` is the time that `edflock` stores.
structure Env where
  ticks  : Int
  mticks : Int
  load   : Int
  nmach  : Int
  now    : Int

inductive Act (P C : Type*)
  -- `ready`, called on a core
  | ready (c : C) (p : P) (e : Env)
  | procpriority (p : P) (pri : Int) (fixed : Bool)
  | newproc (p : P) (e : Env)
  | procwired (p : P) (c : C)
  -- what the rest of the scheduler for deadlines does to the data of the process
  | edf (p : P) (d : Option Edf)
  | releaseintr (c : C) (p : P) (busy : Bool) (e : Env)
  -- `rebalance`, and the next turn of its loop
  | rebalance (e : Env)
  | another (busy : Bool) (e : Env)
  -- what the process that runs on a core does: it changes its state, makes a new process, executes a program, gives
  -- the processor up
  | setstate (c : C) (st : PState)
  | rfork (c : C) (p : P) (e : Env)
  | exec (c : C) (root : Bool)
  | sched (c : C)
  -- what the core does then
  | schedinit (c : C) (e : Env)
  | save (c : C) (e : Env)
  | runproc (c : C) (e : Env)
  | smprunproc (c : C)
  | dequeue (c : C) (busy : Bool)
  | mach0sched
  | give (mp : Option C) (busy : Bool)
  | get (c : C)
  | go (c : C) (e : Env)

namespace Edf

-- Non sporadic processes stay true to their period.
def next (e : Edf) (now : Int) : Edf :=
  let n := now - e.t
  if 0 < n then { e with t := if n < e.T then e.t + e.T else now + e.T - n.tmod e.T } else e

def release (e : Edf) (now : Int) : Edf :=
  let e := { e with yield := false }
  if e.d - now < 0 then
    let e := { e with r := now }
    let e := if e.sporadic then { e with t := e.r + e.T } else e.next now
    { e with d := e.r + e.D, S := e.C }
  else
    e

end Edf

namespace Proc

variable {C : Type*} (x : Proc C)

def edflock : Option Edf :=
  x.edf.filter (·.admitted)

-- `isup` tells whether it is the process that runs on the core where this is called.
def updatecpu (e : Env) (isup : Bool) : Proc C :=
  if x.edf.isSome then
    x
  else
    let t := e.ticks * Scaling + Scaling.tdiv 2
    let n := t - x.lastupdate
    let x := { x with lastupdate := t }
    if n = 0 then
      x
    else
      let D := schedgain * HZ * Scaling
      let n := min n D
      { x with cpu := if isup then 1000 - ((1000 - x.cpu) * (D - n)).tdiv D else (x.cpu * (D - n)).tdiv D }

@[simp]
theorem updatecpu_state (e : Env) (isup : Bool) : (x.updatecpu e isup).state = x.state := by
  unfold updatecpu
  split
  · rfl
  · dsimp only
    split <;> rfl

@[simp]
theorem updatecpu_priority (e : Env) (isup : Bool) : (x.updatecpu e isup).priority = x.priority := by
  unfold updatecpu
  split
  · rfl
  · dsimp only
    split <;> rfl

-- `basepri` is unsigned, and `ratio` is compared with it as if it were too: what is negative is beyond it, and the
-- panic that follows is never reached.
def reprioritize (e : Env) : Option (Fin Npriq) :=
  if e.load = 0 then
    some x.basepri
  else
    let fairshare := (e.nmach * 1000 * 1000).tdiv e.load
    let n := if x.cpu = 0 then 1 else x.cpu
    let ratio := (fairshare + n.tdiv 2).tdiv n
    if h : 0 ≤ ratio ∧ ratio ≤ x.basepri then
      some ⟨ratio.toNat, by have := x.basepri.isLt; omega⟩
    else
      some x.basepri

end Proc

def level (pri : Fin Npriq) : Fin Nrq :=
  pri.castLE (by decide)

-- The bounds of `procpriority`.
def clip (pri : Int) : Fin Npriq :=
  if h : pri < Npriq then ⟨pri.toNat, by have : 0 < Npriq := by decide
                                         omega⟩ else ⟨Npriq - 1, by decide⟩

section
variable {P C : Type*} [DecidableEq P] [Fintype P]

namespace Sched

variable (s : Sched P) (rq : Fin Nrq) (p : P)

def bit : BitVec 64 :=
  1#64 <<< rq.val

-- The processes on a queue.
def queue : List P :=
  walk s.rnext (Fintype.card P) (s.head rq)

def queueproc : Sched P where
  head   := if s.tail rq = none then Function.update s.head rq (some p) else s.head
  tail   := Function.update s.tail rq (some p)
  rnext  := updateAt (Function.update s.rnext p none) (s.tail rq) (some p)
  n      := Function.update s.n rq (s.n rq + 1)
  nrdy   := s.nrdy + 1
  runvec := s.runvec ||| bit rq

-- It takes `p` off a queue, where `l` is the one before it.
def unlink (l : Option P) : Sched P :=
  let head := if l = none then Function.update s.head rq (s.rnext p) else s.head
  { head
    tail   := if s.rnext p = none then Function.update s.tail rq l else s.tail
    rnext  := updateAt s.rnext l (s.rnext p)
    n      := Function.update s.n rq (s.n rq - 1)
    nrdy   := s.nrdy - 1
    runvec := if head rq = none then s.runvec &&& ~~~bit rq else s.runvec }

-- It puts `p` on a queue, after `l` and before `pp`.
def link (l pp : Option P) : Sched P where
  head   := if l = none then Function.update s.head rq (some p) else s.head
  tail   := if pp = none then Function.update s.tail rq (some p) else s.tail
  rnext  := updateAt (Function.update s.rnext p pp) l (some p)
  n      := Function.update s.n rq (s.n rq + 1)
  nrdy   := s.nrdy + 1
  runvec := s.runvec ||| bit rq

end Sched

namespace State

variable [DecidableEq C] (s : State P C) (c : C) (p : P) (rq : Fin Nrq) (e : Env) (busy : Bool)

def setproc (x : Proc C) : State P C :=
  { s with proc := Function.update s.proc p x }

def setedf (d : Edf) : State P C :=
  s.setproc p { s.proc p with edf := some d }

def goto (k : Pc P) : State P C :=
  { s with pc := Function.update s.pc c k }

def setmproc (o : Option P) : State P C :=
  { s with mproc := Function.update s.mproc c o }

-- The process that is `up` on a core.
def up : Option P :=
  match s.pc c with
  | .running p | .schedinit p | .save p => some p
  | _ => none

def queueproc : State P C :=
  { s with
    toSched := s.toSched.queueproc rq p
    proc    := Function.update s.proc p { s.proc p with priority := rq } }

-- It gives up where somebody else has the lock, the process is not there, or its state is not saved yet.
def dequeueproc : Option (Option P × State P C) :=
  if busy then
    some (none, s)
  else
    (search s.rnext (fun q => some (q = p)) (Fintype.card P) none (s.head rq)).map fun
      | (_, none)   => (none, s)
      | (l, some p) =>
        if (s.proc p).mach.isSome then (none, s) else (some p, { s with toSched := s.unlink rq p l })

-- It is inserted in earliest deadline order.
def edfqueue (d : Edf) : Option (State P C) :=
  (search s.rnext (fun pp => (s.proc pp).edf.map fun d' => d.d < d'.d) (Fintype.card P) none (s.head PriEdf)).map
    fun (l, pp) =>
      { s with
        toSched := s.link PriEdf p l pp
        proc    := Function.update s.proc p { s.proc p with edf := some d, priority := PriEdf, state := .ready } }

def edfready : Option (Bool × State P C) :=
  match (s.proc p).edflock with
  | none   => some (false, s)
  | some d =>
    if d.d - e.now ≤ 0 then
      let d := if d.sporadic then d else d.next e.now
      if e.now - d.t < 0 then
        if (s.proc p).state = .running ∧ ¬d.yield ∧ ¬d.yieldonblock ∧ d.extratime then
          some (false, s.setproc p { s.proc p with edf := some d, basepri := PriExtra, fixedpri := true })
        else
          some (true, s.setproc p { s.proc p with edf := some d, state := .waitrelease })
      else
        (s.edfqueue p (d.release e.now)).map (true, ·)
    else
      (s.edfqueue p d).map (true, ·)

def schedready : Option (State P C) :=
  (s.edfready p e).bind fun (done, s') =>
    if done then
      some s'
    else
      let x := (s'.proc p).updatecpu e (s.up c = some p)
      (x.reprioritize e).map fun pri =>
        (s'.setproc p { x with priority := level pri, state := .ready }).queueproc p (level pri)

def procpriority (pri : Int) (fixed : Bool) : State P C :=
  s.setproc p { s.proc p with basepri := clip pri, priority := level (clip pri), fixedpri := fixed }

def newproc : Option (State P C) :=
  if (s.proc p).state = .dead then
    some <| s.setproc p {
      state      := .scheding
      priority   := level (clip PriNormal)
      basepri    := clip PriNormal
      fixedpri   := false
      cpu        := 0
      lastupdate := e.ticks * Scaling
      mp         := none
      wired      := none
      mach       := none
      edf        := none }
  else
    none

def releaseintr : Option (State P C) :=
  match (s.proc p).edflock with
  | none   => some s
  | some d =>
    match (s.proc p).state with
    | .ready =>
      (s.dequeueproc p (s.proc p).priority busy).bind fun (q, s) =>
        if q = some p then
          (s.setproc p { s.proc p with state := .waitrelease, edf := some (d.release e.now) }).schedready c p e
        else
          some (s.setedf p (d.release e.now))
    | .waitrelease => (s.setedf p (d.release e.now)).schedready c p e
    | .running | .wakeme => some (s.setedf p (d.release e.now))
    | _ => some s

def rebalance : Option (State P C) :=
  if s.balancing = none then
    some <| if e.mticks - s.balancetime < HZ then s else
      { s with balancetime := e.mticks, balancing := some ⟨0, by decide⟩ }
  else
    none

-- `rebalance` comes to the next queue.
def nextqueue (pri : Fin Npriq) : State P C :=
  { s with balancing := if h : pri + 1 < Npriq then some ⟨pri + 1, h⟩ else none }

-- It stays at a queue as long as it finds processes to move.
def another : Option (State P C) :=
  s.balancing.bind fun pri =>
    match s.head (level pri) with
    | none   => some (s.nextqueue pri)
    | some p =>
      if (s.proc p).mp ≠ some c ∨ pri = (s.proc p).basepri then
        some (s.nextqueue pri)
      else
        let x := (s.proc p).updatecpu e (s.up c = some p)
        let s := s.setproc p x
        (x.reprioritize e).bind fun npri =>
          if npri = pri then
            some (s.nextqueue pri)
          else
            (s.dequeueproc p (level pri) busy).map fun
              | (none, s)   => s
              | (some p, s) => s.queueproc p (level npri)

def rfork (u : P) : Option (State P C) :=
  if (s.proc p).state = .scheding then
    let x := s.proc u
    (s.setproc p { s.proc p with
      basepri  := x.basepri
      priority := level x.basepri
      fixedpri := x.fixedpri
      mp       := x.wired.or x.mp
      wired    := x.wired.or (s.proc p).wired }).schedready c p e
  else
    none

def exec (root : Bool) : State P C :=
  let basepri := if root then PriRoot else (s.proc p).basepri
  s.setproc p { s.proc p with basepri, priority := level basepri }

def schedinit : Option (State P C) :=
  let s := s.setmproc c none
  match (s.proc p).state with
  | .running  => s.schedready c p e
  | .moribund => some (s.setproc p { s.proc p with state := .dead, edf := none })
  | _ => some s

def save : State P C :=
  s.setproc p ({ s.proc p with mach := none }.updatecpu e true)

-- The first process on the queues that it wants, from the queue with the highest priority on.
def scan (wants : Proc C → Bool) : Option (Option (Fin Nrq × P)) :=
  (List.finRange Nrq).reverse.findSomeM? fun rq =>
    (search s.rnext (fun p => some (wants (s.proc p))) (Fintype.card P) none (s.head rq)).map fun (_, p) => p.map (rq, ·)

def smpwants (i : Nat) (x : Proc C) : Bool :=
  x.mp = none ∨ x.mp = some c ∨ x.wired = none ∧ 0 < i

def mach0wants (n : Nat) (x : Proc C) : Bool :=
  match x.wired with
  | some w => s.mproc w = none
  | none   => x.mp = none ∨ (∃ c ∈ x.mp, s.mproc c = none) ∨ 0 < n

def smprunproc (i : Nat) : Option (State P C) :=
  (s.scan (smpwants c i)).map fun
    | none         => s.goto c (.smp (i + 1))
    | some (rq, p) => s.goto c (.found rq p)

def dequeue : Option (State P C) :=
  (s.dequeueproc p rq busy).map fun
    | (none, s)   => s.goto c (.smp 0)
    | (some p, s) => (s.setproc p { s.proc p with state := .scheding, mp := some c }).goto c (.scheding p)

def mach0sched (n : Nat) : Option (State P C) :=
  (s.scan (s.mach0wants n)).map fun
    | none         => s.goto c (.mach0 (n + 1))
    | some (rq, p) => s.goto c (.found0 n rq p)

-- The core for the process is the one it is wired to, or `mp`, that has been picked.
def give (n : Nat) (mp : Option C) : Option (State P C) :=
  match ((s.proc p).wired.or mp).filter fun mp => s.mproc mp = none with
  | none    => some (s.goto c (.mach0 n))
  | some mp =>
    (s.dequeueproc p rq busy).map fun
      | (none, s)   => (s.setmproc mp none).goto c (.mach0 0)
      | (some p, s) =>
        ((s.setproc p { s.proc p with state := .scheding, mp := some mp }).setmproc mp (some p)).goto c (.mach0 0)

def get : State P C :=
  (s.setproc p { s.proc p with state := .scheding, mp := some c }).goto c (.scheding p)

-- The rest of `sched`. A process that is wired to another core makes it panic.
def go : Option (State P C) :=
  let x := s.proc p
  let y := x.updatecpu e false
  (if x.edf.isSome then some x else (y.reprioritize e).map fun pri => { y with priority := level pri }).bind fun x =>
    if x.wired = none ∨ x.wired = some c then
      some <| ((s.setproc p { x with state := .running, mach := some c }).setmproc c (some p)).goto c (.running p)
    else
      none

end State

-- `c₀` is core 0.
def step [DecidableEq C] (c₀ : C) (s : State P C) : Act P C → Option (State P C)
  | .ready c p e => s.schedready c p e
  | .procpriority p pri fixed => some (s.procpriority p pri fixed)
  | .newproc p e => s.newproc p e
  | .procwired p c => some (s.setproc p { s.proc p with wired := some c, mp := some c })
  | .edf p d => some (s.setproc p { s.proc p with edf := d })
  | .releaseintr c p busy e => s.releaseintr c p e busy
  | .rebalance e => s.rebalance e
  | .another busy e => s.another c₀ e busy
  | .setstate c st =>
    match s.pc c with
    | .running p => if st = .ready then none else some (s.setproc p { s.proc p with state := st })
    | _ => none
  | .rfork c p e =>
    match s.pc c with
    | .running u => s.rfork c p e u
    | _ => none
  | .exec c root =>
    match s.pc c with
    | .running p => some (s.exec p root)
    | _ => none
  | .sched c =>
    match s.pc c with
    | .running p => some (s.goto c (.schedinit p))
    | _ => none
  | .schedinit c e =>
    match s.pc c with
    | .schedinit p => (s.schedinit c p e).map (·.goto c (.save p))
    | _ => none
  | .save c e =>
    match s.pc c with
    | .save p => some ((s.save p e).goto c .runproc)
    | _ => none
  | .runproc c e =>
    match s.pc c with
    | .runproc => some (s.goto c (if e.nmach ≤ AMPmincores then .smp 0 else if c = c₀ then .mach0 0 else .wait))
    | _ => none
  | .smprunproc c =>
    match s.pc c with
    | .smp i => s.smprunproc c i
    | _ => none
  | .dequeue c busy =>
    match s.pc c with
    | .found rq p => s.dequeue c p rq busy
    | _ => none
  | .mach0sched =>
    match s.pc c₀ with
    | .mach0 n => s.mach0sched c₀ n
    | _ => none
  | .give mp busy =>
    match s.pc c₀ with
    | .found0 n rq p => s.give c₀ p rq busy n mp
    | _ => none
  | .get c =>
    match s.pc c, s.mproc c with
    | .wait, some p => some (s.get c p)
    | _, _ => none
  | .go c e =>
    match s.pc c with
    | .scheding p => s.go c p e
    | _ => none

-- No process is ready, and the queues are empty.
structure Begins (s : State P C) : Prop where
  head   : ∀ rq, s.head rq = none
  tail   : ∀ rq, s.tail rq = none
  n      : ∀ rq, s.n rq = 0
  nrdy   : s.nrdy = 0
  runvec : s.runvec = 0
  proc   : ∀ p, (s.proc p).state ≠ .ready

def machine [DecidableEq C] (c₀ : C) : Machine (State P C) (Act P C) where
  init := Begins
  step := step c₀

-- Whom an action calls `ready` for, other than after it has taken it off a queue.
def readied (s : State P C) : Act P C → Option P
  | .ready _ p _ | .rfork _ p _ => some p
  | .releaseintr _ p _ _ => if (s.proc p).state = .waitrelease then some p else none
  | .schedinit c _ =>
    match s.pc c with
    | .schedinit p => if (s.proc p).state = .running then some p else none
    | _ => none
  | _ => none

-- Whom an action gives a priority, and which one, other than where it puts it on a queue or it runs.
def prioritized (s : State P C) : Act P C → Option (P × Fin Nrq)
  | .procpriority p pri _ => some (p, level (clip pri))
  | .exec c root =>
    match s.pc c with
    | .running p => some (p, level (if root then PriRoot else (s.proc p).basepri))
    | _ => none
  | _ => none

-- `ready` is called for a process that is on no queue, and a process that is ready keeps its priority.
structure Allowed (s : State P C) (a : Act P C) : Prop where
  readied     : ∀ p ∈ readied s a, ∀ rq, p ∉ s.queue rq
  prioritized : ∀ x ∈ prioritized s a, (s.proc x.fst).state = .ready → (s.proc x.fst).priority = x.snd

end

end Port.Runq
