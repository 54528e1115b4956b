import Nix.Lib.Machine
import Nix.Lib.Parties

-- The exits that processes wait for.
namespace Port.Pwait

inductive Err
  | Einuse
  | Enochild
  | Eintr
deriving DecidableEq, Repr

-- The child has a parent that waits for it, or it is made with RFNOWAIT, or by `kproc`.
inductive Flag
  | wait
  | nowait
  | kproc
deriving DecidableEq, Repr

-- Where the process in a slot of the table is, if there is one.
inductive Pc (S : Type)
  | dead
  | new (up : S) (flag : Flag)
  -- what `rfork` leaves when it fails
  | lost
  | user
  | rfork (p : S)
  -- in `sleep`, and after it
  | pwait
  | woken
  -- in `pexit`: after the parent is told, with `addbroken` still to come unless `freemem`, ...
  | exited (freemem : Bool)
  | broken
  -- ... and without its pid
  | moribund
deriving DecidableEq

structure Waitmsg (M : Type) where
  pid : Nat
  -- the times and the message
  w   : M
deriving DecidableEq

structure Proc (S M : Type) where
  pc        : Pc S
  pid       : Nat
  parent    : Option S
  parentpid : Nat
  kp        : Bool
  nchild    : Int
  nwait     : Int
  waitq     : List (Waitmsg M)
  qwaitr    : Bool

structure State (S M : Type) where
  proc     : S → Proc S M
  pidalloc : Nat

variable {S M : Type}

-- The process is there, and has not come to tell its parent that it exits.
def Pc.Lives : Pc S → Prop
  | user | rfork _ | pwait | woken => True
  | _                              => False

instance : DecidablePred (Pc.Lives (S := S))
  | .user | .rfork _ | .pwait | .woken                               => isTrue trivial
  | .dead | .new .. | .lost | .exited _ | .broken | .moribund => isFalse id

-- `newproc` is at the slot.
def Pc.isNew : Pc S → Bool
  | new .. => true
  | _      => false

namespace Proc

abbrev Lives (y : Proc S M) : Prop :=
  y.pc.Lives

-- `newproc`, up to where it takes a pid.
def newproc (up : S) (flag : Flag) (y : Proc S M) : Proc S M :=
  { y with pc := .new up flag, parent := none, kp := false, nchild := 0, nwait := 0, waitq := [] }

-- The new process, when it is ready.
def forked (pid : Nat) (up : S) (uppid : Nat) (flag : Flag) (y : Proc S M) : Proc S M :=
  match flag with
  | .wait   => { y with pc := .user, pid := pid, parent := some up, parentpid := uppid }
  | .nowait => { y with pc := .user, pid := pid, parent := some up, parentpid := 0 }
  | .kproc  => { y with pc := .user, pid := pid, kp := true }

def lost (pid : Nat) (y : Proc S M) : Proc S M :=
  { y with pc := .lost, pid := pid }

-- The process that made it.
def forks (flag : Flag) (y : Proc S M) : Proc S M :=
  { y with pc := .user, nchild := if flag = .wait then y.nchild + 1 else y.nchild }

-- `pwait`, up to `sleep`.
def pwait (y : Proc S M) : Except Err (Proc S M) :=
  if y.qwaitr then
    .error .Einuse
  else if y.nchild = 0 ∧ y.waitq = [] then
    .error .Enochild
  else
    .ok { y with pc := .pwait, qwaitr := true }

-- The rest of it. It does not look whether there is a record.
def take (y : Proc S M) : Option (Waitmsg M × Proc S M) :=
  match y.waitq with
  | []         => none
  | wq :: next => some (wq, { y with pc := .user, waitq := next, nwait := y.nwait - 1, qwaitr := false })

-- What a child that exits does to its parent, with `exl` locked. If there would be more than 128 wait records, it does
-- not leave one.
def childexit [DecidableEq S] (parentpid : Nat) (wq : Waitmsg M) (y : Proc S M) : Proc S M :=
  if y.pid = parentpid ∧ y.pc ≠ .broken then
    if y.nwait < 128 then
      { y with nchild := y.nchild - 1, waitq := wq :: y.waitq, nwait := y.nwait + 1 }
    else
      { y with nchild := y.nchild - 1 }
  else
    y

end Proc

inductive Act (S M : Type)
  -- a process makes another in a slot that is free, and that becomes ready, or is lost
  | rfork (up p : S) (flag : Flag)
  | ready (p : S)
  | fail (p : S)
  -- the steps of `pwait`, with a note that may come while it sleeps
  | pwait (p : S)
  | wakeup (p : S)
  | take (p : S)
  | note (p : S)
  -- the steps of `pexit`
  | pexit (p : S) (freemem : Bool) (w : M)
  | addbroken (p : S)
  | unbreak (p : S)
  | unpid (p : S)
  | sched (p : S)

namespace State

variable [DecidableEq S] (st : State S M)

def modify (p : S) (f : Proc S M → Proc S M) : State S M :=
  { st with proc := Function.update st.proc p (f <| st.proc p) }

def goto (p : S) (pc : Pc S) : State S M :=
  st.modify p ({ · with pc := pc })

-- The pids are not enough for more.
def newpid : Option Nat :=
  if st.pidalloc + 1 < 2 ^ 31 then some (st.pidalloc + 1) else none

def step : Act S M → Option (State S M)
  | .rfork up p flag =>
    if (st.proc up).pc = .user ∧ (st.proc p).pc = .dead then
      some <| (st.modify p <| Proc.newproc up flag).goto up (.rfork p)
    else
      none
  | .ready p =>
    match (st.proc p).pc with
    | .new up flag => do
      let pid ← st.newpid
      let st := (st.modify p <| Proc.forked pid up (st.proc up).pid flag).modify up <| Proc.forks flag
      some { st with pidalloc := pid }
    | _ => none
  | .fail p =>
    match (st.proc p).pc with
    | .new up _ => do
      let pid ← st.newpid
      some { (st.modify p <| Proc.lost pid).goto up .user with pidalloc := pid }
    | _ => none
  | .pwait p =>
    if (st.proc p).pc = .user then
      match (st.proc p).pwait with
      | .ok y    => some <| st.modify p fun _ => y
      | .error _ => some st
    else
      none
  | .wakeup p => if (st.proc p).pc = .pwait ∧ (st.proc p).waitq ≠ [] then some <| st.goto p .woken else none
  | .take p =>
    if (st.proc p).pc = .woken then
      (st.proc p).take.map fun r => st.modify p fun _ => r.snd
    else
      none
  | .note p =>
    if (st.proc p).pc = .pwait then
      some <| st.modify p ({ · with pc := .user, qwaitr := false })
    else
      none
  | .pexit p freemem w =>
    if (st.proc p).pc = .user then
      if (st.proc p).kp then
        some <| st.goto p (.exited freemem)
      else
        -- it panics if the boot process dies
        (st.proc p).parent.map fun q =>
          (st.modify q <| Proc.childexit (st.proc p).parentpid ⟨(st.proc p).pid, w⟩).goto p (.exited freemem)
    else
      none
  | .addbroken p => if (st.proc p).pc = .exited false then some <| st.goto p .broken else none
  | .unbreak p   => if (st.proc p).pc = .broken then some <| st.goto p (.exited true) else none
  | .unpid p     =>
    if (st.proc p).pc = .exited true then
      some <| st.modify p ({ · with pc := .moribund, pid := 0 })
    else
      none
  | .sched p => if (st.proc p).pc = .moribund then some <| st.goto p .dead else none

-- The error that an action makes `pwait` return, and to whom.
def raises : Act S M → Option (S × Err)
  | .pwait p =>
    if (st.proc p).pc = .user then
      match (st.proc p).pwait with
      | .ok _    => none
      | .error e => some (p, e)
    else
      none
  | .note p => if (st.proc p).pc = .pwait then some (p, .Eintr) else none
  | _       => none

end State

-- There is one process to begin with, and it has no parent.
def boots (y : Proc S M) : Prop :=
  y.pc = .user ∧ y.pid = 1 ∧ y.parent = none ∧ y.kp = false ∧ y.nchild = 0 ∧ y.nwait = 0 ∧ y.waitq = [] ∧
  y.qwaitr = false ∧ y.parentpid = 0

def free (y : Proc S M) : Prop :=
  y.pc = .dead ∧ y.pid = 0 ∧ y.parent = none ∧ y.kp = false ∧ y.qwaitr = false ∧ y.parentpid = 0

def machine (S M : Type) [DecidableEq S] : Machine (State S M) (Act S M) where
  init st := st.pidalloc = 1 ∧ ∃ p, boots (st.proc p) ∧ ∀ q, q ≠ p → free (st.proc q)
  step    := State.step

-- A process that is not waited for does not exit while `newproc` is at the slot that its parent had: a pid of 0 is what
-- it has of its parent, and what the slot has.
def Apart (st : State S M) : Act S M → Prop
  | .pexit p _ _ => (st.proc p).parentpid = 0 → ∀ q ∈ (st.proc p).parent, (st.proc q).pc.isNew = false
  | _            => True

instance : ∀ (st : State S M) (a : Act S M), Decidable (Apart st a)
  | st, .pexit p _ _ => inferInstanceAs (Decidable ((st.proc p).parentpid = 0 → _))
  | _, .rfork .. | _, .ready _ | _, .fail _ | _, .pwait _ | _, .wakeup _ | _, .take _ | _, .note _ | _, .addbroken _
  | _, .unbreak _ | _, .unpid _ | _, .sched _ => isTrue trivial

section

variable [Fintype S] [DecidableEq S]

-- A child that is waited for by the process of a slot with a pid, and lives.
def Proc.Child (p : S) (pid : Nat) (y : Proc S M) : Prop :=
  y.Lives ∧ y.parent = some p ∧ y.parentpid = pid

instance (p : S) (pid : Nat) (y : Proc S M) : Decidable (y.Child p pid) :=
  inferInstanceAs (Decidable (_ ∧ _))

-- How many of them there are.
def State.living (st : State S M) (p : S) (pid : Nat) : Int :=
  tally (fun y => if y.Child p pid then 1 else 0) st.proc

-- What has happened, with the pid of the parent: the exits that are to be told, and the records that `pwait` returned.
structure History (M : Type) where
  exits     : List (Nat × Waitmsg M)
  delivered : List (Nat × Waitmsg M)

-- The records for a parent.
def records (pid : Nat) (l : List (Nat × Waitmsg M)) : List (Waitmsg M) :=
  l.filterMap fun x => if x.fst = pid then some x.snd else none

-- An exit is to be told to a parent that lives, if `lim` is so of how many records that has.
def History.note (lim : Nat → Prop) [DecidablePred lim] (st : State S M) (a : Act S M) (h : History M) : History M :=
  match a with
  | .pexit p _ w =>
    let y := st.proc p
    if y.kp = false ∧ ∃ q, (st.proc q).Lives ∧ (st.proc q).pid = y.parentpid ∧ lim (st.proc q).waitq.length then
      { h with exits := h.exits ++ [(y.parentpid, ⟨y.pid, w⟩)] }
    else
      h
  | .take p =>
    match (st.proc p).waitq with
    | []      => h
    | wq :: _ => { h with delivered := h.delivered ++ [((st.proc p).pid, wq)] }
  | _ => h

def tracked (S M : Type) [Fintype S] [DecidableEq S] (lim : Nat → Prop) [DecidablePred lim] :
    Machine (State S M × History M) (Act S M) :=
  (machine S M).track (History M) (fun _ => ⟨[], []⟩) (History.note lim)

-- What is promised, where `err` tells which errors it is promised for.
structure Waits (err : Err → Prop) (s : State S M × History M) : Prop where
  -- each child that exits does so once
  once      : (s.snd.exits.map fun x => x.snd.pid).Nodup
  -- every record is of an exit, and is returned once
  delivered : s.snd.delivered.Subperm s.snd.exits
  -- and those that are not returned are there
  records   : ∀ p, (s.fst.proc p).Lives → (records (s.fst.proc p).pid s.snd.exits).Perm
    (records (s.fst.proc p).pid s.snd.delivered ++ (s.fst.proc p).waitq)
  nwait     : ∀ p, (s.fst.proc p).Lives → (s.fst.proc p).nwait = (s.fst.proc p).waitq.length
  nchild    : ∀ p, (s.fst.proc p).Lives → (s.fst.proc p).nchild = s.fst.living p (s.fst.proc p).pid
  -- after `sleep` there is a record
  woken     : ∀ p, (s.fst.proc p).pc = .woken → (s.fst.proc p).waitq ≠ []
  -- there is something to sleep for
  pwait     : ∀ p, (s.fst.proc p).pc = .pwait →
    (s.fst.proc p).waitq ≠ [] ∨ 0 < s.fst.living p (s.fst.proc p).pid
  error     : ∀ a p e, s.fst.raises a = some (p, e) → err e →
    (s.fst.proc p).waitq = [] ∧ s.fst.living p (s.fst.proc p).pid = 0
  enochild  : ∀ p, (s.fst.proc p).pc = .user → (s.fst.proc p).waitq = [] →
    s.fst.living p (s.fst.proc p).pid = 0 → s.fst.raises (.pwait p) = some (p, .Enochild)

end

end Port.Pwait
