import Nix.Lib.Chain
import Nix.Lib.Machine

-- Alarms of processes.
namespace Port.Procalarm

-- A process, or none.
abbrev Proc := Nat

def nil : Proc := 0

def HZ : Nat := 100

def ulong (n : Int) : Nat :=
  (n % 2 ^ 32).toNat

def ms2tk (ms : Nat) : Nat :=
  if 1000000000 / HZ ≤ ms then ms / 1000 * HZ else (ms * HZ + 500) / 1000

def tk2ms (ticks : Nat) : Nat :=
  ulong (ticks * 1000 / HZ)

-- Where a process is in `procalarm`.
inductive Pc
  -- with what was returned last
  | idle (old : Nat)
  -- whether there was an alarm has been looked at
  | asked (time : Nat) (b : Bool)
  | left (time old : Nat)
  -- it waits for the lock
  | want (when old : Nat)
  -- it looks for itself, `l` is the process whose link `f` was found in, or is that of the list
  | unlink (when old : Nat) (l f : Proc)
  -- it looks for its place
  | scan (when old : Nat) (l f : Proc)
  | link (when old : Nat) (l f : Proc)
deriving DecidableEq

-- Where `alarmkproc` is.
inductive Kpc
  | woken
  -- it waits for the lock
  | want (now : Nat)
  -- at the head of the list
  | look (now : Nat)
  -- the time of the first process has come
  | due (now : Nat) (rp : Proc)
  -- there was an alarm, and `rp->debug` is locked
  | post (now : Nat) (rp : Proc)
  | clear (now : Nat) (rp : Proc)
  | pop (now : Nat) (rp : Proc)
  | asleep
deriving DecidableEq

-- The process that is about to get a note.
def Kpc.posting : Kpc → Option Proc
  | .post _ rp => some rp
  | _          => none

-- Who has the lock of the list.
inductive Who
  | kproc
  | proc (p : Proc)
deriving DecidableEq

structure State where
  ticks  : Nat
  alarm  : Proc → Nat
  palarm : Proc → Proc
  head   : Proc
  lock   : Option Who
  pc     : Proc → Pc
  kpc    : Kpc

inductive Action
  | tick
  | checkalarms
  | procalarm (p : Proc) (time : Nat)
  -- the next step of a call
  | proc (p : Proc)
  -- the next step of `alarmkproc`, and whether it gets the lock of the process or has its note taken
  | kproc (b : Bool)

namespace State

variable (s : State)

def goto (p : Proc) (pc : Pc) : State :=
  { s with pc := Function.update s.pc p pc }

-- A link is stored, in a process or in the list.
def store (l v : Proc) : State :=
  if l = nil then { s with head := v } else { s with palarm := Function.update s.palarm l v }

-- The process is not on the list, and looks for its place from the start.
def start (p : Proc) (when old : Nat) : State :=
  { s with palarm := Function.update s.palarm p nil }.goto p (.scan when old nil s.head)

def procStep (p : Proc) : Option State :=
  match s.pc p with
  | .idle _          => none
  | .asked time b    => some <| s.goto p <| .left time <| if b then tk2ms (ulong (s.alarm p - s.ticks)) else 0
  | .left time old   =>
    if time = 0 then
      some <| { s with alarm := Function.update s.alarm p 0 }.goto p (.idle old)
    else
      some <| s.goto p (.want (ulong (ms2tk time + s.ticks)) old)
  | .want when old   =>
    if s.lock = none then some <| { s with lock := some (.proc p) }.goto p (.unlink when old nil s.head) else none
  | .unlink when old l f =>
    if f = nil then
      some <| s.start p when old
    else if f = p then
      some <| (s.store l (s.palarm f)).start p when old
    else
      some <| s.goto p (.unlink when old f (s.palarm f))
  | .scan when old l f =>
    if f = nil ∨ s.alarm f > when then
      some <| s.goto p (.link when old l f)
    else
      some <| s.goto p (.scan when old f (s.palarm f))
  | .link when old l f =>
    let s := { s with palarm := Function.update s.palarm p f }.store l p
    some <| { s with alarm := Function.update s.alarm p when, lock := none }.goto p (.idle old)

-- It sleeps after it has let go of the lock.
def sleep : State :=
  { s with lock := none, kpc := .asleep }

def kprocStep (b : Bool) : Option State :=
  match s.kpc with
  | .woken       => some { s with kpc := .want s.ticks }
  | .want now    => if s.lock = none then some { s with lock := some .kproc, kpc := .look now } else none
  | .look now    => if s.head ≠ nil ∧ s.alarm s.head ≤ now then some { s with kpc := .due now s.head } else some s.sleep
  | .due now rp  =>
    if s.alarm rp ≠ 0 then
      if b then some { s with kpc := .post now rp } else some s.sleep
    else
      some { s with kpc := .pop now rp }
  | .post now rp  => some { s with kpc := .clear now rp }
  | .clear now rp => some { s with alarm := Function.update s.alarm rp 0, kpc := .pop now rp }
  | .pop now rp   => some { s with head := s.palarm rp, kpc := .look now }
  | .asleep       => none

def step : Action → Option State
  | .tick             => some { s with ticks := ulong (s.ticks + 1) }
  | .checkalarms      =>
    if s.head ≠ nil ∧ s.alarm s.head ≤ s.ticks ∧ s.kpc = .asleep then some { s with kpc := .woken } else some s
  | .procalarm p time =>
    match s.pc p with
    | .idle _ => if p = nil then none else some <| s.goto p (.asked time (s.alarm p ≠ 0))
    | _       => none
  | .proc p           => s.procStep p
  | .kproc b          => s.kprocStep b

end State

def machine : Machine State Action where
  init s := s.alarm = (fun _ => 0) ∧ s.head = nil ∧ s.lock = none ∧ s.pc = (fun _ => .idle 0) ∧ s.kpc = .woken
  step   := State.step

-- An alarm that was set: how many notes it posted, and how many it had posted when it was cancelled or replaced.
structure Alarm where
  when  : Nat
  posts : Nat
  ended : Option Nat
deriving DecidableEq

-- The alarms of each process, the last first.
abbrev Record := Proc → List Alarm

def Alarm.stop (a : Alarm) : Alarm :=
  { a with ended := some (a.ended.getD a.posts) }

def Alarm.post (a : Alarm) : Alarm :=
  { a with posts := a.posts + 1 }

namespace Record

def note (s : State) (a : Action) (r : Record) : Record :=
  match a with
  | .proc p  =>
    match s.pc p with
    | .left time _     => if time = 0 then Function.update r p ((r p).modifyHead .stop) else r
    | .link when _ _ _ => Function.update r p (⟨when, 0, none⟩ :: (r p).modifyHead .stop)
    | _                => r
  | .kproc b =>
    match s.kpc with
    | .post _ rp => if b then Function.update r rp ((r rp).modifyHead .post) else r
    | _          => r
  | _        => r

end Record

def tracked : Machine (State × Record) Action :=
  machine.track Record (fun _ _ => []) Record.note

-- The counter of the ticks does not wrap, not even before the time of an alarm.
def Asked (s : State × Record) : Action → Prop
  | .tick   => s.fst.ticks + 1 < 2 ^ 32
  | .proc p =>
    match s.fst.pc p with
    | .left time _ => ms2tk time + s.fst.ticks < 2 ^ 32
    | _            => True
  | _       => True

-- No alarm is cancelled when it has just been looked at, none is for the tick 0, and there is room for its note.
def Fair (s : State × Record) : Action → Prop
  | .proc p  =>
    match s.fst.pc p with
    | .left time _     => time = 0 → s.fst.kpc.posting ≠ some p
    | .link when _ _ _ => when ≠ 0
    | _                => True
  | .kproc b =>
    match s.fst.kpc with
    | .post _ _ => b = true
    | _         => True
  | _        => True

instance (s : State × Record) : ∀ a, Decidable (Asked s a)
  | .tick             => inferInstanceAs (Decidable (_ < _))
  | .proc p           => by unfold Asked; dsimp only; split <;> infer_instance
  | .checkalarms      => isTrue trivial
  | .procalarm _ _    => isTrue trivial
  | .kproc _          => isTrue trivial

instance (s : State × Record) : ∀ a, Decidable (Fair s a)
  | .proc p        => by unfold Fair; dsimp only; split <;> infer_instance
  | .kproc b       => by unfold Fair; dsimp only; split <;> infer_instance
  | .tick          => isTrue trivial
  | .checkalarms   => isTrue trivial
  | .procalarm _ _ => isTrue trivial

def State.Le (s : State) (p q : Proc) : Prop :=
  s.alarm p ≠ 0 → s.alarm q ≠ 0 → s.alarm p ≤ s.alarm q

-- The processes on the list.
structure Listed (s : State) (l : List Proc) : Prop where
  chain  : Chain s.palarm nil s.head l
  mem    : ∀ p, s.alarm p ≠ 0 → p ∈ l
  sorted : l.Pairwise s.Le

structure Kept (s : State × Record) : Prop where
  list  : (∀ p, s.fst.lock ≠ some (.proc p)) → ∃ l, l.Nodup ∧ Listed s.fst l
  -- No alarm posts more than one note, nor any after it is cancelled or replaced.
  posts : ∀ p, ∀ a ∈ s.snd p, a.posts ≤ 1 ∧ ∀ n ∈ a.ended, a.posts = n
  -- An alarm that has not posted is still there,
  waits : ∀ p, ∀ a ∈ s.snd p, a.ended = none → a.posts = 0 → s.fst.alarm p = a.when ∧ a.when ≠ 0
  -- is seen when its time has come,
  wakes : (∀ p, s.fst.lock ≠ some (.proc p)) → s.fst.kpc = .asleep → (∃ p, s.fst.alarm p ≠ 0 ∧ s.fst.alarm p ≤ s.fst.ticks) →
    ∃ t, s.fst.step .checkalarms = some t ∧ t.kpc = .woken
  -- and has posted when all is done.
  done  : ∀ now, s.fst.kpc = .look now → s.fst.head = nil ∨ now < s.fst.alarm s.fst.head →
    ∀ p, ∀ a ∈ s.snd p, a.ended = none → a.when ≤ now → a.posts = 1

end Port.Procalarm
