import Nix.Lib.Machine

-- Processes that get application cores and call them.
namespace K10.Tcore

abbrev ICCOK : Int := 0
abbrev ICCTRAP : Int := 1
abbrev ICCSYSCALL : Int := 2

abbrev EXTC : Nat := 0
abbrev EXAC : Nat := 1
abbrev EXXC : Nat := 2

inductive Role
  | NIXTC
  | NIXKC
  | NIXAC
  | NIXXC
deriving DecidableEq

-- The functions that `runac` is given. `acpmc` is `acpmcsetctr` or `acpmcsetctl`, which stores what it returns.
inductive Fn
  | actouser
  | acsysret
  | actrapret
  | acpmc (rc : Int)
deriving DecidableEq

-- The type of the trap in `dbgreg`: `IdtIPI`, one of `IdtNM`, `IdtMF` and `IdtXF`, or another one.
inductive Trap
  | ipi
  | fpu
  | other
deriving DecidableEq

-- How a process came into the kernel: in its own core, or in `runacore` by the `rc` of its application core.
inductive Ctx
  | tc
  | syscall
  | trap (type : Trap)
deriving DecidableEq

inductive Procctl
  | toac
  | totc
deriving DecidableEq

-- Whom `getac` is called for: `rfork` without and with `RFPROC`, and `execac`.
inductive For (P : Type)
  | self
  | child (q : P)
  | execac
deriving DecidableEq

-- Who calls `stopac`: `procctl`, `pexit`, and `schedinit`.
inductive Stop
  | totc
  | exit
  | moribund
deriving DecidableEq

inductive Pc (P C : Type)
  | dead
  -- A new process, until it is ready, and one that never will be.
  | embryo (parent : P)
  | lost
  | user
  -- In a system call or a trap, and at the end of it.
  | kernel
  | leave
  -- `getac`, and what is done with its result.
  | getac (k : For P)
  | scan (k : For P)
  | found (k : For P) (mp : C)
  | unlock (k : For P) (mp : Option C)
  | assign (k : For P) (mp : C)
  | forked (q : P)
  -- `execac`, and its error label.
  | execac (flags : Nat)
  | failing (flags : Nat)
  | clearac
  -- `stopac`
  | stop (k : Stop)
  | stoplock (k : Stop) (mp : C)
  | stopac (k : Stop) (mp : C)
  | stopproc (k : Stop) (mp : C)
  | stopunlock (k : Stop)
  -- `runac`
  | runac (fn : Fn)
  | store (fn : Fn) (mp : C)
  | sched (fn : Fn) (mp : C)
deriving DecidableEq

structure Proc (P C : Type) where
  pc      : Pc P C
  ctx     : Ctx
  ac      : Option C
  procctl : Option Procctl
  wired   : Bool
  dbgreg  : Trap
  ready   : Bool

-- The core waits in `acsched` or in `actrap`, runs the process, or is about to clear `fn` after a function that returned,
-- or after it stored `rc` in `actrap` (`none`) or in `acsyscall` for a process, or to make the process ready.
inductive CorePc (P : Type)
  | acsched
  | actrap
  | user
  | returned
  | post (p : Option P)
  | ready (p : Option P)
deriving DecidableEq

-- What becomes of a function that was stored: what the core executed, the `rc` it stored, whether it cleared `fn`, and
-- the result of `runac`.
structure Call where
  fn       : Fn
  ran      : List Fn
  rc       : Option Int
  cleared  : Bool
  returned : Option Int
deriving DecidableEq

-- `calls` has the last one first.
structure Mach (P : Type) where
  online  : Bool
  nixtype : Role
  proc    : Option P
  fn      : Option Fn
  rc      : Int
  pc      : CorePc P
  calls   : List Call

-- `lock` is who has `nixaclock`.
structure State (P C : Type) where
  lock    : Option P
  machptr : List C
  proc    : P → Proc P C
  mach    : C → Mach P

variable {P C : Type} [DecidableEq P] [DecidableEq C]

def For.target (p : P) : For P → P
  | .child q => q
  | _        => p

-- An error of `getac`.
def For.error : For P → Pc P C
  | .child q => .forked q
  | _        => .kernel

def Stop.next : Stop → Pc P C
  | .totc     => .leave
  | .exit     => .stop .moribund
  | .moribund => .dead

namespace State

variable (s : State P C)

def setp (p : P) (x : Proc P C) : State P C :=
  { s with proc := Function.update s.proc p x }

def setm (mp : C) (m : Mach P) : State P C :=
  { s with mach := Function.update s.mach mp m }

-- The loop of `getac`.
def idle : Option C :=
  s.machptr.find? fun mp => (s.mach mp).online ∧ (s.mach mp).nixtype = .NIXAC ∧ (s.mach mp).proc = none

-- The end of a system call or of a trap. `none` is a panic, here and below.
def ret (p : P) : State P C :=
  let x := s.proc p
  match x.ctx, x.procctl with
  | .trap .fpu, _  => s.setp p { x with pc := .leave }
  | _, some .toac  => s.setp p { x with procctl := none, pc := .runac .actouser }
  | _, some .totc  => s.setp p { x with procctl := none, pc := .stop .totc }
  | _, none        => s.setp p { x with pc := .leave }

def leave (p : P) : State P C :=
  let x := s.proc p
  match x.ctx with
  | .tc      => s.setp p { x with pc := .user }
  | .syscall => s.setp p <| if x.ac = none then { x with ctx := .tc, pc := .user } else { x with pc := .runac .acsysret }
  | .trap t  =>
    s.setp p <| if t = .ipi ∧ x.ac = none then { x with ctx := .tc, pc := .user } else { x with pc := .runac .actrapret }

def assign (p : P) (mp : C) : For P → State P C
  | .self    => s.setp p { s.proc p with ac := some mp, procctl := some .toac, pc := .kernel }
  | .child q =>
    (s.setp q { s.proc q with ac := some mp, procctl := some .toac }).setp p { s.proc p with pc := .forked q }
  | .execac  => s.setp p { s.proc p with ac := some mp, pc := .execac EXAC }

def runac (p : P) (fn : Fn) : Option (State P C) := do
  let mp ← (s.proc p).ac
  let m := s.mach mp
  if ¬ m.online ∨ m.proc ≠ none ∧ m.proc ≠ some p then none else
    some <| (s.setm mp { m with rc := ICCOK }).setp p { s.proc p with pc := .store fn mp }

-- `sched` returns in `runac`.
def resume (p : P) (fn : Fn) (mp : C) : Option (State P C) :=
  let x := s.proc p
  let m := s.mach mp
  let s := s.setm mp { m with calls := m.calls.modifyHead fun c => { c with returned := some m.rc } }
  match fn with
  | .acpmc _ => some <| s.setp p { x with ready := false, pc := .kernel }
  | _        =>
    if m.rc = ICCTRAP then
      some <| s.setp p { x with ready := false, ctx := .trap x.dbgreg, pc := .kernel }
    else if m.rc = ICCSYSCALL then
      some <| s.setp p { x with ready := false, ctx := .syscall, pc := .kernel }
    else
      none

-- What a process does next.
def run (p : P) : Option (State P C) :=
  let x := s.proc p
  match x.pc with
  | .kernel          => some <| s.ret p
  | .leave           => some <| s.leave p
  | .getac k         => if s.lock ≠ none then none else some { s.setp p { x with pc := .scan k } with lock := some p }
  | .scan k          =>
    some <| s.setp p { x with pc := match s.idle with | some mp => .found k mp | none => .unlock k none }
  | .found k mp      =>
    some <| (s.setm mp { s.mach mp with proc := some (k.target p) }).setp p { x with pc := .unlock k (some mp) }
  | .unlock k mp     =>
    some { s.setp p { x with pc := match mp with | some mp => .assign k mp | none => k.error } with lock := none }
  | .assign k mp     => some <| s.assign p mp k
  | .forked q        => some <| (s.setp q { s.proc q with pc := .user }).setp p { x with pc := .kernel }
  | .execac flags    =>
    some <| s.setp p { x with procctl := if flags = EXAC then some .toac else x.procctl, pc := .kernel }
  | .failing flags   =>
    let s := match x.ac with
      | some mp => if flags = EXAC then s.setm mp { s.mach mp with proc := none } else s
      | none    => s
    some <| s.setp p { x with pc := .clearac }
  | .clearac         => some <| s.setp p { x with ac := none, pc := .kernel }
  | .stop k          =>
    match x.ac with
    | none    => some <| s.setp p { x with pc := k.next }
    | some mp => if (s.mach mp).proc ≠ some p then none else some <| s.setp p { x with pc := .stoplock k mp }
  | .stoplock k mp   => if s.lock ≠ none then none else some { s.setp p { x with pc := .stopac k mp } with lock := some p }
  | .stopac k mp     => some <| s.setp p { x with ac := none, pc := .stopproc k mp }
  | .stopproc k mp   => some <| (s.setm mp { s.mach mp with proc := none }).setp p { x with pc := .stopunlock k }
  | .stopunlock k    => some { s.setp p { x with pc := k.next } with lock := none }
  | .runac fn        => s.runac p fn
  | .store fn mp     =>
    let m := s.mach mp
    let call := { fn, ran := [], rc := none, cleared := false, returned := none }
    some <| (s.setm mp { m with fn := some fn, calls := call :: m.calls }).setp p { x with pc := .sched fn mp }
  | .sched fn mp     => if x.ready then s.resume p fn mp else none
  | .dead | .embryo _ | .lost | .user => none

def rfork (p : P) (RFPROC RFCORE RFCCORE : Bool) (q : P) : Option (State P C) :=
  let x := s.proc p
  if RFCORE ∧ RFCCORE ∨ RFCORE ∧ x.wired then
    some s
  else if ¬ RFPROC then
    some <|
      if RFCORE then s.setp p { x with pc := .getac .self }
      else if RFCCORE ∧ x.ac ≠ none then s.setp p { x with procctl := some .totc }
      else s
  else if (s.proc q).pc = .dead then
    some <|
      (s.setp q { s.proc q with pc := .embryo p, ctx := .tc, ac := none, procctl := none, wired := x.wired }).setp p
        { x with pc := if RFCORE then .getac (.child q) else .forked q }
  else
    none

def execac (p : P) (flags : Nat) : State P C :=
  if flags = EXTC ∨ flags = EXXC then s.setp p { s.proc p with pc := .execac flags }
  else if flags = EXAC then s.setp p { s.proc p with pc := .getac .execac }
  else s

-- What a core does next. `acsched` executes the function, and so does `actrap` where it returns.
def core (mp : C) : Option (State P C) :=
  let m := s.mach mp
  let execute (fn : Fn) (m : Mach P) := { m with calls := m.calls.modifyHead fun c => { c with ran := c.ran ++ [fn] } }
  let answer (rc : Int) (m : Mach P) := { m with rc, calls := m.calls.modifyHead fun c => { c with rc := some rc } }
  let clear (m : Mach P) := { m with fn := none, calls := m.calls.modifyHead fun c => { c with cleared := true } }
  match m.pc, m.fn with
  | .acsched, some (.acpmc rc) => some <| s.setm mp { answer rc (execute (.acpmc rc) m) with pc := .returned }
  | .acsched, some .actrapret  => some <| s.setm mp { execute .actrapret m with pc := .returned }
  | .acsched, some fn          => some <| s.setm mp { execute fn m with pc := .user }
  | .actrap, some .actrapret   => some <| s.setm mp { execute .actrapret m with pc := .user }
  | .actrap, some _            => some <| s.setm mp { m with pc := .acsched }
  | .returned, _               => some <| s.setm mp { clear m with pc := .acsched }
  | .post p, _                 => some <| s.setm mp { clear m with pc := .ready p }
  | .ready none, _             => do
    let p ← m.proc
    some <| (s.setp p { s.proc p with ready := true }).setm mp { m with pc := .actrap }
  | .ready (some p), _         => some <| (s.setp p { s.proc p with ready := true }).setm mp { m with pc := .acsched }
  | .user, _ | .acsched, none | .actrap, none => none

-- `actrap` up to where it clears `fn`, and `acsyscall`.
def actrap (mp : C) (type : Trap) : Option (State P C) := do
  let m := s.mach mp
  let p ← m.proc
  if m.pc ≠ .user then none else
    some <| (s.setp p { s.proc p with dbgreg := type }).setm mp
      { m with rc := ICCTRAP, pc := .post none, calls := m.calls.modifyHead fun c => { c with rc := some ICCTRAP } }

def acsyscall (mp : C) : Option (State P C) := do
  let m := s.mach mp
  let p ← m.proc
  if m.pc ≠ .user then none else
    some <| s.setm mp
      { m with
        rc := ICCSYSCALL, pc := .post (some p), calls := m.calls.modifyHead fun c => { c with rc := some ICCSYSCALL } }

end State

inductive Act (P C : Type)
  -- A process comes into the kernel of its own core, and makes a system call there or for its application core.
  | enter (p : P)
  | rfork (p : P) (RFPROC RFCORE RFCCORE : Bool) (q : P)
  | execac (p : P) (flags : Nat)
  | pmcwrite (p : P) (rc : Int)
  | pexit (p : P)
  -- An error of `rfork` or `execac`, and one of `execac` after its last `poperror`.
  | error (p : P)
  | late (p : P)
  | run (p : P)
  | core (mp : C)
  | actrap (mp : C) (type : Trap)
  | acsyscall (mp : C)

-- A process may make a system call.
def State.Calls (s : State P C) (p : P) : Prop :=
  (s.proc p).pc = .kernel ∧ ((s.proc p).ctx = .tc ∨ (s.proc p).ctx = .syscall)

instance (s : State P C) (p : P) : Decidable (s.Calls p) := by
  unfold State.Calls
  infer_instance

def step (s : State P C) : Act P C → Option (State P C)
  | .enter p             => if (s.proc p).pc = .user then some <| s.setp p { s.proc p with pc := .kernel } else none
  | .rfork p f₁ f₂ f₃ q  => if s.Calls p then s.rfork p f₁ f₂ f₃ q else none
  | .execac p flags      => if s.Calls p then some <| s.execac p flags else none
  | .pmcwrite p rc       =>
    if s.Calls p ∧ (s.proc p).ac ≠ none then some <| s.setp p { s.proc p with pc := .runac (.acpmc rc) } else none
  | .pexit p             => if (s.proc p).pc = .kernel then some <| s.setp p { s.proc p with pc := .stop .exit } else none
  | .error p             =>
    match (s.proc p).pc with
    | .forked q     => some <| (s.setp q { s.proc q with pc := .lost }).setp p { s.proc p with pc := .kernel }
    | .execac flags => some <| s.setp p { s.proc p with pc := .failing flags }
    | _             => none
  | .late p              =>
    match (s.proc p).pc with
    | .execac _ => some <| s.setp p { s.proc p with pc := .kernel }
    | _         => none
  | .run p               => s.run p
  | .core mp             => s.core mp
  | .actrap mp type      => s.actrap mp type
  | .acsyscall mp        => s.acsyscall mp

structure Init (s : State P C) : Prop where
  lock : s.lock = none
  pc   : ∀ p, (s.proc p).pc = .dead ∨ (s.proc p).pc = .user
  proc : ∀ p, (s.proc p).ctx = .tc ∧ (s.proc p).ac = none ∧ (s.proc p).ready = false
  mach : ∀ mp, (s.mach mp).proc = none ∧ (s.mach mp).fn = none ∧ (s.mach mp).pc = .acsched ∧ (s.mach mp).calls = []

def machine : Machine (State P C) (Act P C) where
  init := Init
  step := step

end K10.Tcore
