import Nix.Lib.Machine

namespace Port.Portclock

inductive Tmode
  -- the time is in ns from now
  | Trelative
  -- the time is the period in ns
  | Tperiodic
  | other
deriving DecidableEq, Repr

def vlong (n : Int) : Int :=
  n.bmod (2 ^ 64)

structure Timer (P : Type*) where
  tmode : Tmode
  tns   : Int
  -- whether there is a function, the clock of the processor has none
  tf    : Bool
  -- whose list the timer is on
  tt    : Option P
  twhen : Int

inductive Op
  | timeradd | timerdel
deriving DecidableEq, Repr

-- Where a caller of `timeradd` or `timerdel` is, which runs on the processor `p`. What is done under the lock
-- of a list is a single step.
inductive Pc (P T : Type*)
  | idle
  -- at `ilock(nt)`
  | lock (op : Op) (p : P) (t : T)
  -- at `tt = nt->tt`
  | look (op : Op) (p : P) (t : T)
  -- it waits for the lock of the list of `q`, to take the timer off
  | tdel (op : Op) (p : P) (t : T) (q : P)
  -- it waits for the lock of its own list, to put the timer on
  | tadd (p : P) (t : T)
deriving DecidableEq

-- What `timerintr` has in its variables.
structure Frame where
  now         : Int
  callhzclock : Nat
deriving DecidableEq

-- Where a processor is in `timerintr`.
inductive Intr (T : Type*)
  | idle
  -- it waits for the lock, to look at the head of its list
  | look (k : Frame)
  -- it has taken a timer off the list and is about to call its function
  | call (t : T) (k : Frame)
  -- the function has been called, and when it has returned the lock is taken again
  | called (t : T) (k : Frame)
  | hzclock
deriving DecidableEq

structure State (P T C : Type*) where
  -- the timers on the list of a processor
  head  : P → List T
  timer : T → Timer P
  lock  : T → Option C
  pc    : C → Pc P T
  intr  : P → Intr T
  -- what `timerset` was called with last
  alarm : P → Int
  now   : Int
  ticks : Int → Int
  panic : Option String
  -- the timers that `timerdel` has returned for, and `timeradd` has not been called for since
  gone  : T → Bool

inductive Act (P T C : Type*)
  -- the caller has set the fields of the timer
  | timeradd (c : C) (p : P) (t : T) (tmode : Tmode) (tns : Int) (tf : Bool)
  | timerdel (c : C) (p : P) (t : T)
  -- the next step of a caller
  | call (c : C)
  | timerintr (p : P)
  -- the next step of `timerintr`
  | intr (p : P)
  -- time passes
  | fastticks (now : Int)
  | todsetfreq (ticks : Int → Int)

variable {P T C : Type*} [DecidableEq P] [DecidableEq T] [DecidableEq C]

namespace State

variable (s : State P T C)

def twhen (t : T) : Int := (s.timer t).twhen

def fastticks : Int := s.now

def ns2fastticks (ns : Int) : Int := s.ticks ns

def timerset (p : P) (when : Int) : State P T C :=
  { s with alarm := Function.update s.alarm p when }

def goto (c : C) (pc : Pc P T) : State P T C :=
  { s with pc := Function.update s.pc c pc }

def igoto (p : P) (i : Intr T) : State P T C :=
  { s with intr := Function.update s.intr p i }

-- The loop over the list looks for the first timer that comes later.
def insert (when : T → Int) (nt : T) : List T → List T
  | []     => [nt]
  | t :: l => if when t > when nt then nt :: t :: l else t :: insert when nt l

-- The timer `nt`, with the fields of `x`, is put on the list of `p`.
def enlist (p : P) (nt : T) (x : Timer P) : State P T C × Int :=
  let timer := Function.update s.timer nt { x with tt := some p }
  let l := insert (fun t => (timer t).twhen) nt (s.head p)
  ({ s with timer := timer, head := Function.update s.head p l }, if l.head? = some nt then x.twhen else 0)

-- The time that the period is counted from.
def lasttime (p : P) (nt : Timer P) : Int :=
  if nt.twhen = 0 then
    match (s.head p).find? fun t => (s.timer t).tmode = .Tperiodic ∧ (s.timer t).tns = nt.tns with
    | some t => s.twhen t
    | none   => s.fastticks
  else nt.twhen

def period (ns : Int) : Int :=
  if s.ns2fastticks ns = 0 then 1 else s.ns2fastticks ns

def tadd (p : P) (nt : T) : Except String (State P T C × Int) :=
  let x := s.timer nt
  if x.tt ≠ none then .error "nt->tt == nil"
  else match x.tmode with
    | .other => .error "timer"
    | .Trelative =>
      let tns := if x.tns ≤ 0 then 1 else x.tns
      .ok <| s.enlist p nt { x with tns := tns, twhen := vlong (s.fastticks + s.ns2fastticks tns) }
    | .Tperiodic =>
      if x.tns < 100000 then .error "nt->tns >= 100000"
      else .ok <| s.enlist p nt { x with twhen := vlong (s.lasttime p x + s.period x.tns) }

def tdel (dt : T) : State P T C × Int :=
  match (s.timer dt).tt with
  | none => (s, 0)
  | some q =>
    if dt ∈ s.head q then
      let l := (s.head q).erase dt
      ({ s with
          head  := Function.update s.head q l
          timer := Function.update s.timer dt { s.timer dt with tt := none } },
        if (s.head q).head? = some dt then l.head?.elim 0 s.twhen else 0)
    else (s, 0)

-- The lock of the timer is given up, and the call returns.
def unlock (c : C) (t : T) : State P T C :=
  { s with lock := Function.update s.lock t none }.goto c .idle

-- `timerdel` returns.
def deleted (c : C) (t : T) : State P T C :=
  { s with gone := Function.update s.gone t true }.unlock c t

def call (c : C) : Option (State P T C) :=
  match s.pc c with
  | .idle => none
  | .lock op p t =>
    if s.lock t = none then
      some <| { s with
        lock := Function.update s.lock t (some c)
        gone := Function.update s.gone t (op == Op.timerdel && s.gone t) }.goto c (.look op p t)
    else none
  | .look op p t =>
    match (s.timer t).tt with
    | some q => some <| s.goto c (.tdel op p t q)
    | none   => some <| if op = .timeradd then s.goto c (.tadd p t) else s.deleted c t
  | .tdel .timeradd p t _ => some <| (s.tdel t).fst.goto c (.tadd p t)
  | .tdel .timerdel p t q =>
    let (s', when) := s.tdel t
    some <| (if when ≠ 0 ∧ q = p then s'.timerset p ((s'.head q).head?.elim 0 s'.twhen) else s').deleted c t
  | .tadd p t =>
    match s.tadd p t with
    | .error e       => some { s with panic := some e }
    | .ok (s', when) => some <| (if when ≠ 0 then s'.timerset p when else s').unlock c t

-- `timerintr` looks at the head of the list, with the lock held.
def loop (p : P) (k : Frame) : State P T C :=
  match s.head p with
  | [] => s.igoto p .idle
  | t :: l =>
    if s.twhen t > k.now then
      (s.timerset p (s.twhen t)).igoto p (if k.callhzclock = 0 then .idle else .hzclock)
    else if (s.timer t).tt ≠ some p then { s with panic := some "t->tt == tt" }
    else { s with
      head  := Function.update s.head p l
      timer := Function.update s.timer t { s.timer t with tt := none } }.igoto p (.call t k)

def timerintr (p : P) : Option (State P T C) :=
  match s.intr p with
  | .idle => none
  | .look k => some <| s.loop p k
  | .call t k =>
    some <| s.igoto p <| .called t <| if (s.timer t).tf then k else { k with callhzclock := k.callhzclock + 1 }
  | .called t k =>
    if (s.timer t).tmode = .Tperiodic then
      match s.tadd p t with
      | .error e    => some { s with panic := some e }
      | .ok (s', _) => some <| s'.loop p k
    else some <| s.loop p k
  | .hzclock => some <| s.igoto p .idle

def step : Act P T C → Option (State P T C)
  | .timeradd c p t tmode tns tf =>
    if s.pc c = .idle then
      some <| { s with
        timer := Function.update s.timer t { s.timer t with tmode := tmode, tns := tns, tf := tf } }.goto c
          (.lock .timeradd p t)
    else none
  | .timerdel c p t => if s.pc c = .idle then some <| s.goto c (.lock .timerdel p t) else none
  | .call c => s.call c
  | .timerintr p =>
    if s.intr p = .idle then some <| s.igoto p (.look { now := s.fastticks, callhzclock := 0 }) else none
  | .intr p => s.timerintr p
  | .fastticks n => some { s with now := n }
  | .todsetfreq f => some { s with ticks := f }

end State

-- No timer is on a list, and nobody is at one.
structure Begins (s : State P T C) : Prop where
  head  : ∀ p, s.head p = []
  tt    : ∀ t, (s.timer t).tt = none
  lock  : ∀ t, s.lock t = none
  pc    : ∀ c, s.pc c = .idle
  intr  : ∀ p, s.intr p = .idle
  panic : s.panic = none
  gone  : ∀ t, s.gone t = false

-- A panic ends the run.
def machine (P T C : Type*) [DecidableEq P] [DecidableEq T] [DecidableEq C] : Machine (State P T C) (Act P T C) where
  init := Begins
  step s a := if s.panic = none then s.step a else none

end Port.Portclock
