import Nix.Lib.Words
import Nix.Lib.Machine
import Nix.Lib.Parties

-- Semaphores in user memory, acquired and released by compare-and-swap.
namespace Port.Sema

section

abbrev HZ : Nat := 100

-- The clock's ticks in milliseconds.
def TK2MS (x : Nat) : Nat :=
  x * (1000 / HZ)

-- `addr` is the same in all calls.
inductive Call
  | semacquire (block : Bool)
  | tsemacquire (ms : Int)
  | semrelease (delta : Int)
deriving DecidableEq

inductive Ret
  | i (n : Int)
  | error
deriving DecidableEq

-- Which of the two loops a process is in. `t` is the time when it went to sleep.
inductive Loop
  | sem
  | tsem (ms : Int) (t : Nat)
deriving DecidableEq

-- What is left to do after `semwakeup`.
inductive After
  | acquire (k : Loop) (acquired : Bool)
  | release (value : Int)
deriving DecidableEq

-- The end of `semacquire` and of `tsemacquire`, after the list was left.
def Loop.ret (acquired : Bool) : Loop → Ret
  | .sem       => if acquired then .i 1 else .error
  | .tsem ms _ => if ms ≤ 0 then .i 0 else if acquired then .i 1 else .error

def After.ret : After → Ret
  | .acquire k acquired => k.ret acquired
  | .release value      => .i value

-- `fastcas` and `cas` are the compare-and-swaps of `canacquire` before the loop and in it.
inductive Pc (P : Type*)
  | user
  | args
  | fast
  | fastcas (value : Int)
  | queue (k : Loop)
  | waiting (k : Loop)
  | can (k : Loop)
  | cas (k : Loop) (value : Int)
  | timer (k : Loop)
  | sleep (k : Loop)
  | asleep (k : Loop)
  | awake (k : Loop)
  | dequeue (k : Loop) (acquired : Bool)
  | passon (k : Loop) (acquired : Bool)
  | lock (n : Int) (a : After)
  | scan (rest : List P) (n : Int) (a : After)
  | wakeup (p : P) (rest : List P) (n : Int) (a : After)
  | read (delta : Int)
  | add (delta value : Int)
deriving DecidableEq

-- `waiting` is that of the process' `phore`, and `trend` tells if its timer is set. `wakeups` are those of it which
-- others, a note's sender or the timer, are about to do. `took` is how much its call took from the semaphore.
structure Proc (P : Type*) where
  pc          : Pc P
  call        : Call
  waiting     : Bool
  trend       : Bool
  notepending : Bool
  wakeups     : Nat
  took        : Nat
deriving DecidableEq

-- A call that is done.
structure Done where
  call : Call
  ret  : Ret
  took : Nat
deriving DecidableEq

-- `sema` is the list of the segment with its lock. `init` is what the semaphore had at first, and `released` is what
-- was added to it.
structure State (P : Type*) where
  value    : Int
  sema     : List P
  lock     : Option P
  ticks    : Nat
  proc     : P → Proc P
  init     : Int
  released : Int
  done     : List Done

variable {P : Type*} [DecidableEq P]

namespace State

variable (s : State P) (p : P)

def set (x : Proc P) : State P :=
  { s with proc := Function.update s.proc p x }

def goto (c : Pc P) : State P :=
  s.set p { s.proc p with pc := c }

-- The call returns, or raises an error.
def finish (r : Ret) : State P :=
  { s.set p { s.proc p with pc := .user, took := 0 } with
    done := s.done ++ [{ call := (s.proc p).call, ret := r, took := (s.proc p).took }] }

-- The compare-and-swap of `canacquire`, where `c` is what follows when it succeeds.
def take (c : Pc P) : State P :=
  { s.set p { s.proc p with pc := c, took := (s.proc p).took + 1 } with value := s.value - 1 }

-- `wakeup`, and what a note's sender does.
def ready (q : P) : State P :=
  match (s.proc q).pc with
  | .asleep k => s.goto q (.awake k)
  | _         => s

-- `semawoke`, and `tfn`.
def semawoke : Loop → Bool
  | .sem     => !(s.proc p).waiting
  | .tsem .. => !(s.proc p).trend || !(s.proc p).waiting

-- `canacquire` failed before the loop.
def block : Option (State P) :=
  match (s.proc p).call with
  | .semacquire block => some <| if block then s.goto p (.queue .sem) else s.finish p (.i 0)
  | .tsemacquire ms   => some <| if ms = 0 then s.finish p (.i 0) else s.goto p (.queue (.tsem ms 0))
  | .semrelease _     => none

-- The next step of a process.
def run : Option (State P) :=
  match (s.proc p).pc with
  | .user           => none
  | .args           =>
    match (s.proc p).call with
    | .semrelease delta => some <| if delta < 0 ∨ s.value < 0 then s.finish p .error else s.goto p (.read delta)
    | _                 => some <| if s.value < 0 then s.finish p .error else s.goto p .fast
  | .fast            => if s.value > 0 then some <| s.goto p (.fastcas s.value) else s.block p
  | .fastcas v       => some <| if s.value = v then (s.take p .user).finish p (.i 1) else s.goto p .fast
  | .queue k        =>
    if s.lock = none then
      some { s.set p { s.proc p with pc := .waiting k, waiting := false } with sema := s.sema ++ [p] }
    else
      none
  | .waiting k      => some <| s.set p { s.proc p with pc := .can k, waiting := true }
  | .can k          => some <| s.goto p (if s.value > 0 then .cas k s.value else .timer k)
  | .cas k v        => some <| if s.value = v then s.take p (.dequeue k true) else s.goto p (.can k)
  | .timer k        =>
    match k with
    | .sem       => some <| s.goto p (.sleep .sem)
    | .tsem ms _ => some <| s.set p { s.proc p with pc := .sleep (.tsem ms s.ticks), trend := true }
  | .sleep k        => some <| s.goto p (if s.semawoke p k ∨ (s.proc p).notepending then .awake k else .asleep k)
  | .asleep _       => none
  | .awake k        =>
    if (s.proc p).notepending then
      some <| s.set p { s.proc p with pc := .dequeue k false, notepending := false, trend := false }
    else match k with
      | .sem       => some <| s.goto p (.waiting .sem)
      | .tsem ms t =>
        let ms := int32 (ms - TK2MS (s.ticks - t))
        some <| s.set p
          { s.proc p with
            pc    := if ms ≤ 0 then .dequeue (.tsem ms t) false else .waiting (.tsem ms t)
            trend := false }
  | .dequeue k a    => if s.lock = none then some { s.goto p (.passon k a) with sema := s.sema.erase p } else none
  | .passon k a     => some <| if (s.proc p).waiting then s.finish p (k.ret a) else s.goto p (.lock 1 (.acquire k a))
  | .lock n a       => if s.lock = none then some { s.goto p (.scan s.sema n a) with lock := some p } else none
  | .scan rest n a  =>
    match rest with
    | []        => some { s.finish p a.ret with lock := none }
    | q :: rest =>
      if n ≤ 0 then
        some { s.finish p a.ret with lock := none }
      else if (s.proc q).waiting then
        some <| (s.set q { s.proc q with waiting := false }).goto p (.wakeup q rest n a)
      else
        some <| s.goto p (.scan rest n a)
  | .wakeup q rest n a => some <| (s.ready q).goto p (.scan rest (n - 1) a)
  | .read delta     => some <| s.goto p (.add delta s.value)
  | .add delta v    => some <|
    if s.value = v then
      { s.goto p (.lock delta (.release (int32 (v + delta)))) with
        value    := int32 (v + delta)
        released := s.released + delta }
    else
      s.goto p (.read delta)

end State

inductive Act (P : Type*)
  | call (p : P) (c : Call)
  | run (p : P)
  -- A note comes and is taken at the end of a system call.
  | postnote (p : P)
  | notify (p : P)
  -- The timer of a process, and the wakeups that a note or the timer lead to.
  | twakeup (p : P)
  | ready (p : P)
  | tick

def step (s : State P) : Act P → Option (State P)
  | .call p c   => if (s.proc p).pc = .user then some <| s.set p { s.proc p with pc := .args, call := c } else none
  | .run p      => s.run p
  | .postnote p =>
    some <| s.set p { s.proc p with notepending := true, wakeups := (s.proc p).wakeups + 1 }
  | .notify p   => if (s.proc p).pc = .user then some <| s.set p { s.proc p with notepending := false } else none
  | .twakeup p  =>
    if (s.proc p).trend then
      some <| s.set p { s.proc p with trend := false, wakeups := (s.proc p).wakeups + 1 }
    else
      none
  | .ready p    =>
    if (s.proc p).wakeups = 0 then none else
      some <| (s.set p { s.proc p with wakeups := (s.proc p).wakeups - 1 }).ready p
  | .tick       => some { s with ticks := s.ticks + 1 }

structure Init (s : State P) : Prop where
  value    : 0 ≤ s.value
  sema     : s.sema = []
  lock     : s.lock = none
  pc       : ∀ p, (s.proc p).pc = .user
  took     : ∀ p, (s.proc p).took = 0
  init     : s.init = s.value
  released : s.released = 0
  done     : s.done = []

def machine : Machine (State P) (Act P) where
  init := Init
  step := step

end

variable {P : Type*} [Fintype P] [DecidableEq P]

-- The list has the process' `phore`.
def Pc.OnQueue : Pc P → Prop
  | .waiting _ | .can _ | .cas .. | .timer _ | .sleep _ | .asleep _ | .awake _ | .dequeue .. => True
  | _                                                                                        => False

def Pc.Locked : Pc P → Prop
  | .scan .. | .wakeup .. => True
  | _                     => False

def Pc.Asleep : Pc P → Prop
  | .asleep _ => True
  | _         => False

-- It found nothing since it has set `waiting`, and is going to sleep.
def Pc.Commits : Pc P → Prop
  | .timer _ | .sleep _ | .asleep _ => True
  | _                               => False

-- What `semwakeup` has still to look at.
def Pc.rest : Pc P → List P
  | .scan rest .. | .wakeup _ rest .. => rest
  | _                                 => []

def Pc.wakes : Pc P → Option P
  | .wakeup q .. => some q
  | _            => none

def Call.acquires : Call → Bool
  | .semrelease _ => false
  | _             => true

-- It was an acquire and has returned 1.
def Done.acquired (d : Done) : Bool :=
  d.call.acquires && d.ret = .i 1

-- How much of the semaphore is going to be looked at, or to be passed on, before `r` needs to be woken: a process takes
-- its part when it tries or when it is woken, and `semwakeup` has one for everyone it has not come to yet.
def Proc.tokens (r : P) (x : Proc P) : Int :=
  match x.pc with
  | .waiting _ | .timer _ | .sleep _ | .asleep _ | .awake _ | .dequeue .. | .passon .. => if x.waiting then 0 else 1
  | .can _ | .cas ..                                                                  => if x.waiting then 1 else 2
  | .lock n _                                                                         => max n 0
  | .scan rest n _                                                                    => if r ∈ rest then max n 0 else 0
  | .wakeup _ rest n _                                                                => if r ∈ rest then max (n - 1) 0 else 0
  | _                                                                                 => 0

def Proc.Committed (x : Proc P) : Prop :=
  x.waiting = true ∧ x.pc.Commits

-- A call in a loop has time left, and it has it when it takes something.
def Loop.Runs : Loop → Prop
  | .sem       => True
  | .tsem ms _ => ms ≠ 0

def Loop.Returns : Loop → Prop
  | .sem       => True
  | .tsem ms _ => 0 < ms

def After.Ok (x : Proc P) : After → Prop
  | .acquire k acquired => x.call.acquires ∧ x.took = (if acquired then 1 else 0) ∧ (acquired → k.Returns)
  | .release _          => x.call.acquires = false ∧ x.took = 0

def Proc.Ok (x : Proc P) : Prop :=
  match x.pc with
  | .user | .args                                   => x.took = 0
  | .fast                                            => x.took = 0 ∧ x.call.acquires
  | .fastcas v                                       => x.took = 0 ∧ x.call.acquires ∧ 0 < v
  | .queue k | .waiting k | .can k | .timer k       => x.took = 0 ∧ x.call.acquires ∧ k.Runs
  | .sleep k | .asleep k | .awake k                 => x.took = 0 ∧ x.call.acquires ∧ k.Runs
  | .cas k v                                        => x.took = 0 ∧ x.call.acquires ∧ k.Runs ∧ 0 < v
  | .dequeue k a | .passon k a                      => After.Ok x (.acquire k a)
  | .lock _ a | .scan _ _ a | .wakeup _ _ _ a       => After.Ok x a
  | .read delta | .add delta _                      => x.took = 0 ∧ x.call.acquires = false ∧ 0 ≤ delta

structure Sound (s : State P) : Prop where
  value  : 0 ≤ s.value
  nodup  : s.sema.Nodup
  sema   : ∀ p, p ∈ s.sema ↔ (s.proc p).pc.OnQueue
  lock   : ∀ p, s.lock = some p ↔ (s.proc p).pc.Locked
  rest   : ∀ p, ∀ q ∈ (s.proc p).pc.rest, q ∈ s.sema
  tokens : ∀ r, (s.proc r).Committed → s.value ≤ tally (Proc.tokens r) s.proc
  place  : ∀ p, (s.proc p).Ok
  sum    : s.value + tally (fun x => (x.took : Int)) s.proc + (s.done.map Done.took).sum = s.init + s.released
  done   : ∀ d ∈ s.done, d.took = if d.acquired then 1 else 0

-- A process that sleeps although its `waiting` is not set is being woken.
def Heard (s : State P) : Prop :=
  ∀ p, (s.proc p).pc.Asleep → (s.proc p).waiting = false → ∃ q, (s.proc q).pc.wakes = some p

omit [Fintype P] in
theorem Proc.tokens_nonneg (r : P) (x : Proc P) : 0 ≤ x.tokens r := by
  rw [Proc.tokens]
  split <;> first | (split <;> omega) | omega

variable {s s' : State P} {p q : P} {y : Proc P}

-- A process comes to `y`.
structure Moves (s s' : State P) (p : P) (y : Proc P) : Prop where
  proc   : s'.proc = Function.update s.proc p y
  value  : 0 ≤ s'.value
  tokens : s'.value ≤ 0 ∨ (∀ r, (s.proc r).Committed → s'.value + (s.proc p).tokens r ≤ s.value + y.tokens r) ∧
    (y.Committed → (s.proc p).Committed)
  nodup  : s'.sema.Nodup
  others : ∀ q ≠ p, (q ∈ s'.sema ↔ q ∈ s.sema)
  sema   : p ∈ s'.sema ↔ y.pc.OnQueue
  free   : s'.sema = s.sema ∨ s.lock = none
  lock   : Passes s.lock s'.lock p (s.proc p).pc.Locked y.pc.Locked
  rest   : ∀ q ∈ y.pc.rest, q ∈ s'.sema
  place  : y.Ok
  init   : s'.init = s.init
  sum    : s'.value + y.took + (s'.done.map Done.took).sum + s.released =
    s.value + (s.proc p).took + (s.done.map Done.took).sum + s'.released
  done   : ∀ d ∈ s'.done, d.took = if d.acquired then 1 else 0

omit [Fintype P] [DecidableEq P] in
theorem Pc.locked_of_rest {c : Pc P} (h : q ∈ c.rest) : c.Locked := by
  cases c <;> trivial

omit [Fintype P] [DecidableEq P] in
theorem Pc.Commits.onQueue {c : Pc P} (h : c.Commits) : c.OnQueue := by
  cases c <;> trivial

omit [Fintype P] [DecidableEq P] in
theorem After.Ok.done {a : After} (h : a.Ok y) : y.took = if (Done.mk y.call a.ret y.took).acquired then 1 else 0 := by
  cases a
  case release => simp [Done.acquired, h.left, h.right]
  case acquire k acquired =>
    obtain ⟨hacq, htook, hk⟩ := h
    cases k <;> cases acquired
    case tsem.true => simp [Done.acquired, After.ret, Loop.ret, hacq, htook, Int.not_le.mpr (hk rfl)]
    case tsem.false ms _ => by_cases hms : ms ≤ 0 <;> simp [Done.acquired, After.ret, Loop.ret, hacq, htook, hms]
    all_goals simp [Done.acquired, After.ret, Loop.ret, hacq, htook]

omit [Fintype P] in
theorem update_proc {R : P → Proc P → Prop} (ho : ∀ r, r ≠ p → R r (s.proc r)) (hp : R p y) (r : P) :
    R r (Function.update s.proc p y r) := by
  by_cases hr : r = p
  · subst hr
    rwa [Function.update_self]
  · rw [Function.update_of_ne hr]
    exact ho r hr

theorem Sound.move (hs : Sound s) (hm : Moves s s' p y) : Sound s' := by
  constructor
  case value => exact hm.value
  case nodup => exact hm.nodup
  case sema =>
    intro r
    rw [hm.proc]
    refine update_proc (R := fun r z => r ∈ s'.sema ↔ z.pc.OnQueue) (fun r hr => ?_) hm.sema r
    rw [hm.others r hr, hs.sema]
  case lock =>
    have hy : s'.proc p = y := by rw [hm.proc, Function.update_self]
    have hlock := hm.lock
    rw [← hy] at hlock
    refine hlock.owner (fun r => (s'.proc r).pc.Locked) hs.lock fun r hr => ?_
    rw [hm.proc, Function.update_of_ne hr]
  case rest =>
    intro r
    rw [hm.proc]
    refine update_proc (R := fun r z => ∀ q ∈ z.pc.rest, q ∈ s'.sema) (fun r hr q hq => ?_) hm.rest r
    rcases hm.free with he | hfree
    · exact he ▸ hs.rest r q hq
    · have := (hs.lock r).mpr (Pc.locked_of_rest hq)
      rw [hfree] at this
      contradiction
  case tokens =>
    intro r hr
    rw [hm.proc] at hr ⊢
    rcases hm.tokens with hnone | ⟨htokens, hcommitted⟩
    · exact Int.le_trans hnone <| tally_nonneg (Proc.tokens_nonneg r) _
    · have hr : (s.proc r).Committed :=
        update_proc (R := fun r z => z.Committed → (s.proc r).Committed) (fun _ _ => id) hcommitted r hr
      have hle := hs.tokens r hr
      have hstep := htokens r hr
      rw [tally_update]
      omega
  case place =>
    intro r
    rw [hm.proc]
    exact update_proc (R := fun _ z => z.Ok) (fun r _ => hs.place r) hm.place r
  case sum =>
    have hsum := hs.sum
    have hstep := hm.sum
    rw [hm.proc, tally_update, hm.init]
    omega
  case done => exact hm.done

theorem Sound.set (hs : Sound s)
    (htokens : s.value ≤ 0 ∨ (∀ r, (s.proc r).Committed → (s.proc p).tokens r ≤ y.tokens r) ∧
      (y.Committed → (s.proc p).Committed))
    (hsema : y.pc.OnQueue ↔ (s.proc p).pc.OnQueue) (hlock : y.pc.Locked ↔ (s.proc p).pc.Locked)
    (hrest : ∀ q ∈ y.pc.rest, q ∈ s.sema) (hplace : y.Ok) (htook : y.took = (s.proc p).took) : Sound (s.set p y) :=
  hs.move
    { proc   := rfl
      value  := hs.value
      tokens := htokens.imp_right fun h => ⟨fun r hr => Int.add_le_add_left (h.left r hr) _, h.right⟩
      nodup  := hs.nodup
      others := fun _ _ => Iff.rfl
      sema   := (hs.sema p).trans hsema.symm
      free   := .inl rfl
      lock   := .inl ⟨rfl, hlock⟩
      rest   := hrest
      place  := hplace
      init   := rfl
      sum    := by rw [htook]; rfl
      done   := hs.done }

theorem Sound.finish {lock : Option P} {r : Ret} (hs : Sound s) (htokens : ∀ q, (s.proc q).Committed → (s.proc p).tokens q ≤ 0)
    (hsema : ¬ (s.proc p).pc.OnQueue) (hlock : Passes s.lock lock p (s.proc p).pc.Locked False)
    (hdone : (s.proc p).took = if (Done.mk (s.proc p).call r (s.proc p).took).acquired then 1 else 0) :
    Sound { s.finish p r with lock := lock } :=
  hs.move
    { proc   := rfl
      value  := hs.value
      tokens := .inr ⟨fun q hq => Int.add_le_add_left (htokens q hq) _, fun hc => hc.right.elim⟩
      nodup  := hs.nodup
      others := fun _ _ => Iff.rfl
      sema   := (hs.sema p).trans <| iff_of_false hsema id
      free   := .inl rfl
      lock   := hlock
      rest   := fun _ hq => absurd hq List.not_mem_nil
      place  := rfl
      init   := rfl
      sum    := by
        simp only [State.finish, State.set, List.map_append, List.sum_append, List.map_cons, List.map_nil, List.sum_cons, List.sum_nil]
        omega
      done   := by
        intro d hd
        rcases List.mem_append.mp hd with hd | hd
        · exact hs.done d hd
        · rw [List.mem_singleton.mp hd]
          exact hdone }

theorem Sound.leave {r : Ret} (hs : Sound s) (htokens : ∀ q, (s.proc q).Committed → (s.proc p).tokens q ≤ 0)
    (hsema : ¬ (s.proc p).pc.OnQueue) (hlock : ¬ (s.proc p).pc.Locked)
    (hdone : (s.proc p).took = if (Done.mk (s.proc p).call r (s.proc p).took).acquired then 1 else 0) :
    Sound (s.finish p r) :=
  hs.finish htokens hsema (.inl ⟨rfl, iff_of_false id hlock⟩) hdone

omit [Fintype P] in
theorem Heard.move (hh : Heard s) (hproc : s'.proc = Function.update s.proc p y)
    (hwakes : ∀ r, (s.proc p).pc.wakes = some r → y.pc.wakes = some r ∨ ¬ (s.proc r).pc.Asleep)
    (hasleep : y.pc.Asleep → y.waiting = false → (s.proc p).pc.Asleep ∧ (s.proc p).waiting = false) : Heard s' := by
  intro r hr hw
  rw [hproc] at hr hw
  have ⟨hr, hw⟩ : (s.proc r).pc.Asleep ∧ (s.proc r).waiting = false :=
    update_proc (R := fun r z => z.pc.Asleep → z.waiting = false → (s.proc r).pc.Asleep ∧ (s.proc r).waiting = false)
      (fun _ _ hr hw => ⟨hr, hw⟩) hasleep r hr hw
  obtain ⟨q, hq⟩ := hh r hr hw
  refine ⟨q, ?_⟩
  rw [hproc]
  exact update_proc (R := fun q z => (s.proc q).pc.wakes = some r → z.pc.wakes = some r) (fun _ _ => id)
    (fun h => (hwakes r h).resolve_right fun hn => hn hr) q hq

end Port.Sema
