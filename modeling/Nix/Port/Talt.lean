import Nix.Port.SyssemAlt

-- A process waits for the first of several operations on tubes that can be done. The slots of a tube are left out: what
-- is done to them is one step of the process that has the ticket.
namespace Port

-- The semaphores of a tube.
inductive TubeSem (T : Type*)
  | nhole (t : T)
  | nmsg (t : T)
deriving DecidableEq

inductive Talt.Op
  | TSND
  | TRCV
  | TNBSND
  | TNBRCV
  | TNOP
deriving DecidableEq

structure Talt (T M : Type*) where
  t  : T
  m  : M
  op : Talt.Op
deriving DecidableEq

namespace Talt

def Op.blocks : Op → Bool
  | .TSND | .TRCV => true
  | _             => false

section

variable {T M : Type*} (e : Talt T M)

-- The semaphore that the operation downs, and the one that it ups.
def down : TubeSem T :=
  match e.op with
  | .TSND | .TNBSND => .nhole e.t
  | _               => .nmsg e.t

def up : TubeSem T :=
  match e.op with
  | .TSND | .TNBSND => .nmsg e.t
  | _               => .nhole e.t

end

-- Where a process is: outside of `talt`, at the first loop, at the `downsem` of a non-blocking operation, in `altsems`,
-- at the slot of its entry, and at the `upsem` that ends the operation.
inductive Pc (T M : Type*)
  | user
  | switch (a : List (Talt T M)) (i : Nat) (ss : List (TubeSem T))
  | nb (a : List (Talt T M)) (i : Nat) (ss : List (TubeSem T))
  | altsems (a : List (Talt T M))
  | move (a : List (Talt T M)) (i : Nat)
  | upsem (a : List (Talt T M)) (i : Nat)
  | ret (a : List (Talt T M)) (r : Option Nat)
  | fatal
deriving DecidableEq

-- Beside the semaphores and the processes: the tickets that the last `talt` of a process took, the operations that it
-- did, and the entries that it tried at a moment without a ticket.
structure State (P T M : Type*) where
  sem     : Sem.State P (TubeSem T)
  pc      : P → Pc T M
  took    : P → TubeSem T → Int
  moved   : P → List (Talt T M)
  refused : P → List Nat

inductive Act (P T M : Type*)
  | talt (p : P) (a : List (Talt T M))
  -- what the other operations on tubes do to the semaphores
  | upsem (p : P) (x : TubeSem T)
  | downsem (p : P) (x : TubeSem T) (dontblock : Bool)
  | run (p : P)

def Pc.isuser {T M : Type*} : Pc T M → Bool
  | .user | .ret .. => true
  | _               => false

section

variable {P T M : Type*} [DecidableEq P] [DecidableEq T]

namespace State

variable (s : State P T M) (p : P)

def goto (c : Pc T M) : State P T M :=
  { s with pc := Function.update s.pc p c }

def act (a : Sem.Act P (TubeSem T)) : Option (State P T M) :=
  (Sem.step s.sem a).map fun sem => { s with sem := sem }

-- A step of `downsem` or `altsems`, which may take a ticket.
def takes : Option (State P T M) :=
  (s.sem.run p).map fun sem =>
    { s with sem := sem, took := Function.update s.took p (Sem.takes s.sem sem (s.took p)) }

def start (a : List (Talt T M)) : State P T M :=
  { s with
    took    := Function.update s.took p 0
    moved   := Function.update s.moved p []
    refused := Function.update s.refused p [] }.goto p (.switch a 0 [])

def switch (a : List (Talt T M)) (i : Nat) (ss : List (TubeSem T)) : Option (State P T M) :=
  match a[i]? with
  | none   =>
    if ss = [] then
      some <| s.goto p (.ret a none)
    else
      (s.act (.altsems p ss)).map (·.goto p (.altsems a))
  | some e =>
    match e.op with
    | .TSND | .TRCV     => some <| s.goto p (.switch a (i + 1) (ss ++ [e.down]))
    | .TNBSND | .TNBRCV => (s.act (.downsem p e.down true)).map (·.goto p (.nb a i ss))
    | .TNOP             => some <| s.goto p (.switch a (i + 1) ss)

-- `downsem` returns 0 at `ret`, and -1 right after its test.
def nb (a : List (Talt T M)) (i : Nat) (ss : List (TubeSem T)) : Option (State P T M) :=
  (s.takes p).map fun s' =>
    match s.sem.pc p with
    | .ret _    => s'.goto p (.move a i)
    | .test x .. =>
      if s'.sem.pc p = .idle then
        { s' with
          refused := if s.sem.np x ≤ 0 then Function.update s'.refused p (s'.refused p ++ [i]) else s'.refused }.goto p
          (.switch a (i + 1) ss)
      else
        s'
    | _         => s'

def altsems (a : List (Talt T M)) : Option (State P T M) :=
  (s.takes p).map fun s' =>
    match s.sem.pc p with
    | .altret _ i => s'.goto p <| if a[i]?.any (·.op.blocks) then .move a i else .fatal
    | _           => s'

def move (a : List (Talt T M)) (i : Nat) : Option (State P T M) :=
  a[i]?.bind fun e =>
    (s.act (.upsem p e.up)).map fun s =>
      { s with moved := Function.update s.moved p (s.moved p ++ [e]) }.goto p (.upsem a i)

-- The next step of a process.
def run : Option (State P T M) :=
  match s.pc p with
  | .user | .ret ..   => s.act (.run p)
  | .switch a i ss    => s.switch p a i ss
  | .nb a i ss        => s.nb p a i ss
  | .altsems a        => s.altsems p a
  | .move a i         => s.move p a i
  | .upsem a i        => if s.sem.pc p = .idle then some <| s.goto p (.ret a (some i)) else s.act (.run p)
  | .fatal            => none

end State

def step (s : State P T M) : Act P T M → Option (State P T M)
  | .talt p a       => if (s.pc p).isuser ∧ s.sem.pc p = .idle ∧ a ≠ [] then some <| s.start p a else none
  | .upsem p x      => if (s.pc p).isuser then s.act (.upsem p x) else none
  | .downsem p x nb => if (s.pc p).isuser then s.act (.downsem p x nb) else none
  | .run p          => s.run p

structure Init (v₀ : TubeSem T → Nat) (s : State P T M) : Prop where
  sem : Sem.Created v₀ s.sem
  pc  : ∀ p, s.pc p = .user

-- No process has called `talt`.
def fresh (P M : Type*) (v₀ : TubeSem T → Nat) : State P T M where
  sem       := Sem.fresh v₀
  pc _      := .user
  took _    := 0
  moved _   := []
  refused _ := []

omit [DecidableEq T] in
theorem fresh_init (P M : Type*) [DecidableEq P] (v₀ : TubeSem T → Nat) : Init v₀ (fresh P M v₀) :=
  ⟨Sem.fresh_created v₀, fun _ => rfl⟩

def machine (P M : Type*) [DecidableEq P] (v₀ : TubeSem T → Nat) : Machine (State P T M) (Act P T M) where
  init := Init v₀
  step := step

end

end Talt

end Port

namespace Port.Sem

variable {P X : Type*} [DecidableEq P] [DecidableEq X] {s s' : State P X} {p p' : P} {x : X} {ss : List X} {t : X → Int}

-- What others may do to a process: they wake it up.
inductive Pc.Awoken : Pc X → Pc X → Prop
  | same (c : Pc X) : Awoken c c
  | asleep (x : X) : Awoken (.asleep x) (.done x)
  | altasleep (ss : List X) (i : Nat) : Awoken (.altasleep ss i) (.altdone ss i 0 (-1))

omit [DecidableEq X] in
theorem awoken_ready (s : State P X) (q : P) : (s.pc p).Awoken ((s.ready q).pc p) := by
  rw [State.ready]
  by_cases hp : p = q
  case pos =>
    subst hp
    split
    case h_1 x hx =>
      rw [hx]
      simpa [State.goto] using .asleep x
    case h_2 ss i hx =>
      rw [hx]
      simpa [State.goto] using .altasleep ss i
    case h_3 => exact .same _
  case neg => split <;> simpa [State.goto, hp] using .same _

theorem awoken_run (hs : s.run p' = some s') (hp : p ≠ p') : (s.pc p).Awoken (s'.pc p) := by
  have hsame (h : s'.pc p = s.pc p) : (s.pc p).Awoken (s'.pc p) := h ▸ .same _
  have hacquire {y : X} {c : Pc X} (hs : s.acquire p' y c = some s') : s'.pc p = s.pc p := by
    obtain ⟨-, hs⟩ := Option.ite_none_right_eq_some.mp hs
    obtain rfl := Option.some.inj hs
    exact Function.update_of_ne hp ..
  rw [State.run] at hs
  cases hpc : s.pc p' <;> rw [hpc] at hs <;> simp only [reduceCtorEq] at hs
  case wake x didwake c =>
    rw [State.wake] at hs
    split at hs
    case h_1 => contradiction
    case h_2 q₀ l hq =>
      obtain rfl := Option.some.inj hs
      have hready (t : State P X) (ht : t.pc = s.pc) (b : Prop) [Decidable b] :
          (s.pc p).Awoken ((if b then t.ready q₀ else t).pc p) := by
        rw [← ht]
        split
        · exact awoken_ready t q₀
        · exact .same _
      simp only [State.goto, Function.update_of_ne hp]
      exact hready _ (by split <;> rfl) _
  case wakelock => exact hsame <| hacquire hs
  case sleeplock => exact hsame <| hacquire hs
  case killedlock => exact hsame <| hacquire hs
  case altlock =>
    obtain ⟨y, -, hs⟩ := Option.bind_eq_some_iff.mp hs
    exact hsame <| hacquire hs
  case dequeuelock =>
    obtain ⟨y, -, hs⟩ := Option.bind_eq_some_iff.mp hs
    exact hsame <| hacquire hs
  case altdec | altqueue | dequeue | altret =>
    obtain ⟨y, -, hs⟩ := Option.map_eq_some_iff.mp hs
    subst hs
    apply hsame
    simp [State.altdec, State.dequeue, State.goto, State.down, State.release, State.setq, State.add, hp]
    try (split <;> simp [hp])
  case altdone =>
    apply hsame
    split at hs
    case isTrue =>
      obtain ⟨y, -, rfl⟩ := Option.map_eq_some_iff.mp hs
      exact Function.update_of_ne hp ..
    case isFalse =>
      obtain rfl := Option.some.inj hs
      exact Function.update_of_ne hp ..
  all_goals
    obtain rfl := Option.some.inj hs
    apply hsame
  case test | ret | undo | queue | killed => exact Function.update_of_ne hp ..
  case dec => exact Function.update_of_ne hp ..
  case wakeup x didwake c =>
    rw [State.wakeup]
    split
    · exact Function.update_of_ne hp ..
    · cases c <;> exact Function.update_of_ne hp ..
  case sleep => split <;> exact Function.update_of_ne hp ..
  case done => exact Function.update_of_ne hp ..

-- The process whose step it is.
def Act.proc : Act P X → P
  | .upsem p _ | .downsem p .. | .altsems p _ | .run p => p

theorem awoken_step {a : Act P X} (hs : step s a = some s') (hp : p ≠ a.proc) : (s.pc p).Awoken (s'.pc p) := by
  have hsame (h : s'.pc p = s.pc p) : (s.pc p).Awoken (s'.pc p) := h ▸ .same _
  cases a
  case upsem q x =>
    obtain ⟨-, hs⟩ := Option.ite_none_right_eq_some.mp hs
    obtain rfl := Option.some.inj hs
    apply hsame
    rw [State.upsem]
    split <;> exact Function.update_of_ne hp ..
  case downsem q x nb =>
    obtain ⟨-, hs⟩ := Option.ite_none_right_eq_some.mp hs
    obtain rfl := Option.some.inj hs
    exact hsame <| Function.update_of_ne hp ..
  case altsems q l =>
    obtain ⟨-, hs⟩ := Option.ite_none_right_eq_some.mp hs
    obtain ⟨x, -, rfl⟩ := Option.map_eq_some_iff.mp hs
    exact hsame <| Function.update_of_ne hp ..
  case run q => exact awoken_run hs hp

-- What a process has taken that tries to take a ticket without blocking.
inductive Pc.Tries (x : X) : Pc X → (X → Int) → Prop
  | test : Tries x (.test x true .proc) 0
  | dec : Tries x (.dec x true .proc) 0
  | ret : Tries x (.ret x) (Pi.single x 1)

-- What a process has taken that is in `altsems`.
def Pc.Alternates (ss : List X) (t : X → Int) : Pc X → Prop
  | .test _ nb (.altsems l _) | .dec _ nb (.altsems l _) => l = ss ∧ nb = true ∧ t = 0
  | .altdec l _ => l = ss ∧ t = 0
  | .altlock l .. | .altqueue l .. | .altasleep l _ | .altdone l .. =>
    l = ss ∧ ∃ x, ss[0]? = some x ∧ t = Pi.single x 1
  | .altret l r => l = ss ∧ ∃ x, ss[r]? = some x ∧ t = Pi.single x 1
  | _ => False

theorem run_test (hpc : s.pc p = .test x true .proc) (hs : s.run p = some s') :
    s'.np = s.np ∧ s'.pc p = if s.np x ≤ 0 then .idle else .dec x true .proc := by
  rw [State.run, hpc] at hs
  obtain rfl := Option.some.inj hs
  refine ⟨rfl, (Function.update_self ..).trans ?_⟩
  simp only [and_true, Caller.failure]

theorem run_dec (hpc : s.pc p = .dec x true .proc) (hx : 0 < s.np x) (hs : s.run p = some s') :
    s'.np = (s.add x (-1)).np ∧ s'.pc p = .ret x := by
  rw [State.run, hpc] at hs
  obtain rfl := Option.some.inj hs
  have hge : (s.add x (-1)).np x ≥ 0 := by
    simp only [State.add, Function.update_self]
    omega
  refine ⟨rfl, (Function.update_self ..).trans ?_⟩
  exact if_pos hge

theorem run_ret (hpc : s.pc p = .ret x) (hs : s.run p = some s') : s'.np = s.np ∧ s'.pc p = .idle := by
  rw [State.run, hpc] at hs
  obtain rfl := Option.some.inj hs
  exact ⟨rfl, Function.update_self ..⟩

theorem run_altret {r : Nat} (hpc : s.pc p = .altret ss r) (hs : s.run p = some s') : s'.np = s.np ∧ s'.pc p = .idle := by
  rw [State.run, hpc] at hs
  obtain ⟨y, -, rfl⟩ := Option.map_eq_some_iff.mp hs
  exact ⟨rfl, Function.update_self ..⟩

-- A non-blocking down decrements the integer only if there is a ticket.
def Finding (s : State P X) (p : P) : Prop :=
  match s.pc p with
  | .dec x true _ => 0 < s.np x
  | _             => True

instance (s : State P X) (p : P) : Decidable (Finding s p) := by
  unfold Finding
  split <;> infer_instance

omit [DecidableEq P] [DecidableEq X] in
theorem Finding.pos {k : Caller X} (h : Finding s p) (hpc : s.pc p = .dec x true k) : 0 < s.np x := by
  rwa [Finding, hpc] at h

theorem Pc.Alternates.awoken {c c' : Pc X} (h : c.Alternates ss t) (ha : c.Awoken c') : c'.Alternates ss t := by
  cases ha
  case same      => exact h
  case asleep    => exact h.elim
  case altasleep => exact h

theorem Pc.Tries.awoken {c c' : Pc X} (h : c.Tries x t) (ha : c.Awoken c') : c'.Tries x t := by
  cases ha
  case same => exact h
  all_goals cases h

omit [DecidableEq P] in
theorem single_pos {n : Int} (h : 0 < s.np x) (hn : n = (s.add x (-1)).np x) : 0 ≤ n := by
  rw [hn]
  simp only [State.add, Function.update_self]
  omega

theorem Alternates.run (hinv : Inv s) (h : (s.pc p).Alternates ss t) (hf : Finding s p) (hs : s.run p = some s')
    (hne : ∀ l r, s.pc p ≠ .altret l r) : (s'.pc p).Alternates ss (takes s s' t) := by
  have hv := hinv.valid p
  have hgoto {u : State P X} {c : Pc X} (hu : u.np = s.np) (hc : c.Alternates ss t) :
      ((u.goto p c).pc p).Alternates ss (takes s (u.goto p c) t) := by
    have hpc : (u.goto p c).pc p = c := Function.update_self ..
    rwa [hpc, Alt.takes_none (by exact hu)]
  have hacquire {y : X} {c : Pc X} (hs : s.acquire p y c = some s') (hc : c.Alternates ss t) :
      (s'.pc p).Alternates ss (takes s s' t) := by
    obtain ⟨-, hs⟩ := Option.ite_none_right_eq_some.mp hs
    obtain rfl := Option.some.inj hs
    exact hgoto rfl hc
  rw [State.run] at hs
  cases hpc : s.pc p <;> rw [hpc] at hs hv h <;> simp only [reduceCtorEq] at hs
  case test x nb k =>
    obtain rfl := Option.some.inj hs
    refine hgoto rfl ?_
    rcases k with _ | ⟨l, i⟩
    · exact h.elim
    · obtain ⟨rfl, rfl, rfl⟩ := h
      split
      · rw [Caller.failure]
        split
        · exact ⟨rfl, rfl, rfl⟩
        · exact ⟨rfl, rfl⟩
      · exact ⟨rfl, rfl, rfl⟩
  case dec x nb k =>
    obtain rfl := Option.some.inj hs
    rcases k with _ | ⟨l, i⟩
    · exact h.elim
    · obtain ⟨rfl, rfl, rfl⟩ := h
      have hx : l[i]? = some x := hv.left
      rw [Alt.takes_one (s := s) (x := x) (show (s.dec p x true _).np = _ from rfl)]
      simp only [State.dec, State.goto, Function.update_self, if_pos (single_pos (hf.pos hpc) rfl)]
      exact ⟨rfl, x, hx, rfl⟩
  case altdec l i =>
    obtain ⟨rfl, x, hx⟩ := hv
    obtain ⟨rfl, rfl⟩ := h
    rw [hx, Option.map_some] at hs
    obtain rfl := Option.some.inj hs
    rw [Alt.takes_one (s := s) (x := x) (show (s.altdec p x l 0).np = _ from rfl)]
    simp only [State.altdec, State.goto, Function.update_self]
    split <;> exact ⟨rfl, x, hx, rfl⟩
  case altlock l i n =>
    obtain ⟨rfl, hn, x, hx⟩ := hv
    rw [hx] at hs
    exact hacquire hs h
  case altqueue l i n =>
    obtain ⟨rfl, hn, x, hx⟩ := hv
    rw [hx, Option.map_some, if_neg (by omega)] at hs
    obtain rfl := Option.some.inj hs
    exact hgoto rfl h
  case altdone l i j r =>
    obtain ⟨rfl, x, hx, rfl⟩ := h
    obtain ⟨-, ⟨rfl, rfl, rfl⟩ | ⟨rfl, hv⟩⟩ := hv
    case inl =>
      obtain rfl := Option.some.inj hs
      exact hgoto rfl ⟨rfl, x, hx, rfl⟩
    case inr =>
      rcases hv with ⟨rfl, rfl, hw⟩ | ⟨rfl, rfl⟩
      · rw [if_pos Nat.zero_lt_one, hx, Option.map_some] at hs
        obtain rfl := Option.some.inj hs
        refine hgoto rfl ?_
        rw [if_pos (hw.trans hx)]
        exact ⟨rfl, x, hx, rfl⟩
      · obtain rfl := Option.some.inj hs
        exact hgoto rfl ⟨rfl, x, hx, rfl⟩
  case altret l r => exact absurd hpc <| hne l r
  all_goals exact h.elim

end Port.Sem
