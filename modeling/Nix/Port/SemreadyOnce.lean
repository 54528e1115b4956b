import Nix.Port.Semready
import Mathlib.Data.Fintype.Sum

namespace Port.Semready

open Port.Sem (unqueue)

variable {P X N : Type*}

-- It is in `sched`, or about to call it.
def Pc.Away : Pc P X → Prop
  | .sched _ | .gone _ => True
  | _ => False

-- What the states of the processes tell about the run queues, and about those who are to call `ready`.
structure Wakes (s : State P X N) : Prop where
  one     : ∀ {y a b}, s.Readying y a → s.Readying y b → a = b
  down    : ∀ {y a}, s.Readying y a → s.state y = .semdown
  away    : ∀ {y}, s.state y ≠ .running → (s.pc y).Away
  runq    : ∀ y, s.runq y = if s.state y = .ready then 1 else 0
  asleep  : ∀ {y}, s.state y = .semdown → s.readies y = 0
  readies : ∀ y, s.readies y ≤ 1

@[simp]
theorem Cont.readying?_next (c : Cont X) : (c.next : Pc P X).readying? = none := by
  cases c <;> rfl

@[simp]
theorem Slept.readying?_next (k : Slept X) : (k.next : Pc P X).readying? = none := by
  cases k <;> rfl

@[simp]
theorem readying?_afterqueue (ss : List X) (i : Nat) (n : Int) : (afterqueue ss i n : Pc P X).readying? = none := by
  rw [afterqueue]
  split <;> rfl

namespace Wakes

variable {s s' : State P X N} {t : Sems P X} {c : Pc P X} {p y : P} {x : X} {n : N} {k : Slept X} {w : Cont X} {a : P ⊕ N}

theorem once (h : Wakes s) : Once s where
  readies := h.readies
  runq y  := by
    rw [h.runq]
    split <;> omega

theorem init (h : Begins s) : Wakes s where
  one {y a b} ha _ := by cases a <;> simp [State.Readying, h.pc, h.npc, Pc.readying?, NotePc.readying?] at ha
  down {y a} ha := by cases a <;> simp [State.Readying, h.pc, h.npc, Pc.readying?, NotePc.readying?] at ha
  away hs    := absurd (h.state _) hs
  runq y     := by simp [h.runq, h.state]
  asleep hs  := h.readies _
  readies y  := by simp [h.readies]

theorem of_readying (h : Wakes s) (hr : ∀ {y a}, s'.Readying y a → s.Readying y a) (hst : s'.state = s.state)
    (hq : s'.runq = s.runq) (hrs : s'.readies = s.readies) (ha : ∀ y, (s.pc y).Away → (s'.pc y).Away) : Wakes s' where
  one hx hy   := h.one (hr hx) (hr hy)
  down hx     := hst ▸ h.down (hr hx)
  away hs     := ha _ <| h.away (hst ▸ hs)
  runq y      := by rw [hq, hst, h.runq]
  asleep hs   := by
    rw [hrs]
    exact h.asleep (hst ▸ hs)
  readies y   := hrs ▸ h.readies y

-- A step after which someone is to call `ready` for a process that sleeps, and that was left alone.
theorem of_decided (h : Wakes s) (hy : Sole s y) (hr : ∀ {z a}, s'.Readying z a → s.Readying z a ∨ z = y ∧ a = b)
    (hst : s'.state = s.state) (hq : s'.runq = s.runq) (hrs : s'.readies = s.readies)
    (ha : ∀ y, (s.pc y).Away → (s'.pc y).Away) : Wakes s' where
  one {z a c} hx hz := by
    cases hr hx <;> cases hr hz
    case inl.inl h₁ h₂ => exact h.one h₁ h₂
    case inl.inr h₁ h₂ => exact absurd (h₂.left ▸ h₁) (hy.right _)
    case inr.inl h₁ h₂ => exact absurd (h₁.left ▸ h₂) (hy.right _)
    case inr.inr h₁ h₂ => rw [h₁.right, h₂.right]
  down hx := by
    rw [hst]
    cases hr hx
    case inl hx => exact h.down hx
    case inr hx => exact hx.left ▸ hy.left
  away hs     := ha _ <| h.away (hst ▸ hs)
  runq y      := by rw [hq, hst, h.runq]
  asleep hs   := by
    rw [hrs]
    exact h.asleep (hst ▸ hs)
  readies y   := hrs ▸ h.readies y

theorem running (h : Wakes s) (hp : ¬(s.pc p).Away) : s.state p = .running :=
  Classical.not_not.mp fun hs => hp (h.away hs)

variable [DecidableEq P]

-- A step that changes what a process does that nobody is to call `ready` for.
theorem of_update {v : PState} {r d : Nat} (h : Wakes s) (hr : ∀ {y a}, s'.Readying y a → s.Readying y a)
    (hp : ∀ a, ¬s.Readying p a) (hst : s'.state = Function.update s.state p v) (hq : s'.runq = Function.update s.runq p r)
    (hrs : s'.readies = Function.update s.readies p d) (ha : ∀ y ≠ p, (s.pc y).Away → (s'.pc y).Away)
    (hv : v ≠ .running → (s'.pc p).Away) (hvr : r = if v = .ready then 1 else 0) (hvd : v = .semdown → d = 0)
    (hd : d ≤ 1) : Wakes s' where
  one hx hy := h.one (hr hx) (hr hy)
  down {y a} hx := by
    have hy : y ≠ p := fun hy => hp a (hr (hy ▸ hx))
    rw [hst, Function.update_of_ne hy]
    exact h.down (hr hx)
  away {y} hs := by
    rw [hst] at hs
    by_cases hy : y = p
    · rw [hy, Function.update_self] at hs
      exact hy ▸ hv hs
    · rw [Function.update_of_ne hy] at hs
      exact ha y hy (h.away hs)
  runq y := by
    have := h.runq y
    rw [hq, hst]
    by_cases hy : y = p <;> simp_all
  asleep {y} hs := by
    have := @h.asleep y
    rw [hst] at hs
    rw [hrs]
    by_cases hy : y = p <;> simp_all
  readies y := by
    have := h.readies y
    rw [hrs]
    by_cases hy : y = p <;> simp_all

theorem readying_of_goto (hc : c.readying? = none) (hr : (s.goto p t c).Readying y a) : s.Readying y a := by
  cases a
  case inl q =>
    by_cases hq : q = p
    · simp [State.Readying, State.goto, hq, hc] at hr
    · simpa [State.Readying, State.goto, hq] using hr
  case inr => exact hr

theorem away_of_goto (ha : (s.pc p).Away → c.Away) (hy : (s.pc y).Away) : ((s.goto p t c).pc y).Away := by
  by_cases hq : y = p
  · subst hq
    simpa [State.goto] using ha hy
  · simpa [State.goto, hq] using hy

theorem goto (h : Wakes s) (hc : c.readying? = none) (ha : (s.pc p).Away → c.Away) : Wakes (s.goto p t c) :=
  h.of_readying (readying_of_goto hc) rfl rfl rfl fun _ hy => away_of_goto ha hy

theorem goto_readying (h : Wakes s) (hy : Sole s y) (hp : ¬(s.pc p).Away) : Wakes (s.goto p t (.readying x y w)) := by
  refine h.of_decided (b := .inl p) hy (fun {z a} hr => ?_) rfl rfl rfl fun _ hz => away_of_goto (absurd · hp) hz
  cases a
  case inl q =>
    by_cases hq : q = p
    · exact .inr ⟨by simpa [State.Readying, State.goto, hq, Pc.readying?, eq_comm] using hr, by rw [hq]⟩
    · exact .inl <| by simpa [State.Readying, State.goto, hq] using hr
  case inr => exact .inl hr

theorem ready (h : Wakes s) (hy : Sole s y) : Wakes (s.ready y) := by
  have hq : s.runq y = 0 := (h.runq y).trans (by rw [hy.left]; rfl)
  have hr : s.readies y = 0 := h.asleep hy.left
  refine h.of_update id hy.right rfl rfl rfl (fun _ _ ha => ha) (fun _ => h.away ?_) ?_ ?_ ?_
  · rw [hy.left]
    decide
  all_goals simp [hq, hr]

theorem semdown (h : Wakes s) (hp : ¬(s.pc p).Away) : Wakes (s.semdown p t k) := by
  have hs := h.running hp
  refine h.of_update (p := p) (r := s.runq p) (readying_of_goto (t := t) rfl) (fun a ha => ?_) rfl
    (Function.update_eq_self _ _).symm rfl (fun _ _ ha => ?_) (fun _ => ?_) ?_ (fun _ => rfl) (Nat.zero_le 1)
  · exact nomatch hs.symm.trans (h.down ha)
  · exact away_of_goto (t := t) (fun _ => trivial) ha
  · simp [State.semdown, State.goto, Pc.Away]
  · simp [h.runq, hs]

theorem dispatch (h : Wakes s) (hs : s.dispatch p k = some s') : Wakes s' := by
  obtain ⟨hq, hs⟩ := Option.ite_none_right_eq_some.mp hs
  obtain rfl := Option.some.inj hs
  have hp := h.runq p
  have hr : s.state p = .ready := by grind
  refine h.of_update (p := p) (d := s.readies p) (readying_of_goto (t := s.toSems) k.readying?_next) (fun a ha => ?_) rfl rfl
    (Function.update_eq_self _ _).symm (fun y hy ha => ?_) (absurd rfl) ?_ (fun hv => nomatch hv) (h.readies p)
  · exact nomatch hr.symm.trans (h.down ha)
  · simpa [State.goto, hy] using ha
  · simp [hp, hr]

theorem readying (h : Wakes s) (hpc : s.pc p = .readying x y w) :
    Wakes ((s.goto p s.toSems (.wakeup x true w)).ready y) := by
  have hr : s.Readying y (.inl p) := by simp [State.Readying, hpc, Pc.readying?]
  refine (h.goto rfl (by simp [hpc, Pc.Away])).ready ⟨h.down hr, fun a ha => ?_⟩
  -- Nobody else was to call `ready` for it.
  obtain rfl := h.one hr (readying_of_goto rfl ha)
  simp [State.Readying, State.goto, Pc.readying?] at ha

variable [DecidableEq X]

theorem acquire (h : Wakes s) (hc : c.readying? = none) (hp : ¬(s.pc p).Away) (hs : s.acquire p x c = some s') :
    Wakes s' := by
  obtain ⟨-, hs⟩ := Option.ite_none_right_eq_some.mp hs
  exact Option.some.inj hs ▸ h.goto hc (absurd · hp)

theorem wake {b : Bool} (h : Wakes s) (hy : b = true → ∀ y ∈ (s.q x).head?.filter (· ≠ p), Sole s y)
    (hp : ¬(s.pc p).Away) (hs : s.wake p x b w = some s') : Wakes s' := by
  rw [State.wake] at hs
  split at hs
  case h_1 => contradiction
  case h_2 q₀ _ hq =>
    split at hs
    case isTrue => exact Option.some.inj hs ▸ h.goto rfl (absurd · hp)
    case isFalse hb =>
      split at hs
      case isTrue => exact Option.some.inj hs ▸ h.goto rfl (absurd · hp)
      case isFalse hne =>
        have hy := hy (by simpa using hb) q₀ (by simp [hq, hne])
        exact Option.some.inj hs ▸ h.goto_readying hy hp

theorem wakeup {b : Bool} (h : Wakes s) (hp : ¬(s.pc p).Away) : Wakes (s.wakeup p x b w) := by
  rw [State.wakeup]
  split
  · exact h.goto rfl (absurd · hp)
  · exact h.goto w.readying?_next (absurd · hp)

theorem run [DecidableEq N] (h : Wakes s) (hd : Decides (N := N) s (.run p)) (hs : s.run p = some s') : Wakes s' := by
  cases hpc : s.pc p <;> simp only [State.run, hpc, Option.some.injEq, reduceCtorEq] at hs
  case sched k => exact hs ▸ h.goto rfl fun _ => trivial
  case gone k => exact h.dispatch hs
  case readying => exact hs ▸ h.readying hpc
  all_goals have hp : ¬(s.pc p).Away := by simp [hpc, Pc.Away]
  all_goals have hg {t : Sems P X} {c : Pc P X} (hc : c.readying? = none) : Wakes (s.goto p t c) := h.goto hc (absurd · hp)
  case wakelock | sleeplock | killedlock => exact h.acquire rfl hp hs
  case altlock | dequeuelock =>
    obtain ⟨_, -, hs⟩ := Option.bind_eq_some_iff.mp hs
    exact h.acquire rfl hp hs
  case wakeup => exact hs ▸ h.wakeup hp
  case wake => exact h.wake (fun hb y hy => hd y (by simpa [State.decides, hpc, hb] using hy)) hp hs
  case undo | killed => exact hs ▸ hg rfl
  case queue => exact hs ▸ h.semdown hp
  case altdown => exact hs ▸ h.semdown hp
  case altqueue =>
    obtain ⟨_, -, rfl⟩ := Option.map_eq_some_iff.mp hs
    exact hg (readying?_afterqueue _ _ _)
  case altdec =>
    obtain ⟨_, -, rfl⟩ := Option.map_eq_some_iff.mp hs
    exact hg (by split <;> rfl)
  case dequeue =>
    obtain ⟨_, -, rfl⟩ := Option.map_eq_some_iff.mp hs
    rw [State.dequeue]
    split <;> exact hg rfl
  case sleep =>
    subst hs
    split <;> exact hg rfl
  case done => exact hs ▸ hg (by split <;> rfl)
  case altdone =>
    split at hs
    · obtain ⟨_, -, rfl⟩ := Option.map_eq_some_iff.mp hs
      exact hg (by split <;> rfl)
    · exact Option.some.inj hs ▸ hg (by split <;> rfl)

section
variable [DecidableEq N]

omit [DecidableEq X] [DecidableEq P] in
theorem readying_of_ngoto {c : NotePc P} (hc : c.readying? = none) (hr : (s.ngoto n c).Readying y a) :
    s.Readying y a := by
  cases a
  case inl => exact hr
  case inr m =>
    by_cases hm : m = n
    · simp [State.Readying, State.ngoto, hm, hc] at hr
    · simpa [State.Readying, State.ngoto, hm] using hr

omit [DecidableEq X] [DecidableEq P] in
theorem ngoto (h : Wakes s) {c : NotePc P} (hc : c.readying? = none) : Wakes (s.ngoto n c) :=
  h.of_readying (readying_of_ngoto hc) rfl rfl rfl fun _ ha => ha

omit [DecidableEq X] [DecidableEq P] in
theorem ngoto_readying (h : Wakes s) (hy : Sole s y) : Wakes (s.ngoto n (.readying y)) := by
  refine h.of_decided (b := .inr n) hy (fun {z a} hr => ?_) rfl rfl rfl fun _ ha => ha
  cases a
  case inl => exact .inl hr
  case inr m =>
    by_cases hm : m = n
    · exact .inr ⟨by simpa [State.Readying, State.ngoto, hm, NotePc.readying?, eq_comm] using hr, by rw [hm]⟩
    · exact .inl <| by simpa [State.Readying, State.ngoto, hm] using hr

omit [DecidableEq X] in
theorem postnote (h : Wakes s) (hd : Decides s (.poster n)) (hs : s.postnote n = some s') : Wakes s' := by
  cases hpc : s.npc n <;> simp only [State.postnote, hpc, Option.some.injEq, reduceCtorEq] at hs
  case test y =>
    subst hs
    split
    case isTrue hy => exact h.ngoto_readying <| hd y (by simp [State.decides, hpc, hy])
    case isFalse => exact h.ngoto rfl
  case readying y =>
    subst hs
    have hr : s.Readying y (.inr n) := by simp [State.Readying, hpc, NotePc.readying?]
    refine (h.ngoto rfl).ready ⟨h.down hr, fun a ha => ?_⟩
    obtain rfl := h.one hr (readying_of_ngoto rfl ha)
    simp [State.Readying, State.ngoto, NotePc.readying?] at ha

theorem step {a : Act P X N} (h : Wakes s) (hd : Decides s a) (hs : s.step a = some s') : Wakes s' := by
  cases a <;> simp only [State.step] at hs
  case store =>
    exact Option.some.inj hs ▸ ⟨h.one, h.down, h.away, h.runq, h.asleep, h.readies⟩
  case run => exact h.run hd hs
  case poster => exact h.postnote hd hs
  case postnote => 
    obtain ⟨-, hs⟩ := Option.ite_none_right_eq_some.mp hs
    exact Option.some.inj hs ▸ h.ngoto rfl
  all_goals
    obtain ⟨hp, hs⟩ := Option.ite_none_right_eq_some.mp hs
    refine Option.some.inj hs ▸ h.goto ?_ (by simp [hp, Pc.Away])
    first | rfl | (split <;> rfl)

end

end Wakes

variable [DecidableEq P] [DecidableEq X] [DecidableEq N] {s : State P X N}

theorem wakes : (machine P X N).Invariant Decides Wakes where
  init := .init
  step := .step

-- Where whoever decides to make a process ready is alone in that, and finds it in state Semdown, `ready` is called
-- at most once for each time the process sleeps, and it is at most once on the run queues.
theorem ready_once (hr : (machine P X N).Reachable Decides s) : Once s :=
  (wakes.holds hr).once

section
-- A process, another one, and two semaphores. Two notes may be posted at a time.

def start : State (Fin 2) (Fin 2) (Fin 2) where
  np      := fun _ => 0
  q       := fun _ => []
  lock    := fun _ => none
  waitsem := fun _ => none
  state   := fun _ => .running
  runq    := fun _ => 0
  readies := fun _ => 0
  pc      := fun _ => .idle
  npc     := fun _ => .idle

theorem begins_start : Begins start where
  q _       := rfl
  lock _    := rfl
  state _   := rfl
  runq _    := rfl
  readies _ := rfl
  pc _      := rfl
  npc _     := rfl

instance (s : State (Fin 2) (Fin 2) (Fin 2)) (y : Fin 2) : DecidablePred (s.Readying y)
  | .inl p => inferInstanceAs (Decidable ((s.pc p).readying? = some y))
  | .inr n => inferInstanceAs (Decidable ((s.npc n).readying? = some y))

instance (s : State (Fin 2) (Fin 2) (Fin 2)) (y : Fin 2) : Decidable (Sole s y) :=
  inferInstanceAs (Decidable (_ ∧ _))

instance (s : State (Fin 2) (Fin 2) (Fin 2)) (a : Act (Fin 2) (Fin 2) (Fin 2)) : Decidable (Decides s a) :=
  inferInstanceAs (Decidable (∀ y ∈ s.decides a, Sole s y))

-- The process sleeps on the semaphore, and has given the processor up.
def sleeps : List (Act (Fin 2) (Fin 2) (Fin 2)) :=
  [.store 0 (-1), .semsleep 0 0 false, .run 0, .run 0, .run 0, .run 0]

-- The other one gives it a ticket, and takes it off the queue.
def takes : List (Act (Fin 2) (Fin 2) (Fin 2)) :=
  [.store 0 0, .semwakeup 1 0, .run 1, .run 1, .run 1]

-- The ticket makes it ready, and it goes on. It sleeps again, and a note makes it ready.
def rested : State (Fin 2) (Fin 2) (Fin 2) :=
  (((machine (Fin 2) (Fin 2) (Fin 2)).guarded Decides).exec start
    (sleeps ++ takes ++ [Act.run 1, .run 1, .run 0, .run 0] ++ sleeps ++ [Act.postnote 0 0, .poster 0, .poster 0])).get
      (by decide +kernel)

theorem rested_once : rested.readies 0 = 1 ∧ rested.state 0 = .ready ∧ Once rested :=
  ⟨by decide +kernel, by decide +kernel, ready_once <| .guarded (.init begins_start) (Option.some_get _).symm⟩

-- It is taken off the queue, and a note is posted while its state is still Semdown.
def woken : State (Fin 2) (Fin 2) (Fin 2) :=
  ((machine (Fin 2) (Fin 2) (Fin 2)).exec start
    (sleeps ++ takes ++ [Act.postnote 0 0, .poster 0, .run 1, .poster 0])).get (by decide +kernel)

theorem readied_twice :
    (machine (Fin 2) (Fin 2) (Fin 2)).Reachable (fun _ _ => True) woken ∧ woken.runq 0 = 2 ∧ ¬Once woken := by
  have hr : woken.readies 0 = 2 := by decide +kernel
  refine ⟨(Machine.Reachable.init begins_start).exec (fun _ _ _ => trivial) (Option.some_get _).symm, by decide +kernel,
    fun h => ?_⟩
  exact absurd (h.readies 0) (by omega)

end

end Port.Semready
