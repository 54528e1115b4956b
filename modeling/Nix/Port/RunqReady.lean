import Nix.Port.Runq
import Mathlib.Data.Fintype.BigOperators

namespace Port.Runq

section

open Finset (univ)

variable {P : Type*}

-- The counters, the ends and the bits are those of the lists.
structure Holds (s : Sched P) (l : Fin Nrq → List P) : Prop where
  fifos  : Fifos s.head s.tail s.rnext l
  n      : ∀ rq, s.n rq = (l rq).length
  nrdy   : s.nrdy = ∑ rq, ((l rq).length : Int)
  runvec : ∀ i, s.runvec.getLsbD i = true ↔ ∃ h : i < Nrq, l ⟨i, h⟩ ≠ []

theorem getLsbD_bit (rq : Fin Nrq) (i : Nat) : (Sched.bit rq).getLsbD i = true ↔ i = rq := by
  have : rq.val < 64 := rq.isLt.trans (by decide)
  simp only [Sched.bit, BitVec.getLsbD_shiftLeft, BitVec.getLsbD_one]
  simp only [Bool.and_eq_true, decide_eq_true_eq, Bool.not_eq_true', decide_eq_false_iff_not]
  omega

theorem sum_length_update (l : Fin Nrq → List P) (rq : Fin Nrq) (x : List P) :
    ∑ i, ((Function.update l rq x i).length : Int) = ∑ i, ((l i).length : Int) - (l rq).length + x.length := by
  have hl : (fun i => ((Function.update l rq x i).length : Int)) =
      Function.update (fun i => ((l i).length : Int)) rq x.length := by
    funext i
    by_cases hi : i = rq
    · simp [hi]
    · simp [hi]
  have hsum := Finset.add_sum_erase univ (fun i => ((l i).length : Int)) (Finset.mem_univ rq)
  rw [hl, Finset.sum_update_of_mem (Finset.mem_univ rq), ← Finset.erase_eq]
  omega

namespace Holds

variable {s : Sched P} {l : Fin Nrq → List P} {m m' : List P} {rq : Fin Nrq} {p : P} [DecidableEq P]

theorem link (h : Holds s l) (hl : l rq = m ++ m') (hp : ∀ j, p ∉ l j) :
    Holds (s.link rq p m.getLast? m'.head?) (Function.update l rq (m ++ p :: m')) where
  fifos := h.fifos.insert hl hp
  n i := by
    have hn := h.n i
    by_cases hi : i = rq
    · subst hi
      simp [Sched.link, hn, hl]
      omega
    · simp [Sched.link, hn, hi]
  nrdy := by
    rw [sum_length_update, ← h.nrdy, hl]
    simp [Sched.link]
    omega
  runvec i := by
    rw [Sched.link, BitVec.getLsbD_or, Bool.or_eq_true, h.runvec, getLsbD_bit]
    by_cases hi : i = rq
    · subst hi
      simp
    · have hne : ∀ hlt : i < Nrq, (⟨i, hlt⟩ : Fin Nrq) ≠ rq := fun _ he => hi (congrArg Fin.val he)
      simp [hi, hne]

theorem queueproc (h : Holds s l) (hp : ∀ j, p ∉ l j) :
    Holds (s.queueproc rq p) (Function.update l rq (l rq ++ [p])) := by
  have hlink := h.link (List.append_nil (l rq)).symm hp
  rw [← h.fifos.tl] at hlink
  exact hlink

theorem unlink (h : Holds s l) (hl : l rq = m ++ p :: m') :
    Holds (s.unlink rq p m.getLast?) (Function.update l rq (m ++ m')) where
  fifos := h.fifos.remove hl
  n i := by
    have hn := h.n i
    by_cases hi : i = rq
    · subst hi
      simp [Sched.unlink, hn, hl]
      omega
    · simp [Sched.unlink, hn, hi]
  nrdy := by
    rw [sum_length_update, ← h.nrdy, hl]
    simp [Sched.unlink]
    omega
  runvec i := by
    have hhd := (h.fifos.remove hl).hd rq
    rw [Function.update_self] at hhd
    have hrunvec : (s.unlink rq p m.getLast?).runvec =
        if m ++ m' = [] then s.runvec &&& ~~~Sched.bit rq else s.runvec := by
      simp only [Sched.unlink, hhd, List.head?_eq_none_iff]
    have hbit := getLsbD_bit rq i
    rw [hrunvec]
    by_cases hi : i = rq
    case pos =>
      subst hi
      split
      case isTrue he  => simp [he, hbit]
      case isFalse he => simp [he, h.runvec, hl]
    case neg =>
      have hne : ∀ hlt : i < Nrq, (⟨i, hlt⟩ : Fin Nrq) ≠ rq := fun _ he => hi (congrArg Fin.val he)
      have hclear : (Sched.bit rq).getLsbD i = false := by simpa [hi] using hbit
      have hlt : s.runvec.getLsbD i = true → i < 64 := BitVec.lt_of_getLsbD
      split <;> simp_all [h.runvec i]

omit [DecidableEq P] in
theorem queue (h : Holds s l) [Fintype P] : s.queue rq = l rq := by
  rw [Sched.queue, h.fifos.hd]
  exact (h.fifos.next rq).walk_head? (h.fifos.nodup rq).length_le_card

end Holds

end

variable {P C : Type*}

-- A process that is ready is on the list for its priority, other than those that are to be put there.
structure But (s : State P C) (l : Fin Nrq → List P) (off : P → Prop) : Prop where
  holds : Holds s.toSched l
  ready : ∀ p, ¬off p → (s.proc p).state = .ready → p ∈ l (s.proc p).priority

abbrev Queues (s : State P C) (l : Fin Nrq → List P) : Prop :=
  But s l fun _ => False

namespace But

variable {s s' : State P C} {l : Fin Nrq → List P} {ex : P → Prop} {p : P} {x : Proc C} {rq : Fin Nrq} {c : C} {e : Env}

theorem congr (h : But s l ex) (hs : s'.toSched = s.toSched) (hp : s'.proc = s.proc) : But s' l ex where
  holds := hs ▸ h.holds
  ready := hp ▸ h.ready

theorem off (h : Queues s l) (p : P) : But s l (· = p) where
  holds := h.holds
  ready q _ := h.ready q not_false

variable [DecidableEq P]

theorem setproc (h : But s l ex) (hx : ¬ex p → x.state = .ready → p ∈ l x.priority) : But (s.setproc p x) l ex where
  holds := h.holds
  ready q hq := by
    by_cases hqp : q = p
    · subst hqp
      simpa [State.setproc] using hx hq
    · simpa [State.setproc, hqp] using h.ready q hq

theorem setproc_off (h : But s l (· = p)) (hx : x.state = .ready → p ∈ l x.priority) : Queues (s.setproc p x) l where
  holds := h.holds
  ready q _ := by
    by_cases hqp : q = p
    · subst hqp
      simpa [State.setproc] using hx
    · simpa [State.setproc, hqp] using h.ready q hqp

theorem setproc_kept (h : But s l ex) (hs : x.state = (s.proc p).state)
    (hp : (s.proc p).state = .ready → (s.proc p).priority = x.priority) : But (s.setproc p x) l ex := by
  refine h.setproc fun hq hx => ?_
  have hr := hs ▸ hx
  exact hp hr ▸ h.ready p hq hr

theorem setproc_same (h : But s l ex) (hs : x.state = (s.proc p).state) (hp : x.priority = (s.proc p).priority) :
    But (s.setproc p x) l ex :=
  h.setproc_kept hs fun _ => hp.symm

theorem queueproc (h : But s l (· = p)) (hp : ∀ j, p ∉ l j) : ∃ l', Queues (s.queueproc p rq) l' := by
  refine ⟨_, h.holds.queueproc hp, fun q _ hq => ?_⟩
  by_cases hqp : q = p
  · subst hqp
    simp [State.queueproc]
  · simp only [State.queueproc, Function.update_of_ne hqp] at hq ⊢
    exact Fifos.mem_push.mpr <| .inl (h.ready q hqp hq)

variable [Fintype P]

theorem dequeueproc {o : Option P} (h : Queues s l) (hs : s.dequeueproc p rq busy = some (o, s')) :
    (o = none ∧ s' = s) ∨
      (o = some p ∧ s'.proc = s.proc ∧ ∃ l', But s' l' (· = p) ∧ ∀ j, p ∉ l' j) := by
  rw [State.dequeueproc] at hs
  split at hs
  case isTrue => exact .inl ⟨(Prod.ext_iff.mp (Option.some.inj hs)).left.symm, (Prod.ext_iff.mp (Option.some.inj hs)).right.symm⟩
  case isFalse =>
    obtain ⟨⟨a, b⟩, hfound, he⟩ := Option.map_eq_some_iff.mp hs
    rw [h.holds.fifos.hd] at hfound
    obtain ⟨m, m', hl, rfl, rfl, hstop, -⟩ := (h.holds.fifos.next rq).search_head? hfound
    cases m' with
    | nil =>
      obtain ⟨rfl, rfl⟩ := Prod.ext_iff.mp he
      exact .inl ⟨rfl, rfl⟩
    | cons q m' =>
      obtain rfl : q = p := by simpa using hstop q rfl
      simp only [List.head?_cons, Option.or_none] at he
      split at he
      case isTrue =>
        obtain ⟨rfl, rfl⟩ := Prod.ext_iff.mp he
        exact .inl ⟨rfl, rfl⟩
      case isFalse =>
        obtain ⟨rfl, rfl⟩ := Prod.ext_iff.mp he
        refine .inr ⟨rfl, rfl, _, ⟨h.holds.unlink hl, fun r hr hrs => ?_⟩, h.holds.fifos.not_mem_of_remove hl⟩
        exact Fifos.mem_of_not_remove hl (h.ready r not_false hrs) hr

theorem edfqueue {d : Edf} (h : But s l (· = p)) (hp : ∀ j, p ∉ l j) (hs : s.edfqueue p d = some s') :
    ∃ l', Queues s' l' := by
  obtain ⟨⟨a, b⟩, hfound, rfl⟩ := Option.map_eq_some_iff.mp hs
  rw [h.holds.fifos.hd] at hfound
  obtain ⟨m, m', hl, rfl, rfl, -, -⟩ := (h.holds.fifos.next PriEdf).search_head? hfound
  rw [Option.or_none]
  refine ⟨_, h.holds.link hl hp, fun q _ hq => (Fifos.mem_insert hl).mpr ?_⟩
  by_cases hqp : q = p
  · subst hqp
    simp
  · simp only [Function.update_of_ne hqp] at hq ⊢
    exact .inl (h.ready q hqp hq)

theorem edfready {done : Bool} (h : But s l (· = p)) (hp : ∀ j, p ∉ l j) (hs : s.edfready p e = some (done, s')) :
    if done then ∃ l', Queues s' l' else But s' l (· = p) := by
  rw [State.edfready] at hs
  split at hs
  case h_1 =>
    obtain ⟨rfl, rfl⟩ := Prod.ext_iff.mp (Option.some.inj hs)
    exact h
  case h_2 d hd =>
    split at hs
    · generalize (if d.sporadic then d else d.next e.now) = d' at hs
      dsimp only at hs
      split at hs
      · split at hs <;> obtain ⟨rfl, rfl⟩ := Prod.ext_iff.mp (Option.some.inj hs)
        · exact h.setproc fun hn => absurd rfl hn
        · exact ⟨l, h.setproc_off fun hr => nomatch hr⟩
      · obtain ⟨s₁, hq, he⟩ := Option.map_eq_some_iff.mp hs
        obtain ⟨rfl, rfl⟩ := Prod.ext_iff.mp he
        exact h.edfqueue hp hq
    · obtain ⟨s₁, hq, he⟩ := Option.map_eq_some_iff.mp hs
      obtain ⟨rfl, rfl⟩ := Prod.ext_iff.mp he
      exact h.edfqueue hp hq

theorem schedready (h : But s l (· = p)) (hp : ∀ j, p ∉ l j) (hs : s.schedready c p e = some s') :
    ∃ l', Queues s' l' := by
  obtain ⟨⟨done, s₁⟩, hd, hs⟩ := Option.bind_eq_some_iff.mp hs
  have h₁ := h.edfready hp hd
  cases done with
  | true  => exact Option.some.inj hs ▸ h₁
  | false =>
    obtain ⟨pri, -, rfl⟩ := Option.map_eq_some_iff.mp hs
    exact (setproc h₁ fun hn => absurd rfl hn).queueproc hp

-- The process is taken off a queue and is not ready any more, or everything stays as it is.
theorem dequeued {o : Option P} (h : Queues s l) (hs : s.dequeueproc p rq busy = some (o, s')) :
    (o = none ∧ s' = s) ∨
      (o = some p ∧ s'.proc = s.proc ∧ ∀ x : Proc C, x.state ≠ .ready → ∃ l', Queues (s'.setproc p x) l') := by
  refine (h.dequeueproc hs).imp_right fun ⟨ho, hproc, l', h', _⟩ => ⟨ho, hproc, fun x hx => ?_⟩
  exact ⟨l', h'.setproc_off fun hr => absurd hr hx⟩

theorem releaseintr (h : Queues s l) (hp : (s.proc p).state = .waitrelease → ∀ j, p ∉ l j)
    (hs : s.releaseintr c p e busy = some s') : ∃ l', Queues s' l' := by
  have hedf (d : Edf) : Queues (s.setedf p d) l := h.setproc_same rfl rfl
  rw [State.releaseintr] at hs
  split at hs
  case h_1 => exact ⟨l, Option.some.inj hs ▸ h⟩
  case h_2 d _ =>
    split at hs
    case h_1 =>
      obtain ⟨⟨o, s₁⟩, hdeq, hready⟩ := Option.bind_eq_some_iff.mp hs
      rcases h.dequeueproc hdeq with ⟨rfl, rfl⟩ | ⟨rfl, -, l', h', hp'⟩
      · exact ⟨l, Option.some.inj hready ▸ hedf _⟩
      · simp only [if_true] at hready
        exact schedready (h'.setproc fun hn => absurd rfl hn) hp' hready
    case h_2 hst => exact schedready ((hedf _).off p) (hp hst) hs
    all_goals exact ⟨l, Option.some.inj hs ▸ by first | exact hedf _ | exact h⟩

theorem another [DecidableEq C] (h : Queues s l) (hs : s.another c e busy = some s') : ∃ l', Queues s' l' := by
  have hnext {s : State P C} (pri : Fin Npriq) (h : Queues s l) : Queues (s.nextqueue pri) l := h.congr rfl rfl
  obtain ⟨pri, -, hs⟩ := Option.bind_eq_some_iff.mp hs
  split at hs
  case h_1 => exact ⟨l, Option.some.inj hs ▸ hnext pri h⟩
  case h_2 p _ =>
    split at hs
    case isTrue => exact ⟨l, Option.some.inj hs ▸ hnext pri h⟩
    case isFalse =>
      have hu : Queues (s.setproc p ((s.proc p).updatecpu e (s.up c = some p))) l := h.setproc_same (by simp) (by simp)
      obtain ⟨npri, -, hs⟩ := Option.bind_eq_some_iff.mp hs
      split at hs
      case isTrue => exact ⟨l, Option.some.inj hs ▸ hnext pri hu⟩
      case isFalse =>
        obtain ⟨⟨o, s₁⟩, hdeq, rfl⟩ := Option.map_eq_some_iff.mp hs
        rcases hu.dequeueproc hdeq with ⟨rfl, rfl⟩ | ⟨rfl, -, l', h', hp'⟩
        · exact ⟨l, hu⟩
        · exact h'.queueproc hp'

variable [DecidableEq C]

omit [DecidableEq P] in
theorem smprunproc {i : Nat} (h : Queues s l) (hs : s.smprunproc c i = some s') : Queues s' l := by
  obtain ⟨_ | _, -, rfl⟩ := Option.map_eq_some_iff.mp hs <;> exact h.congr rfl rfl

omit [DecidableEq P] in
theorem mach0sched {n : Nat} (h : Queues s l) (hs : s.mach0sched c n = some s') : Queues s' l := by
  obtain ⟨_ | _, -, rfl⟩ := Option.map_eq_some_iff.mp hs <;> exact h.congr rfl rfl

theorem dequeue (h : Queues s l) (hs : s.dequeue c p rq busy = some s') : ∃ l', Queues s' l' := by
  obtain ⟨⟨o, s₁⟩, hdeq, rfl⟩ := Option.map_eq_some_iff.mp hs
  rcases h.dequeued hdeq with ⟨rfl, rfl⟩ | ⟨rfl, -, h'⟩
  · exact ⟨l, h.congr rfl rfl⟩
  · obtain ⟨l', h'⟩ := h' { s₁.proc p with state := .scheding, mp := some c } (fun hr => nomatch hr)
    exact ⟨l', h'.congr rfl rfl⟩

theorem give {n : Nat} {mp : Option C} (h : Queues s l) (hs : s.give c p rq busy n mp = some s') :
    ∃ l', Queues s' l' := by
  rw [State.give] at hs
  split at hs
  case h_1 => exact ⟨l, Option.some.inj hs ▸ h.congr rfl rfl⟩
  case h_2 mp _ =>
    obtain ⟨⟨o, s₁⟩, hdeq, rfl⟩ := Option.map_eq_some_iff.mp hs
    rcases h.dequeued hdeq with ⟨rfl, rfl⟩ | ⟨rfl, -, h'⟩
    · exact ⟨l, h.congr rfl rfl⟩
    · obtain ⟨l', h'⟩ := h' { s₁.proc p with state := .scheding, mp := some mp } (fun hr => nomatch hr)
      exact ⟨l', h'.congr rfl rfl⟩

omit [Fintype P] in
theorem go (h : Queues s l) (hs : s.go c p e = some s') : Queues s' l := by
  obtain ⟨x, -, hs⟩ := Option.bind_eq_some_iff.mp hs
  split at hs
  case isTrue =>
    have hx : Queues (s.setproc p { x with state := .running, mach := some c }) l := h.setproc fun _ hr => nomatch hr
    exact Option.some.inj hs ▸ hx.congr rfl rfl
  case isFalse => contradiction

theorem schedinit (h : Queues s l) (hp : (s.proc p).state = .running → ∀ j, p ∉ l j)
    (hs : s.schedinit c p e = some s') : ∃ l', Queues s' l' := by
  have hm : Queues (s.setmproc c none) l := h.congr rfl rfl
  rw [State.schedinit] at hs
  dsimp only at hs
  split at hs
  case h_1 hst => exact schedready (hm.off p) (hp hst) hs
  case h_2 => exact ⟨l, Option.some.inj hs ▸ hm.setproc fun _ hr => nomatch hr⟩
  case h_3 => exact ⟨l, Option.some.inj hs ▸ hm⟩

omit [DecidableEq C] in
theorem rfork {u : P} (h : Queues s l) (hp : ∀ j, p ∉ l j) (hs : s.rfork c p e u = some s') : ∃ l', Queues s' l' := by
  obtain ⟨-, hs⟩ := Option.ite_none_right_eq_some.mp hs
  exact schedready ((h.off p).setproc fun hn => absurd rfl hn) hp hs

omit [DecidableEq P] [Fintype P] [DecidableEq C] in
theorem begins (h : Begins s) : Queues s fun _ => [] where
  holds := {
    fifos := {
      hd       := h.head
      tl       := h.tail
      next _   := trivial
      nodup _  := List.nodup_nil
      disjoint := fun hb => nomatch hb }
    n      := h.n
    nrdy   := by simp [h.nrdy]
    runvec := by simp [h.runvec] }
  ready p _ hr := absurd hr (h.proc p)

theorem step {c₀ : C} {a : Act P C} (h : Queues s l) (ha : Allowed s a) (hs : step c₀ s a = some s') :
    ∃ l', Queues s' l' := by
  have hfree : ∀ p ∈ readied s a, ∀ rq, p ∉ l rq := fun p hp rq => h.holds.queue ▸ ha.readied p hp rq
  cases a <;> simp only [Runq.step] at hs
  case ready c p e => exact schedready (h.off p) (hfree p rfl) hs
  case procpriority p pri fixed =>
    exact ⟨l, Option.some.inj hs ▸ h.setproc_kept rfl fun hr => ha.prioritized _ rfl hr⟩
  case newproc =>
    obtain ⟨-, hs⟩ := Option.ite_none_right_eq_some.mp hs
    exact ⟨l, Option.some.inj hs ▸ h.setproc fun _ hr => nomatch hr⟩
  case procwired | edf => exact ⟨l, Option.some.inj hs ▸ h.setproc_same rfl rfl⟩
  case releaseintr c p busy e => exact h.releaseintr (fun hst => hfree p (if_pos hst)) hs
  case rebalance =>
    obtain ⟨-, hs⟩ := Option.ite_none_right_eq_some.mp hs
    refine ⟨l, Option.some.inj hs ▸ ?_⟩
    split
    · exact h
    · exact h.congr rfl rfl
  case another => exact h.another hs
  case setstate =>
    split at hs
    · obtain ⟨hst, hs⟩ := Option.ite_none_left_eq_some.mp hs
      exact ⟨l, Option.some.inj hs ▸ h.setproc fun _ hr => absurd hr hst⟩
    · contradiction
  case rfork c p e =>
    split at hs
    · exact h.rfork (hfree p rfl) hs
    · contradiction
  case exec c root =>
    split at hs
    case h_1 p hpc =>
      have hpri := ha.prioritized
      simp only [prioritized, hpc, Option.mem_some, forall_eq'] at hpri
      exact ⟨l, Option.some.inj hs ▸ h.setproc_kept rfl fun hr => hpri hr⟩
    case h_2 => contradiction
  case sched | runproc =>
    split at hs
    · exact ⟨l, Option.some.inj hs ▸ h.congr rfl rfl⟩
    · contradiction
  case schedinit c e =>
    split at hs
    case h_1 p hpc =>
      obtain ⟨s₁, hinit, rfl⟩ := Option.map_eq_some_iff.mp hs
      have hfree := hfree p
      simp only [readied, hpc, Option.mem_def] at hfree
      obtain ⟨l', h'⟩ := h.schedinit (fun hst => hfree (if_pos hst)) hinit
      exact ⟨l', h'.congr rfl rfl⟩
    case h_2 => contradiction
  case save c e =>
    split at hs
    case h_1 p _ =>
      have hm : Queues (s.save p e) l := h.setproc_same (by simp) (by simp)
      exact ⟨l, Option.some.inj hs ▸ hm.congr rfl rfl⟩
    case h_2 => contradiction
  case smprunproc =>
    split at hs
    · exact ⟨l, h.smprunproc hs⟩
    · contradiction
  case dequeue =>
    split at hs
    · exact h.dequeue hs
    · contradiction
  case mach0sched =>
    split at hs
    · exact ⟨l, h.mach0sched hs⟩
    · contradiction
  case give =>
    split at hs
    · exact h.give hs
    · contradiction
  case get c =>
    split at hs
    case h_1 p _ _ =>
      have hm : Queues (s.setproc p { s.proc p with state := .scheding, mp := some c }) l :=
        h.setproc fun _ hr => nomatch hr
      exact ⟨l, Option.some.inj hs ▸ hm.congr rfl rfl⟩
    case h_2 => contradiction
  case go =>
    split at hs
    · exact ⟨l, h.go hs⟩
    · contradiction

end But

variable [DecidableEq P] [Fintype P] [DecidableEq C] {c₀ : C} {s : State P C}

theorem queues : (machine (P := P) c₀).Invariant Allowed fun s => ∃ l, Queues s l where
  init h                := ⟨_, But.begins h⟩
  step := fun ⟨_, h⟩ ha hs => h.step ha hs

-- In every run where `ready` is called for processes that are on no queue, and where the priority of a process that is
-- ready is only changed along with its queue, the queues are lists that have no process in common or twice, their
-- counters and bits are right, and each process that is ready is on the list for its priority.
theorem run_queues (hr : (machine c₀).Reachable Allowed s) :
    ∃ l, Holds s.toSched l ∧ ∀ p, (s.proc p).state = .ready → p ∈ l (s.proc p).priority :=
  have ⟨l, h⟩ := queues.holds hr
  ⟨l, h.holds, fun p => h.ready p not_false⟩

section
-- Two processes that sleep, and two cores, of which the first one is core 0.

instance (s : State P C) (a : Act P C) : Decidable (Allowed s a) :=
  decidable_of_iff ((∀ p ∈ readied s a, ∀ rq, p ∉ s.queue rq) ∧
    ∀ x ∈ prioritized s a, (s.proc x.fst).state = .ready → (s.proc x.fst).priority = x.snd)
    ⟨fun ⟨h₁, h₂⟩ => ⟨h₁, h₂⟩, fun ⟨h₁, h₂⟩ => ⟨h₁, h₂⟩⟩

def asleep : Proc (Fin 2) where
  state      := .wakeme
  priority   := level (clip PriNormal)
  basepri    := clip PriNormal
  fixedpri   := false
  cpu        := 0
  lastupdate := 0
  mp         := none
  wired      := none
  mach       := none
  edf        := none

def start : State (Fin 2) (Fin 2) where
  head _      := none
  tail _      := none
  rnext _     := none
  n _         := 0
  nrdy        := 0
  runvec      := 0
  proc _      := asleep
  pc _        := .runproc
  mproc _     := none
  balancetime := 0
  balancing   := none

theorem begins_start : Begins start where
  head _ := rfl
  tail _ := rfl
  n _    := rfl
  nrdy   := rfl
  runvec := rfl
  proc _ := fun h => nomatch h

def idle : Env where
  ticks  := 0
  mticks := 0
  load   := 0
  nmach  := 2
  now    := 0

-- Both are made ready, the second core takes the first one, and that gets a lower priority and gives up the processor.
def preempted : State (Fin 2) (Fin 2) :=
  (((machine 0).guarded Allowed).exec start [.ready 0 0 idle, .ready 0 1 idle, .runproc 1 idle, .smprunproc 1,
    .dequeue 1 false, .go 1 idle, .procpriority 0 5 false, .sched 1, .schedinit 1 idle]).get (by decide +kernel)

theorem preempted_queues : preempted.nrdy = 2 ∧
    ∃ l, Holds preempted.toSched l ∧ ∀ p, (preempted.proc p).state = .ready → p ∈ l (preempted.proc p).priority :=
  have hr : (machine 0).Reachable Allowed preempted := .guarded (.init begins_start) (Option.some_get _).symm
  ⟨by decide +kernel, run_queues hr⟩

-- The priority of a process is changed while it is on a queue.
def demoted : State (Fin 2) (Fin 2) :=
  ((machine 0).exec start [.ready 0 0 idle, .procpriority 0 5 false]).get (by decide +kernel)

theorem ready_elsewhere : (machine 0).Reachable (fun _ _ => True) demoted ∧
    ¬∃ l, Holds demoted.toSched l ∧ ∀ p, (demoted.proc p).state = .ready → p ∈ l (demoted.proc p).priority := by
  refine ⟨(Machine.Reachable.init begins_start).exec (fun _ _ _ => trivial) (Option.some_get _).symm, fun ⟨l, h, hr⟩ => ?_⟩
  have hstate : (demoted.proc 0).state = .ready := by decide +kernel
  have hqueue : demoted.queue (demoted.proc 0).priority = [] := by decide +kernel
  have hmem := hr 0 hstate
  rw [← h.queue, hqueue] at hmem
  contradiction

end

end Port.Runq
