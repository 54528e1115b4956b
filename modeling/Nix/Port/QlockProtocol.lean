import Nix.Port.Qlock

namespace Port.Qlock

section

variable {P L Q W : Type*}
variable {p x y r : P} {i j : L} {st : PState}

theorem Pc.ne_waiting {c : Pc P} (h : c = .idle) : c ≠ .waiting :=
  fun hw => nomatch h.symm.trans hw

-- What is left once the processes in `m` have been let in, of which `l'` are next.
def Waiting.woken [DecidableEq P] [DecidableEq L] (s : Waiting P L) (i : L) (m l' : List P) : Waiting P L :=
  { s with
    head  := Function.update s.head i l'.head?
    tail  := Function.update s.tail i (if l' = [] then none else s.tail i)
    state := fun x => if x ∈ m then .ready else s.state x }

-- Where a process is that does not run.
structure Waits (s : Waiting P L) (l : L → List P) : Prop where
  lists   : Fifos s.head s.tail s.qnext l
  waits   : ∀ {i x}, x ∈ l i → s.pc x = .waiting ∧ (s.state x).Queues
  readied : ∀ {r x}, s.pc r = .readying x → s.pc x = .waiting ∧ (s.state x).Queues ∧ ∀ i, x ∉ l i
  once    : ∀ {r r' x}, s.pc r = .readying x → s.pc r' = .readying x → r = r'
  found   : ∀ {x}, s.pc x = .waiting → s.state x = .ready ∨ (∃ i, x ∈ l i) ∨ ∃ r, s.pc r = .readying x
  runs    : ∀ {x}, s.pc x ≠ .waiting → s.state x = .running

namespace Waits

variable {s : Waiting P L} {l : L → List P} {l' m : List P}

theorem not_mem (h : Waits s l) (hp : s.pc p ≠ .waiting) (i : L) : p ∉ l i :=
  fun hm => hp (h.waits hm).left

theorem ne_of_mem (h : Waits s l) (hp : s.pc p ≠ .waiting) (hx : x ∈ l i) : x ≠ p :=
  fun he => h.not_mem hp i (he ▸ hx)

theorem ne_of_readying (h : Waits s l) (hp : s.pc p ≠ .waiting) (hr : s.pc r = .readying x) : x ≠ p :=
  fun he => hp (he ▸ (h.readied hr).left)

theorem queued (h : Waits s l) : (∃ i, x ∈ l i) ↔ (s.state x).Queues ∧ ∀ r, s.pc r ≠ .readying x := by
  constructor
  · intro ⟨i, hx⟩
    exact ⟨(h.waits hx).right, fun r hr => (h.readied hr).right.right i hx⟩
  · intro ⟨hq, hr⟩
    have hpc : s.pc x = .waiting := by
      by_contra hpc
      rw [h.runs hpc] at hq
      exact hq
    rcases h.found hpc with hx | hx | ⟨r, hx⟩
    · rw [hx] at hq
      exact hq.elim
    · exact hx
    · exact absurd hx (hr r)

variable [DecidableEq P] [DecidableEq L]

theorem enqueue (h : Waits s l) (hp : s.pc p = .idle) (hst : st.Queues) :
    Waits (s.enqueue p i st) (Function.update l i (l i ++ [p])) where
  lists := h.lists.push (h.not_mem (Pc.ne_waiting hp))
  waits {j x} hx := by
    by_cases hxp : x = p
    case pos => simp [Waiting.enqueue, hxp, hst]
    case neg =>
      have hx := (Fifos.mem_push.mp hx).resolve_right fun he => hxp he.right
      simpa [Waiting.enqueue, hxp] using h.waits hx
  readied {r x} hr := by
    have hrp : r ≠ p := fun he => by simp [Waiting.enqueue, he] at hr
    have hr : s.pc r = .readying x := by simpa [Waiting.enqueue, hrp] using hr
    have hxp := h.ne_of_readying (Pc.ne_waiting hp) hr
    obtain ⟨hw, hq, hnot⟩ := h.readied hr
    refine ⟨by simpa [Waiting.enqueue, hxp] using hw, by simpa [Waiting.enqueue, hxp] using hq, fun j hx => ?_⟩
    exact (Fifos.mem_push.mp hx).elim (hnot j) fun he => hxp he.right
  once {r r' x} hr hr' := by
    have hrp : r ≠ p := fun he => by simp [Waiting.enqueue, he] at hr
    have hrp' : r' ≠ p := fun he => by simp [Waiting.enqueue, he] at hr'
    exact h.once (by simpa [Waiting.enqueue, hrp] using hr) (by simpa [Waiting.enqueue, hrp'] using hr')
  found {x} hx := by
    by_cases hxp : x = p
    case pos => exact .inr (.inl ⟨i, Fifos.mem_push.mpr (.inr ⟨rfl, hxp⟩)⟩)
    case neg =>
      rcases h.found (by simpa [Waiting.enqueue, hxp] using hx) with hx | ⟨j, hx⟩ | ⟨r, hr⟩
      · exact .inl (by simpa [Waiting.enqueue, hxp] using hx)
      · exact .inr (.inl ⟨j, Fifos.mem_push.mpr (.inl hx)⟩)
      · have hrp : r ≠ p := fun he => by simp [he, hp] at hr
        exact .inr (.inr ⟨r, by simpa [Waiting.enqueue, hrp] using hr⟩)
  runs {x} hx := by
    have hxp : x ≠ p := fun he => by simp [Waiting.enqueue, he] at hx
    simpa [Waiting.enqueue, hxp] using h.runs (by simpa [Waiting.enqueue, hxp] using hx)

theorem pass (h : Waits s l) (hp : s.pc p = .idle) (hx : s.head i = some x) : ∃ l', l i = x :: l' ∧
    Waits (s.pass p i x) (Function.update l i l') := by
  obtain ⟨l', hl, -, hlists⟩ := h.lists.pop hx
  have hmem : x ∈ l i := hl ▸ List.mem_cons_self ..
  have hxp : x ≠ p := h.ne_of_mem (Pc.ne_waiting hp) hmem
  have hl' : l i = [x] ++ l' := hl
  refine ⟨l', hl, hlists, fun {j y} hy => ?_, fun {r y} hr => ?_, fun {r r' y} hr hr' => ?_, fun {y} hy => ?_,
    fun {y} hy => ?_⟩
  · have hy := Fifos.mem_of_drop hl' hy
    have hyp := h.ne_of_mem (Pc.ne_waiting hp) hy
    simpa [Waiting.pass, hyp] using h.waits hy
  · by_cases hrp : r = p
    case pos =>
      obtain rfl : x = y := by simpa [Waiting.pass, hrp] using hr
      have hw := h.waits hmem
      refine ⟨by simpa [Waiting.pass, hxp] using hw.left, hw.right, fun j => ?_⟩
      exact h.lists.not_mem_of_drop hl' (List.mem_singleton_self x) j
    case neg =>
      have hr : s.pc r = .readying y := by simpa [Waiting.pass, hrp] using hr
      have hyp := h.ne_of_readying (Pc.ne_waiting hp) hr
      obtain ⟨hw, hq, hnot⟩ := h.readied hr
      exact ⟨by simpa [Waiting.pass, hyp] using hw, hq, fun j hy => hnot j (Fifos.mem_of_drop hl' hy)⟩
  · have honce {r} (hrp : r ≠ p) (hr : (s.pass p i x).pc r = .readying x) : False := by
      have hr : s.pc r = .readying x := by simpa [Waiting.pass, hrp] using hr
      exact (h.readied hr).right.right i hmem
    by_cases hrp : r = p <;> by_cases hrp' : r' = p
    · exact hrp.trans hrp'.symm
    · obtain rfl : x = y := by simpa [Waiting.pass, hrp] using hr
      exact (honce hrp' hr').elim
    · obtain rfl : x = y := by simpa [Waiting.pass, hrp'] using hr'
      exact (honce hrp hr).elim
    · exact h.once (by simpa [Waiting.pass, hrp] using hr) (by simpa [Waiting.pass, hrp'] using hr')
  · have hyp : y ≠ p := fun he => by simp [Waiting.pass, he] at hy
    rcases h.found (by simpa [Waiting.pass, hyp] using hy) with hy | ⟨j, hy⟩ | ⟨r, hr⟩
    · exact .inl hy
    · by_cases hyx : y = x
      case pos => exact .inr (.inr ⟨p, by simp [Waiting.pass, hyx]⟩)
      case neg => exact .inr (.inl ⟨j, Fifos.mem_of_not_drop hl' hy (by simpa using hyx)⟩)
    · have hrp : r ≠ p := fun he => by simp [he, hp] at hr
      exact .inr (.inr ⟨r, by simpa [Waiting.pass, hrp] using hr⟩)
  · by_cases hyp : y = p
    case pos => rw [hyp]; exact h.runs (Pc.ne_waiting hp)
    case neg => exact h.runs (by simpa [Waiting.pass, hyp] using hy)

-- The one that has been taken off is made ready.
omit [DecidableEq L] in
theorem ready (h : Waits s l) (hp : s.pc p = .readying x) : Waits ((s.ready x).goto p .idle) l := by
  have hpw : s.pc p ≠ .waiting := fun hw => nomatch hp.symm.trans hw
  obtain ⟨hxw, -, hnot⟩ := h.readied hp
  have hxp : x ≠ p := h.ne_of_readying hpw hp
  have hne {y i} (hy : y ∈ l i) : y ≠ x := fun he => hnot i (he ▸ hy)
  refine ⟨h.lists, fun {i y} hy => ?_, fun {r y} hr => ?_, fun {r r' y} hr hr' => ?_, fun {y} hy => ?_,
    fun {y} hy => ?_⟩
  · simpa [Waiting.ready, Waiting.goto, hne hy, h.ne_of_mem hpw hy] using h.waits hy
  · have hrp : r ≠ p := fun he => by simp [Waiting.goto, he] at hr
    have hr : s.pc r = .readying y := by simpa [Waiting.ready, Waiting.goto, hrp] using hr
    have hyx : y ≠ x := fun he => hrp (h.once (he ▸ hr) hp)
    have hyp := h.ne_of_readying hpw hr
    simpa [Waiting.ready, Waiting.goto, hyx, hyp] using h.readied hr
  · have hrp : r ≠ p := fun he => by simp [Waiting.goto, he] at hr
    have hrp' : r' ≠ p := fun he => by simp [Waiting.goto, he] at hr'
    exact h.once (by simpa [Waiting.ready, Waiting.goto, hrp] using hr)
      (by simpa [Waiting.ready, Waiting.goto, hrp'] using hr')
  · by_cases hyx : y = x
    case pos => exact .inl (by simp [Waiting.ready, Waiting.goto, hyx])
    case neg =>
      have hyp : y ≠ p := fun he => by simp [Waiting.goto, he] at hy
      rcases h.found (by simpa [Waiting.ready, Waiting.goto, hyp] using hy) with hy | hy | ⟨r, hr⟩
      · exact .inl (by simpa [Waiting.ready, Waiting.goto, hyx] using hy)
      · exact .inr (.inl hy)
      · have hrp : r ≠ p := fun he => hyx (by simpa [he, hp] using hr.symm)
        exact .inr (.inr ⟨r, by simpa [Waiting.ready, Waiting.goto, hrp] using hr⟩)
  · by_cases hyp : y = p
    case pos => simpa [Waiting.ready, Waiting.goto, hyp, hxp.symm] using h.runs hpw
    case neg =>
      have hyw : s.pc y ≠ .waiting := by simpa [Waiting.ready, Waiting.goto, hyp] using hy
      have hyx : y ≠ x := fun he => hyw (he ▸ hxw)
      simpa [Waiting.ready, Waiting.goto, hyx] using h.runs hyw

omit [DecidableEq L] in
theorem run (h : Waits s l) (hp : s.pc p = .waiting) (hr : s.state p = .ready) : Waits (s.run p) l := by
  have hq : ¬(s.state p).Queues := by simp [hr, PState.Queues]
  have hne {y i} (hy : y ∈ l i) : y ≠ p := fun he => hq (he ▸ (h.waits hy).right)
  refine ⟨h.lists, fun {i y} hy => ?_, fun {r y} hr => ?_, fun {r r' y} hr hr' => ?_, fun {y} hy => ?_,
    fun {y} hy => ?_⟩
  · simpa [Waiting.run, hne hy] using h.waits hy
  · have hrp : r ≠ p := fun he => by simp [Waiting.run, he] at hr
    have hr : s.pc r = .readying y := by simpa [Waiting.run, hrp] using hr
    have hyp : y ≠ p := fun he => hq (he ▸ (h.readied hr).right.left)
    simpa [Waiting.run, hyp] using h.readied hr
  · have hrp : r ≠ p := fun he => by simp [Waiting.run, he] at hr
    have hrp' : r' ≠ p := fun he => by simp [Waiting.run, he] at hr'
    exact h.once (by simpa [Waiting.run, hrp] using hr) (by simpa [Waiting.run, hrp'] using hr')
  · have hyp : y ≠ p := fun he => by simp [Waiting.run, he] at hy
    rcases h.found (by simpa [Waiting.run, hyp] using hy) with hy | hy | ⟨r, hr⟩
    · exact .inl (by simpa [Waiting.run, hyp] using hy)
    · exact .inr (.inl hy)
    · have hrp : r ≠ p := fun he => by simp [he, hp] at hr
      exact .inr (.inr ⟨r, by simpa [Waiting.run, hrp] using hr⟩)
  · by_cases hyp : y = p
    case pos => simp [Waiting.run, hyp]
    case neg => simpa [Waiting.run, hyp] using h.runs (by simpa [Waiting.run, hyp] using hy)

theorem woken (h : Waits s l) (hl : l i = m ++ l') : Waits (s.woken i m l') (Function.update l i l') := by
  have hmem {y} (hy : y ∈ m) : y ∈ l i := hl ▸ List.mem_append_left _ hy
  refine ⟨h.lists.drop hl, fun {j y} hy => ?_, fun {r y} hr => ?_, h.once, fun {y} hy => ?_, fun {y} hy => ?_⟩
  · have hym : y ∉ m := fun hm => h.lists.not_mem_of_drop hl hm j hy
    simpa [Waiting.woken, hym] using h.waits (Fifos.mem_of_drop hl hy)
  · obtain ⟨hw, hq, hnot⟩ := h.readied hr
    have hym : y ∉ m := fun hm => hnot i (hmem hm)
    refine ⟨hw, by simpa [Waiting.woken, hym] using hq, fun j hy => hnot j (Fifos.mem_of_drop hl hy)⟩
  · by_cases hym : y ∈ m
    case pos => exact .inl (by simp [Waiting.woken, hym])
    case neg =>
      rcases h.found hy with hy | ⟨j, hy⟩ | hy
      · exact .inl (by simpa [Waiting.woken, hym] using hy)
      · exact .inr (.inl ⟨j, Fifos.mem_of_not_drop hl hy hym⟩)
      · exact .inr (.inr hy)
  · have hym : y ∉ m := fun hm => hy (h.waits (hmem hm)).left
    simpa [Waiting.woken, hym] using h.runs hy

end Waits

end

variable {P Q W : Type*} {p x : P}

-- A QLock, who holds it and who waits for it.
structure QHeld (locked : Bool) (holders waits : List P) : Prop where
  free : locked = false → holders = [] ∧ waits = []
  held : locked = true → ∃ p, holders = [p]

namespace QHeld

variable {locked : Bool} {holders waits : List P}

theorem take (h : QHeld false holders waits) : QHeld true (holders ++ [p]) waits where
  free := nofun
  held _ := ⟨p, by rw [(h.free rfl).left, List.nil_append]⟩

theorem wait (h : QHeld true holders waits) : QHeld true holders (waits ++ [p]) where
  free := nofun
  held := h.held

variable [DecidableEq P]

theorem erase_eq (h : QHeld locked holders waits) (hp : p ∈ holders) : holders.erase p = [] := by
  cases locked with
  | false => rw [(h.free rfl).left] at hp; contradiction
  | true =>
    obtain ⟨p', rfl⟩ := h.held rfl
    rw [List.mem_singleton.mp hp, List.erase_cons_head]

theorem leave (h : QHeld locked holders []) (hp : p ∈ holders) : QHeld false (holders.erase p) [] where
  free _ := ⟨h.erase_eq hp, rfl⟩
  held   := nofun

theorem hand (h : QHeld locked holders (x :: waits)) (hp : p ∈ holders) :
    QHeld locked (holders.erase p ++ [x]) waits where
  free hf := nomatch (h.free hf).right
  held _  := ⟨x, by rw [h.erase_eq hp, List.nil_append]⟩

end QHeld

-- An RWlock, who reads, who writes, and the states of those that wait.
structure RWHeld (readers writer : Int) (reading writing : List P) (waits : List PState) : Prop where
  readers : readers = reading.length
  nodup   : reading.Nodup
  writer  : writer = writing.length
  apart   : writing = [] ∨ ∃ p, writing = [p] ∧ reading = []
  free    : writing = [] → reading = [] → waits = []
  first   : writing = [] → waits.head? ≠ some .queueingR
  kinds   : ∀ st ∈ waits, st = .queueingR ∨ st = .queueingW

namespace RWHeld

variable {readers writer : Int} {reading writing m : List P} {waits waits' : List PState} {st : PState}

theorem writer_zero (h : RWHeld readers writer reading writing waits) : writer = 0 ↔ writing = [] := by
  rw [h.writer, Int.natCast_eq_zero, List.length_eq_zero_iff]

theorem readers_zero (h : RWHeld readers writer reading writing waits) : readers = 0 ↔ reading = [] := by
  rw [h.readers, Int.natCast_eq_zero, List.length_eq_zero_iff]

theorem read (h : RWHeld readers writer reading writing waits) (hw : writer = 0) (hn : waits = []) (hp : p ∉ reading) :
    RWHeld (readers + 1) writer (reading ++ [p]) writing waits where
  readers := by simp [h.readers]
  nodup   := List.nodup_append_comm.mp (h.nodup.cons hp)
  writer  := h.writer
  apart   := .inl (h.writer_zero.mp hw)
  free    := fun _ _ => hn
  first   := h.first
  kinds   := h.kinds

theorem write (h : RWHeld readers writer reading writing waits) (hr : readers = 0) (hw : writer = 0) :
    RWHeld readers 1 reading (writing ++ [p]) waits where
  readers := h.readers
  nodup   := h.nodup
  writer  := by simp [h.writer_zero.mp hw]
  apart   := .inr ⟨p, by simp [h.writer_zero.mp hw], h.readers_zero.mp hr⟩
  free    := fun hn => by simp at hn
  first   := fun hn => by simp at hn
  kinds   := h.kinds

theorem waitR (h : RWHeld readers writer reading writing waits) (hn : ¬(writer = 0 ∧ waits = [])) :
    RWHeld readers writer reading writing (waits ++ [.queueingR]) where
  readers := h.readers
  nodup   := h.nodup
  writer  := h.writer
  apart   := h.apart
  free    := fun hw hr => absurd ⟨h.writer_zero.mpr hw, h.free hw hr⟩ hn
  first   := fun hw => by
    cases waits with
    | nil         => exact absurd ⟨h.writer_zero.mpr hw, rfl⟩ hn
    | cons st sts => exact h.first hw
  kinds   := fun st hst => (List.mem_append.mp hst).elim (h.kinds st) fun he => .inl (List.mem_singleton.mp he)

theorem waitW (h : RWHeld readers writer reading writing waits) (hn : ¬(readers = 0 ∧ writer = 0)) :
    RWHeld readers writer reading writing (waits ++ [.queueingW]) where
  readers := h.readers
  nodup   := h.nodup
  writer  := h.writer
  apart   := h.apart
  free    := fun hw hr => absurd ⟨h.readers_zero.mpr hr, h.writer_zero.mpr hw⟩ hn
  first   := fun hw => by
    cases waits with
    | nil         => simp
    | cons st sts => exact h.first hw
  kinds   := fun st hst => (List.mem_append.mp hst).elim (h.kinds st) fun he => .inr (List.mem_singleton.mp he)

-- Where readers read, no writer writes, and a writer is the first that waits.
theorem not_writing (h : RWHeld readers writer reading writing waits) (hp : p ∈ reading) : writing = [] := by
  rcases h.apart with hw | ⟨_, _, hr⟩
  · exact hw
  · rw [hr] at hp
    contradiction

theorem first_writer (h : RWHeld readers writer reading writing (st :: waits)) (hw : writing = []) :
    st = .queueingW :=
  (h.kinds st (List.mem_cons_self ..)).resolve_left fun hst => h.first hw (by rw [hst, List.head?_cons])

variable [DecidableEq P]

theorem unread_length (h : RWHeld readers writer reading writing waits) (hp : p ∈ reading) :
    readers - 1 = (reading.erase p).length := by
  have := List.length_pos_of_mem hp
  rw [h.readers, List.length_erase_of_mem hp]
  omega

theorem unread (h : RWHeld readers writer reading writing waits) (hp : p ∈ reading)
    (hn : 0 < readers - 1 ∨ waits = []) : RWHeld (readers - 1) writer (reading.erase p) writing waits where
  readers := h.unread_length hp
  nodup   := h.nodup.erase p
  writer  := h.writer
  apart   := .inl (h.not_writing hp)
  free    := fun _ hr => by
    refine hn.resolve_left ?_
    rw [h.unread_length hp, hr, List.length_nil]
    exact lt_irrefl 0
  first   := h.first
  kinds   := h.kinds

theorem unread_last (h : RWHeld readers writer reading writing (st :: waits)) (hp : p ∈ reading)
    (hn : ¬0 < readers - 1) : RWHeld (readers - 1) 1 (reading.erase p) (writing ++ [x]) waits where
  readers := h.unread_length hp
  nodup   := h.nodup.erase p
  writer  := by simp [h.not_writing hp]
  apart   := by
    refine .inr ⟨x, by simp [h.not_writing hp], ?_⟩
    rw [h.unread_length hp] at hn
    rw [← List.length_eq_zero_iff]
    omega
  free    := fun he => by simp at he
  first   := fun he => by simp at he
  kinds   := fun st hst => h.kinds st (List.mem_cons_of_mem _ hst)

theorem unwrite_eq (h : RWHeld readers writer reading writing waits) (hp : p ∈ writing) :
    writing.erase p = [] ∧ reading = [] := by
  rcases h.apart with hw | ⟨p', rfl, hr⟩
  · rw [hw] at hp
    contradiction
  · exact ⟨by rw [List.mem_singleton.mp hp, List.erase_cons_head], hr⟩

theorem unwrite (h : RWHeld readers writer reading writing []) (hp : p ∈ writing) :
    RWHeld readers 0 reading (writing.erase p) [] where
  readers := h.readers
  nodup   := h.nodup
  writer  := by simp [(h.unwrite_eq hp).left]
  apart   := .inl (h.unwrite_eq hp).left
  free    := fun _ _ => rfl
  first   := fun _ => nofun
  kinds   := h.kinds

theorem unwrite_writer (h : RWHeld readers writer reading writing (st :: waits)) (hp : p ∈ writing) :
    RWHeld readers writer reading (writing.erase p ++ [x]) waits where
  readers := h.readers
  nodup   := h.nodup
  writer  := by
    rcases h.apart with hw | ⟨p', hw, _⟩
    · rw [hw] at hp
      contradiction
    · rw [h.writer, (h.unwrite_eq hp).left, hw]
      rfl
  apart   := .inr ⟨x, by simp [(h.unwrite_eq hp).left], (h.unwrite_eq hp).right⟩
  free    := fun he => by simp at he
  first   := fun he => by simp at he
  kinds   := fun st hst => h.kinds st (List.mem_cons_of_mem _ hst)

theorem unwrite_readers (h : RWHeld readers writer reading writing (waits' ++ waits)) (hp : p ∈ writing)
    (hm : m ≠ []) (hn : m.Nodup) (hf : waits.head? ≠ some .queueingR) :
    RWHeld (readers + m.length) 0 (reading ++ m) (writing.erase p) waits where
  readers := by simp [h.readers]
  nodup   := by simp [(h.unwrite_eq hp).right, hn]
  writer  := by simp [(h.unwrite_eq hp).left]
  apart   := .inl (h.unwrite_eq hp).left
  free    := fun _ hr => absurd (List.append_eq_nil_iff.mp hr).right hm
  first   := fun _ => hf
  kinds   := fun st hst => h.kinds st (List.mem_append_right _ hst)

end RWHeld

end Port.Qlock
