import Nix.Port.QlockProtocol
import Mathlib.Data.List.TakeWhile

namespace Port.Qlock

variable {P L Q W : Type*} [DecidableEq P] [DecidableEq L] [DecidableEq Q] [DecidableEq W]
variable {p x : P} {q : Q} {w : W} {s : State P Q W} {l : Q ⊕ W → List P} {st : PState}

namespace Waits

variable {s : Waiting P L} {l : L → List P} {l' m : List P} {i j : L}

-- The states of those that wait change only where someone comes.
omit [DecidableEq L] in
theorem map_state_update (st : PState) (hp : p ∉ l j) : (l j).map (Function.update s.state p st) = (l j).map s.state :=
  List.map_congr_left fun _ hx => Function.update_of_ne (ne_of_mem_of_not_mem hx hp) ..

theorem map_enqueue (h : Waits s l) (hp : s.pc p = .idle) :
    (Function.update l i (l i ++ [p]) j).map (s.enqueue p i st).state =
      if j = i then (l j).map s.state ++ [st] else (l j).map s.state := by
  have hmap := map_state_update (s := s) st (h.not_mem (Pc.ne_waiting hp) j)
  by_cases hj : j = i
  case pos =>
    subst hj
    rw [Function.update_self, if_pos rfl, List.map_append, Waiting.enqueue, hmap]
    simp
  case neg =>
    rw [Function.update_of_ne hj, if_neg hj]
    exact hmap

theorem map_woken (h : Waits s l) (hl : l i = m ++ l') :
    (Function.update l i l' j).map (s.woken i m l').state = (Function.update l i l' j).map s.state :=
  List.map_congr_left fun _ hx => if_neg fun hm => h.lists.not_mem_of_drop hl hm j hx

end Waits

structure Inv (s : State P Q W) (l : Q ⊕ W → List P) : Prop where
  waits   : Waits s.toWaiting l
  fifo    : ∀ i, s.asked i = s.granted i ++ l i
  qlocks  : ∀ q, QHeld (s.locked q) (s.holders q) (l (.inl q))
  rwlocks : ∀ w, RWHeld (s.readers w) (s.writer w) (s.reading w) (s.writing w) ((l (.inr w)).map s.state)
  panic   : s.panic = none

namespace Inv

-- One is let in at once only where nobody waits.
omit [DecidableEq P] in
theorem fifo_enter {r : Record L P} {l : L → List P} {i j : L} (h : ∀ j, r.asked j = r.granted j ++ l j) (hl : l i = []) :
    ((r.ask p i).grant p i).asked j = ((r.ask p i).grant p i).granted j ++ l j := by
  by_cases hj : j = i
  case pos => subst hj; simp [Record.ask, Record.grant, h, hl]
  case neg => simp [Record.ask, Record.grant, h, hj]

omit [DecidableEq P] in
theorem fifo_wait {r : Record L P} {l : L → List P} {i j : L} (h : ∀ j, r.asked j = r.granted j ++ l j) :
    (r.ask p i).asked j = (r.ask p i).granted j ++ Function.update l i (l i ++ [p]) j := by
  by_cases hj : j = i
  case pos => subst hj; simp [Record.ask, h]
  case neg => simp [Record.ask, h, hj]

omit [DecidableEq P] in
theorem fifo_hand {r : Record L P} {l : L → List P} {l' : List P} {i j : L} (h : ∀ j, r.asked j = r.granted j ++ l j)
    (hl : l i = x :: l') : (r.grant x i).asked j = (r.grant x i).granted j ++ Function.update l i l' j := by
  by_cases hj : j = i
  case pos => subst hj; simp [Record.grant, h, hl]
  case neg => simp [Record.grant, h, hj]

theorem wait {i : Q ⊕ W} (h : Inv s l) (hc : s.Calls p) (hst : st.Queues)
    (hq : ∀ q, QHeld (s.locked q) (s.holders q) (Function.update l i (l i ++ [p]) (.inl q)))
    (hw : ∀ w, RWHeld (s.readers w) (s.writer w) (s.reading w) (s.writing w)
      (if .inr w = i then (l (.inr w)).map s.state ++ [st] else (l (.inr w)).map s.state)) :
    Inv (s.wait p i st) (Function.update l i (l i ++ [p])) where
  waits := h.waits.enqueue hc.right hst
  fifo _ := fifo_wait h.fifo
  qlocks := hq
  rwlocks w := h.waits.map_enqueue (i := i) (j := .inr w) hc.right ▸ hw w
  panic := h.panic

theorem qlock (h : Inv s l) (hc : s.Calls p) : ∃ l', Inv (s.qlock p q) l' := by
  have hheld := h.qlocks q
  rw [State.qlock]
  split
  case isTrue hq =>
    rw [hq] at hheld
    have hl := (hheld.free rfl).right
    refine ⟨l, h.waits, fun j => fifo_enter h.fifo hl, fun q' => ?_, h.rwlocks, h.panic⟩
    by_cases hq' : q' = q
    case pos => subst hq'; simpa [State.hold, State.enter, State.setlocked] using hheld.take
    case neg => simpa [State.hold, State.enter, State.setlocked, hq'] using h.qlocks q'
  case isFalse hq =>
    rw [Bool.not_eq_false] at hq
    rw [hq] at hheld
    refine ⟨_, h.wait hc trivial (fun q' => ?_) fun w => h.rwlocks w⟩
    by_cases hq' : q' = q
    case pos => subst hq'; simpa [hq] using hheld.wait
    case neg => simpa [hq'] using h.qlocks q'

theorem canqlock {busy : Bool} (h : Inv s l) (hc : s.Calls p) : ∃ l', Inv (s.canqlock p q busy) l' := by
  rw [State.canqlock]
  split
  case isTrue => exact ⟨l, h⟩
  case isFalse hn =>
    have hq : s.locked q = false := by simpa using fun he => hn (.inr he)
    have := h.qlock (q := q) hc
    rwa [State.qlock, if_pos hq] at this

theorem qunlock (h : Inv s l) (hc : s.Calls p) (hp : p ∈ s.holders q) : ∃ l', Inv (s.qunlock p q) l' := by
  have hheld := h.qlocks q
  rw [State.qunlock]
  split
  case h_1 x hx =>
    obtain ⟨l', hl, hwaits⟩ := h.waits.pass hc.right hx
    rw [hl] at hheld
    refine ⟨_, hwaits, fun j => fifo_hand h.fifo hl, fun q' => ?_, fun w => h.rwlocks w, h.panic⟩
    by_cases hq' : q' = q
    case pos => subst hq'; simpa [State.hold, State.hand, State.unhold] using hheld.hand hp
    case neg => simpa [State.hold, State.hand, State.unhold, hq'] using h.qlocks q'
  case h_2 hn =>
    have hl := h.waits.lists.hd_eq_none.mp hn
    rw [hl] at hheld
    refine ⟨l, h.waits, h.fifo, fun q' => ?_, h.rwlocks, h.panic⟩
    by_cases hq' : q' = q
    case pos => subst hq'; simpa [State.setlocked, State.unhold, hl] using hheld.leave hp
    case neg => simpa [State.setlocked, State.unhold, hq'] using h.qlocks q'

-- The list of a lock is empty as far as its head tells.
omit [DecidableEq P] [DecidableEq Q] [DecidableEq W] in
theorem map_eq_nil (h : Inv s l) : s.head (.inr w) = none ↔ (l (.inr w)).map s.state = [] := by
  rw [h.waits.lists.hd_eq_none, List.map_eq_nil_iff]

omit [DecidableEq P] in
theorem read (h : Inv s l) (hp : p ∉ s.reading w) (hw : s.writer w = 0 ∧ s.head (.inr w) = none) :
    Inv ((s.read p w).enter p (.inr w)) l := by
  have hl := h.waits.lists.hd_eq_none.mp hw.right
  refine ⟨h.waits, fun j => fifo_enter h.fifo hl, h.qlocks, fun w' => ?_, h.panic⟩
  by_cases hw' : w' = w
  case pos =>
    subst hw'
    simpa [State.enter, State.read] using (h.rwlocks w').read hw.left (h.map_eq_nil.mp hw.right) hp
  case neg => simpa [State.enter, State.read, hw'] using h.rwlocks w'

theorem rlock (h : Inv s l) (hc : s.Calls p) (hp : p ∉ s.reading w) : ∃ l', Inv (s.rlock p w) l' := by
  rw [State.rlock]
  split
  case isTrue hw => exact ⟨l, h.read hp hw⟩
  case isFalse hn =>
    refine ⟨_, h.wait hc trivial (fun q => h.qlocks q) fun w' => ?_⟩
    by_cases hw' : w' = w
    case pos =>
      subst hw'
      rw [if_pos rfl]
      exact (h.rwlocks w').waitR fun he => hn ⟨he.left, h.map_eq_nil.mpr he.right⟩
    case neg => simpa [hw'] using h.rwlocks w'

omit [DecidableEq P] in
theorem canrlock (h : Inv s l) (hp : p ∉ s.reading w) : ∃ l', Inv (s.canrlock p w) l' := by
  rw [State.canrlock]
  split
  case isTrue hw => exact ⟨l, h.read hp hw⟩
  case isFalse => exact ⟨l, h⟩

theorem wlock (h : Inv s l) (hc : s.Calls p) : ∃ l', Inv (s.wlock p w) l' := by
  have hheld := h.rwlocks w
  rw [State.wlock]
  split
  case isTrue hw =>
    have hl := hheld.free (hheld.writer_zero.mp hw.right) (hheld.readers_zero.mp hw.left)
    refine ⟨l, h.waits, fun j => fifo_enter h.fifo (List.map_eq_nil_iff.mp hl), h.qlocks, fun w' => ?_, h.panic⟩
    by_cases hw' : w' = w
    case pos => subst hw'; simpa [State.write, State.enter, State.setwriter] using hheld.write hw.left hw.right
    case neg => simpa [State.write, State.enter, State.setwriter, hw'] using h.rwlocks w'
  case isFalse hn =>
    refine ⟨_, h.wait hc trivial (fun q => h.qlocks q) fun w' => ?_⟩
    by_cases hw' : w' = w
    case pos =>
      subst hw'
      rw [if_pos rfl]
      exact hheld.waitW hn
    case neg => simpa [hw'] using h.rwlocks w'

theorem runlock (h : Inv s l) (hc : s.Calls p) (hp : p ∈ s.reading w) : ∃ l', Inv (s.runlock p w) l' := by
  have hheld := h.rwlocks w
  -- what the lock looks like before a writer is let in
  have hunread (hn : 0 < s.readers w - 1 ∨ s.head (.inr w) = none) : Inv (s.unread p w) l := by
    refine ⟨h.waits, h.fifo, h.qlocks, fun w' => ?_, h.panic⟩
    by_cases hw' : w' = w
    case pos => subst hw'; simpa [State.unread] using hheld.unread hp (hn.imp_right h.map_eq_nil.mp)
    case neg => simpa [State.unread, hw'] using h.rwlocks w'
  rw [State.runlock]
  split
  case h_1 hn => exact ⟨l, hunread (.inr hn)⟩
  case h_2 x hx =>
    have hreaders : (s.unread p w).readers w = s.readers w - 1 := Function.update_self ..
    rw [hreaders]
    split
    case isTrue hpos => exact ⟨l, hunread (.inl hpos)⟩
    case isFalse hpos =>
      obtain ⟨l', hl, hwaits⟩ := h.waits.pass hc.right hx
      rw [hl, List.map_cons] at hheld
      have hst := hheld.first_writer (hheld.not_writing hp)
      have hst : ¬(s.unread p w).state x ≠ .queueingW := not_not.mpr hst
      rw [if_neg hst]
      refine ⟨_, hwaits, fun j => fifo_hand h.fifo hl, fun q => h.qlocks q, fun w' => ?_, h.panic⟩
      by_cases hw' : w' = w
      case pos =>
        subst hw'
        simpa [State.write, State.setwriter, State.hand, State.unread, Waiting.pass] using hheld.unread_last (x := x) hp hpos
      case neg => simpa [State.write, State.setwriter, State.hand, State.unread, Waiting.pass, hw'] using h.rwlocks w'

end Inv

-- The readers in `m` are let in, and `l'` are left.
def State.woken (s : State P Q W) (w : W) (m l' : List P) : State P Q W :=
  { s with
    head    := Function.update s.head (.inr w) l'.head?
    state   := fun x => if x ∈ m then .ready else s.state x
    granted := Function.update s.granted (.inr w) (s.granted (.inr w) ++ m)
    readers := Function.update s.readers w (s.readers w + m.length)
    reading := Function.update s.reading w (s.reading w ++ m) }

theorem wake_eq {m l' : List P} {n : Nat} (hhd : s.head (.inr w) = (m ++ l').head?)
    (hnext : Follows s.qnext (m ++ l')) (hn : (m ++ l').Nodup) (hm : ∀ x ∈ m, s.state x = .queueingR)
    (hl' : ∀ x ∈ l'.head?, s.state x ≠ .queueingR) (hle : m.length ≤ n) : s.wake w n = s.woken w m l' := by
  induction m generalizing s n
  case nil =>
    have hwoken : s.woken w [] l' = s := by
      rw [State.woken, ← List.nil_append l', ← hhd]
      simp
    rw [hwoken]
    cases n with
    | zero => rfl
    | succ n =>
      rw [State.wake]
      split
      case h_1 => rfl
      case h_2 x hx => exact if_neg (hl' x (hhd ▸ hx))
  case cons x m ih =>
    obtain ⟨n, rfl⟩ : ∃ k, n = k + 1 := ⟨n - 1, by rw [List.length_cons] at hle; omega⟩
    have hx : x ∉ m ++ l' := (List.nodup_cons.mp hn).left
    rw [List.forall_mem_cons] at hm
    have hne {y} (hy : y ∈ m ++ l') : (s.letin w x).state y = s.state y :=
      Function.update_of_ne (ne_of_mem_of_not_mem hy hx) ..
    have hwake : s.wake w (n + 1) = (s.letin w x).wake w n := by
      rw [State.wake, hhd]
      exact if_pos hm.left
    rw [hwake, ih (s := s.letin w x) ?_ hnext.right (List.nodup_cons.mp hn).right (fun y hy => ?_) (fun y hy => ?_) (Nat.le_of_succ_le_succ hle)]
    · have hstate : (fun y => if y ∈ m then PState.ready else (s.letin w x).state y) =
          fun y => if y ∈ x :: m then PState.ready else s.state y := by
        funext y
        by_cases hyx : y = x
        case pos => subst hyx; simp [State.letin, Waiting.ready]
        case neg => simp [State.letin, Waiting.ready, hyx]
      rw [State.woken, State.woken, hstate]
      simp [State.letin, State.read, Waiting.ready, Record.grant, Int.add_assoc, Int.add_comm]
    · exact (Function.update_self ..).trans hnext.left
    · rw [hne (List.mem_append_left _ hy)]
      exact hm.right y hy
    · rw [hne (List.mem_append_right _ (List.mem_of_mem_head? hy))]
      exact hl' y hy

theorem retail_woken {m l' : List P} :
    ((s.woken w m l').retail w).toWaiting = s.toWaiting.woken (.inr w) m l' := by
  simp [State.retail, State.woken, Waiting.woken, List.head?_eq_none_iff]

-- A list begins with readers that wait, and what is left does not.
omit [DecidableEq P] in
theorem exists_readers (state : P → PState) (l : List P) : ∃ m l', l = m ++ l' ∧ (∀ x ∈ m, state x = .queueingR) ∧
    ∀ x ∈ l'.head?, state x ≠ .queueingR := by
  refine ⟨l.takeWhile (state · = .queueingR), l.dropWhile (state · = .queueingR), List.takeWhile_append_dropWhile.symm,
    fun x hx => by simpa using List.mem_takeWhile_imp hx, fun x hx he => ?_⟩
  have := List.head?_dropWhile_not (state · = .queueingR) l
  rw [Option.mem_def.mp hx] at this
  simp [he] at this

namespace Inv

theorem wunlock [Fintype P] (h : Inv s l) (hc : s.Calls p) (hp : p ∈ s.writing w) : ∃ l', Inv (s.wunlock p w) l' := by
  have hheld := h.rwlocks w
  rw [State.wunlock]
  split
  case h_1 hn =>
    rw [h.map_eq_nil.mp hn] at hheld
    refine ⟨l, h.waits, h.fifo, h.qlocks, fun w' => ?_, h.panic⟩
    by_cases hw' : w' = w
    case pos =>
      subst hw'
      have hl := h.map_eq_nil.mp hn
      simpa [State.setwriter, State.unwrite, hl] using hheld.unwrite hp
    case neg => simpa [State.setwriter, State.unwrite, hw'] using h.rwlocks w'
  case h_2 x hx =>
    split
    case isTrue =>
      obtain ⟨l', hl, hwaits⟩ := h.waits.pass hc.right hx
      rw [hl, List.map_cons] at hheld
      refine ⟨_, hwaits, fun j => fifo_hand h.fifo hl, fun q => h.qlocks q, fun w' => ?_, h.panic⟩
      by_cases hw' : w' = w
      case pos =>
        subst hw'
        simpa [State.write, State.hand, State.unwrite, Waiting.pass] using hheld.unwrite_writer (x := x) hp
      case neg => simpa [State.write, State.hand, State.unwrite, Waiting.pass, hw'] using h.rwlocks w'
    case isFalse hnw =>
      obtain ⟨m, l', hl, hm, hl'⟩ := exists_readers s.state (l (.inr w))
      have hhd : (m ++ l').head? = some x := by rw [← hl, ← h.waits.lists.hd]; exact hx
      have hst : s.state x = .queueingR := by
        have hmem : x ∈ l (.inr w) := hl ▸ List.mem_of_mem_head? hhd
        exact (hheld.kinds _ (List.mem_map_of_mem hmem)).resolve_right hnw
      have hne : m ≠ [] := fun he => hl' x (by simpa [he] using hhd) hst
      have hn := hl ▸ h.waits.lists.nodup (.inr w)
      have hnm : m.Nodup := (List.nodup_append.mp hn).left
      have hwake : (s.unwrite p w).wake w (Fintype.card P) = (s.unwrite p w).woken w m l' :=
        wake_eq (s := s.unwrite p w) (hhd ▸ hx) (hl ▸ h.waits.lists.next (.inr w)) hn hm hl' hnm.length_le_card
      have hpanic : ¬(s.unwrite p w).state x ≠ .queueingR := not_not.mpr hst
      rw [if_neg hpanic, hwake]
      rw [hl, List.map_append] at hheld
      have hf : (l'.map s.state).head? ≠ some .queueingR := by
        rw [List.head?_map, Ne, Option.map_eq_some_iff]
        rintro ⟨y, hy, he⟩
        exact hl' y hy he
      refine ⟨Function.update l (.inr w) l', ?_, fun j => ?_, fun q => h.qlocks q, fun w' => ?_, h.panic⟩
      · exact retail_woken (s := s.unwrite p w) ▸ h.waits.woken hl
      · by_cases hj : j = .inr w
        case pos => subst hj; simp [State.setwriter, State.retail, State.woken, State.unwrite, h.fifo, hl]
        case neg => simp [State.setwriter, State.retail, State.woken, State.unwrite, h.fifo, hj]
      · refine h.waits.map_woken (j := .inr w') hl ▸ ?_
        by_cases hw' : w' = w
        case pos =>
          subst hw'
          simpa [State.setwriter, State.retail, State.woken, State.unwrite] using hheld.unwrite_readers hp hne hnm hf
        case neg =>
          simpa [State.setwriter, State.retail, State.woken, State.unwrite, hw'] using h.rwlocks w'

-- A process that has been taken off is made ready, or one that is ready runs.
omit [DecidableEq P] [DecidableEq Q] [DecidableEq W] in
theorem turn {t : Waiting P (Q ⊕ W)} (h : Inv s l) (ht : Waits t l)
    (hst : ∀ i, ∀ x ∈ l i, t.state x = s.state x) : Inv { s with toWaiting := t } l where
  waits   := ht
  fifo    := h.fifo
  qlocks  := h.qlocks
  rwlocks w := (List.map_congr_left (hst (.inr w)) : (l (.inr w)).map t.state = _) ▸ h.rwlocks w
  panic   := h.panic

omit [DecidableEq Q] [DecidableEq W] in
theorem ready (h : Inv s l) (hp : s.pc p = .readying x) :
    Inv { s with toWaiting := (s.toWaiting.ready x).goto p .idle } l := by
  refine h.turn (h.waits.ready hp) fun i y hy => ?_
  have hyx : y ≠ x := fun he => (h.waits.readied hp).right.right i (he ▸ hy)
  exact Function.update_of_ne hyx ..

omit [DecidableEq Q] [DecidableEq W] in
theorem resume (h : Inv s l) (hp : s.pc p = .waiting) (hr : s.state p = .ready) :
    Inv { s with toWaiting := s.toWaiting.run p } l := by
  refine h.turn (h.waits.run hp hr) fun i y hy => ?_
  have hq := (h.waits.waits hy).right
  have hyp : y ≠ p := fun he => by simp [he, hr, PState.Queues] at hq
  exact Function.update_of_ne hyp ..

omit [DecidableEq P] [DecidableEq Q] [DecidableEq W] in
theorem protocol (h : Inv s l) : Protocol s l where
  lists := h.waits.lists
  one q := by
    cases hq : s.locked q with
    | false => simp [((h.qlocks q).free hq).left]
    | true =>
      obtain ⟨p, hp⟩ := (h.qlocks q).held hq
      simp [hp]
  apart w := by
    rcases (h.rwlocks w).apart with hw | ⟨p, hw, hr⟩
    · exact .inr hw
    · exact .inl ⟨by simp [hw], hr⟩
  readers w := ⟨(h.rwlocks w).readers, (h.rwlocks w).nodup⟩
  fifo := h.fifo
  together w hw x hx he := by
    refine (h.rwlocks w).first hw ?_
    rw [List.head?_map, Option.mem_def.mp hx, Option.map_some, he]
  queued x := h.waits.queued
  panic := h.panic

end Inv

omit [DecidableEq P] [DecidableEq Q] [DecidableEq W] in
theorem inv_fresh : Inv (fresh : State P Q W) fun _ => [] where
  waits := by
    refine ⟨⟨fun _ => rfl, fun _ => rfl, fun _ => trivial, fun _ => .nil, fun h => ?_⟩, fun h => ?_, ?_, ?_, ?_, ?_⟩
    · cases h
    · cases h
    all_goals simp [fresh]
  fifo _ := rfl
  qlocks _ := ⟨fun _ => ⟨rfl, rfl⟩, nofun⟩
  rwlocks _ := ⟨rfl, .nil, rfl, .inl rfl, fun _ _ => rfl, fun _ => nofun, nofun⟩
  panic := rfl

theorem invariant [Fintype P] : (machine P Q W).Invariant (fun _ _ => True) fun s => ∃ l, Inv s l where
  init hi := ⟨_, hi ▸ inv_fresh⟩
  step {s a s'} h _ hs := by
    obtain ⟨l, h⟩ := h
    cases a <;> simp only [machine, State.step, Option.ite_none_right_eq_some, Option.some.injEq] at hs
    case qlock p q => obtain ⟨hc, rfl⟩ := hs; exact h.qlock hc
    case canqlock p q busy => obtain ⟨hc, rfl⟩ := hs; exact h.canqlock hc
    case qunlock p q => obtain ⟨⟨hc, hp⟩, rfl⟩ := hs; exact h.qunlock hc hp
    case rlock p w => obtain ⟨⟨hc, hp⟩, rfl⟩ := hs; exact h.rlock hc hp
    case canrlock p w => obtain ⟨⟨hc, hp⟩, rfl⟩ := hs; exact h.canrlock hp
    case runlock p w => obtain ⟨⟨hc, hp⟩, rfl⟩ := hs; exact h.runlock hc hp
    case wlock p w => obtain ⟨hc, rfl⟩ := hs; exact h.wlock hc
    case wunlock p w => obtain ⟨⟨hc, hp⟩, rfl⟩ := hs; exact h.wunlock hc hp
    case ready p =>
      split at hs <;> cases hs
      case h_1 x hp => exact ⟨l, h.ready hp⟩
    case resume p => obtain ⟨⟨hp, hr⟩, rfl⟩ := hs; exact ⟨l, h.resume hp hr⟩

theorem lock_protocol [Fintype P] (hr : (machine P Q W).Reachable (fun _ _ => True) s) : ∃ l, Protocol s l :=
  have ⟨l, h⟩ := invariant.holds hr
  ⟨l, h.protocol⟩

-- The second process has been given the lock, and it has not been made ready yet.
def handed : State (Fin 2) Unit Empty :=
  ((machine (Fin 2) Unit Empty).exec fresh [.qlock 0 (), .qlock 1 (), .qunlock 0 ()]).get (by decide +kernel)

theorem queueing_unlisted : (machine (Fin 2) Unit Empty).Reachable (fun _ _ => True) handed ∧
    ¬∃ l, Fifos handed.head handed.tail handed.qnext l ∧ ∀ x, (∃ i, x ∈ l i) ↔ (handed.state x).Queues := by
  refine ⟨(Machine.Reachable.init rfl).exec (fun _ _ _ => trivial) (Option.some_get _).symm, fun ⟨l, h, hq⟩ => ?_⟩
  have hstate : (handed.state 1).Queues := by decide +kernel
  have hhead : handed.head (.inl ()) = none := by decide +kernel
  obtain ⟨i, hi⟩ := (hq 1).mpr hstate
  obtain rfl : i = .inl () := by rcases i with i | i; rfl; nomatch i
  rw [h.hd_eq_none.mp hhead] at hi
  contradiction

-- A writer lets in two readers that wait, and another writer waits for them.
def shared : State (Fin 4) Empty Unit :=
  ((machine (Fin 4) Empty Unit).exec fresh
    [.wlock 0 (), .rlock 1 (), .rlock 2 (), .wlock 3 (), .wunlock 0 (), .resume 1, .runlock 1 ()]).get (by decide +kernel)

theorem shared_protocol : ∃ l, Protocol shared l :=
  lock_protocol ((Machine.Reachable.init rfl).exec (fun _ _ _ => trivial) (Option.some_get _).symm)

end Port.Qlock
