import Mathlib.Data.List.Nodup
import Nix.Port.Syssem

namespace Port.Sem

variable {P X : Type*}

def Caller.Valid (x : X) : Caller X → Prop
  | .proc         => True
  | .altsems ss i => ss[i]? = some x

def Cont.Valid (x : X) : Cont X → Prop
  | .upsem     => True
  | .downsem k => k.Valid x
  | .semalt .. => False

namespace Pc

-- The process is on the queue of a semaphore.
def Waits (x : X) : Pc X → Prop
  | .asleep y       => y = x
  | .altasleep ss _ => ss[0]? = some x
  | _               => False

-- The process has the lock of a semaphore.
def Holds (x : X) : Pc X → Prop
  | .wakeup y .. | .wake y .. | .sleep y | .queue y | .killed y => y = x
  | .altqueue ss i _ => ss[i]? = some x
  | .dequeue ss _ j _ => ss[j]? = some x
  | _ => False

-- What `semalt` can do, for a process with this `waitsem`. Its loop ends after the first semaphore,
-- for its bound is then the value that is left there.
def Valid (w : Option X) : Pc X → Prop
  | .test x nb k | .dec x nb k => k.Valid x ∧ (k ≠ .proc → nb)
  | .undo x k => k.Valid x
  | .wakelock x c => c.Valid x
  | .wakeup x didwake c | .wake x didwake c => c.Valid x ∧ didwake
  | .altdec ss i => i = 0 ∧ ∃ x, ss[0]? = some x
  | .altlock ss i n | .altqueue ss i n => i = 0 ∧ n < 0 ∧ ∃ x, ss[0]? = some x
  | .altasleep ss i => i = 1 ∧ ∃ x, ss[0]? = some x
  | .altdone ss i j r =>
    (∃ x, ss[0]? = some x) ∧ (i = 0 ∧ j = 0 ∧ r = 0 ∨ i = 1 ∧ (j = 0 ∧ r = -1 ∧ w = ss[0]? ∨ j = 1 ∧ r = 0))
  | .altret ss r => ∃ x, ss[r]? = some x
  | .dequeuelock .. | .dequeue .. | .panic => False
  | _ => True

end Pc

structure Inv (s : State P X) : Prop where
  valid  : ∀ p, (s.pc p).Valid (s.waitsem p)
  queued : ∀ x p, p ∈ s.q x ↔ (s.pc p).Waits x
  nodup  : ∀ x, (s.q x).Nodup
  held   : ∀ x p, (s.pc p).Holds x → s.lock x = some p

theorem unqueue_perm (p : P) (l : List P) : (unqueue (p :: l) 0).Perm l := by
  rcases List.eq_nil_or_concat' l with rfl | ⟨l, z, rfl⟩
  · rfl
  · have hdrop : (z :: (l ++ [z])).dropLast = z :: l := @List.dropLast_concat _ (z :: l) _
    have hlast : (p :: (l ++ [z])).getLast? = some z := List.getLast?_concat (l := p :: l)
    rw [unqueue, hlast]
    exact (List.Perm.of_eq hdrop).trans (List.perm_append_singleton z l).symm

variable {s s' : State P X}

namespace Inv

theorem frame (h : Inv s) (p : P) (hpc : ∀ p' ≠ p, s'.pc p' = s.pc p')
    (hw : ∀ p' ≠ p, s'.waitsem p' = s.waitsem p')
    (hv : (s'.pc p).Valid (s'.waitsem p))
    (hq : ∀ x, ∀ p' ≠ p, p' ∈ s'.q x ↔ p' ∈ s.q x) (hp : ∀ x, p ∈ s'.q x ↔ (s'.pc p).Waits x)
    (hn : ∀ x, (s'.q x).Nodup)
    (hl : ∀ x, ∀ p' ≠ p, s.lock x = some p' → s'.lock x = some p')
    (hh : ∀ x, (s'.pc p).Holds x → s'.lock x = some p) : Inv s' where
  valid p' := by
    by_cases hp' : p' = p
    case pos => exact hp' ▸ hv
    case neg => exact hpc p' hp' ▸ hw p' hp' ▸ h.valid p'
  queued x p' := by
    by_cases hp' : p' = p
    case pos => exact hp' ▸ hp x
    case neg => rw [hq x p' hp', hpc p' hp', h.queued]
  nodup := hn
  held x p' hx := by
    by_cases hp' : p' = p
    case pos => exact hp' ▸ hh x (hp' ▸ hx)
    case neg => exact hl x p' hp' <| h.held x p' (hpc p' hp' ▸ hx)

theorem same (h : Inv s) (hpc : s'.pc = s.pc) (hw : s'.waitsem = s.waitsem)
    (hq : s'.q = s.q) (hl : s'.lock = s.lock) : Inv s' where
  valid p := by rw [hpc, hw]; exact h.valid p
  queued x p := by rw [hpc, hq]; exact h.queued x p
  nodup x := hq ▸ h.nodup x
  held x p := by rw [hpc, hl]; exact h.held x p

theorem created (h : Created v₀ s) : Inv s where
  valid p := h.pc p ▸ trivial
  queued x p := by
    rw [h.q, h.pc]
    exact iff_of_false List.not_mem_nil id
  nodup x := h.q x ▸ .nil
  held x p hp := by
    rw [h.pc] at hp
    exact hp.elim

variable [DecidableEq P] [DecidableEq X]

-- A step that leaves the queues and the locks alone.
omit [DecidableEq X] in
theorem goto (h : Inv s) (hold : s.pc p = c₀) (hc : c.Valid (s.waitsem p)) (hw : ∀ x, c.Waits x ↔ c₀.Waits x)
    (hh : ∀ x, c.Holds x → c₀.Holds x) : Inv (s.goto p c) := by
  subst hold
  have hpc : (s.goto p c).pc p = c := Function.update_self ..
  refine h.frame p (fun p' hp' => Function.update_of_ne hp' ..) (fun _ _ => rfl) (by rwa [hpc])
    (fun _ _ _ => Iff.rfl) (fun x => ?_) h.nodup (fun _ _ _ => id) fun x hx => ?_
  · rw [hpc, hw]
    exact h.queued x p
  · exact h.held x p (hh x (hpc ▸ hx))

theorem acquire (h : Inv s) (hold : s.pc p = c₀) (hs : s.acquire p x c = some s') (hc : c.Valid (s.waitsem p))
    (hw : ∀ y, c.Waits y ↔ c₀.Waits y) (hh : ∀ y, c.Holds y → x = y) : Inv s' := by
  subst hold
  rw [State.acquire] at hs
  split at hs
  case isFalse => contradiction
  case isTrue hlock =>
    obtain rfl := Option.some.inj hs
    refine h.frame p (fun p' hp' => Function.update_of_ne hp' ..) (fun _ _ => rfl) ?_
      (fun _ _ _ => Iff.rfl) (fun y => ?_) h.nodup (fun y p' _ hl => ?_) fun y hy => ?_
    · simpa [State.goto] using hc
    · simpa [State.goto, hw] using h.queued y p
    · have hy : y ≠ x := fun hy => by simp [hy ▸ hlock] at hl
      simpa [State.goto, hy] using hl
    · obtain rfl := hh y (by simpa [State.goto] using hy)
      simp [State.goto]

theorem release (h : Inv s) (hold : s.pc p = c₀) (hx : c₀.Holds x) (hc : c.Valid (s.waitsem p))
    (hw : ∀ y, c.Waits y ↔ c₀.Waits y) (hh : ∀ y, ¬c.Holds y) : Inv ((s.release x).goto p c) := by
  subst hold
  have hlock := h.held x p hx
  refine h.frame p (fun p' hp' => Function.update_of_ne hp' ..) (fun _ _ => rfl) ?_
    (fun _ _ _ => Iff.rfl) (fun y => ?_) h.nodup (fun y p' hp' hl => ?_) fun y hy => ?_
  · simpa [State.goto, State.release] using hc
  · simpa [State.goto, State.release, hw] using h.queued y p
  · have hy : y ≠ x := fun hy => hp' (Option.some.inj (hl.symm.trans (hy ▸ hlock)))
    simpa [State.goto, State.release, hy] using hl
  · exact (hh y (by simpa [State.goto] using hy)).elim

theorem enqueue (h : Inv s) (hold : s.pc p = c₀) (hx : c₀.Holds x) (hnone : ∀ y, ¬c₀.Waits y)
    (hs : s' = s ∨ s' = { s with waitsem := Function.update s.waitsem p none }) (hc : c.Valid (s'.waitsem p)) (hw : ∀ y, c.Waits y ↔ y = x) (hh : ∀ y, ¬c.Holds y) :
    Inv (((s'.setq x (s'.q x ++ [p])).release x).goto p c) := by
  subst hold
  have hlock := h.held x p hx
  have hnot : p ∉ s.q x := fun hm => hnone x <| (h.queued x p).mp hm
  have hnone y : p ∉ s.q y := fun hm => hnone y <| (h.queued y p).mp hm
  have hother : ∀ p' ≠ p, s'.waitsem p' = s.waitsem p' := by
    rcases hs with rfl | rfl
    · exact fun _ _ => rfl
    · exact fun p' hp' => Function.update_of_ne hp' ..
  obtain ⟨hpc, hq, hl⟩ : s'.pc = s.pc ∧ s'.q = s.q ∧ s'.lock = s.lock := by
    rcases hs with rfl | rfl <;> exact ⟨rfl, rfl, rfl⟩
  refine h.frame p (fun p' hp' => ?_) hother ?_ (fun y p' hp' => ?_) (fun y => ?_) (fun y => ?_)
    (fun y p' hp' hy => ?_) fun y hy => ?_
  · simp [State.goto, State.release, State.setq, hpc, hp']
  · simpa [State.goto, State.release, State.setq] using hc
  · by_cases hyx : y = x <;> simp [State.goto, State.release, State.setq, hq, hyx, hp']
  · by_cases hyx : y = x <;> simp [State.goto, State.release, State.setq, hq, hyx, hw, hnone]
  · by_cases hyx : y = x
    · subst hyx
      have := h.nodup y
      simp [State.goto, State.release, State.setq, hq, List.nodup_append, this]
      exact fun p' hp' he => hnot (he ▸ hp')
    · simpa [State.goto, State.release, State.setq, hq, hyx] using h.nodup y
  · have hy : y ≠ x := fun hyx => hp' (Option.some.inj (hy.symm.trans (hyx ▸ hlock)))
    simpa [State.goto, State.release, State.setq, hl, hy] using ‹s.lock y = some p'›
  · exact (hh y (by simpa [State.goto] using hy)).elim

omit [DecidableEq P] [DecidableEq X] in
theorem sleeper (h : Inv s) (hq : s.q x = q₀ :: l) :
    s.pc q₀ = .asleep x ∨ ∃ ss, ss[0]? = some x ∧ s.pc q₀ = .altasleep ss 1 := by
  have hwaits := (h.queued x q₀).mp (hq ▸ List.mem_cons_self)
  have hv := h.valid q₀
  cases hc : s.pc q₀ <;> rw [hc] at hwaits hv
  case asleep y => exact .inl (hwaits ▸ rfl)
  case altasleep ss i => exact .inr ⟨ss, hwaits, hv.left ▸ rfl⟩
  all_goals exact hwaits.elim

omit [DecidableEq X] in
theorem ready_of_asleep (h : s.pc p = .asleep x) : s.ready p = s.goto p (.done x) := by
  rw [State.ready, h]

omit [DecidableEq X] in
theorem ready_of_altasleep (h : s.pc p = .altasleep ss i) : s.ready p = s.goto p (.altdone ss i 0 (-1)) := by
  rw [State.ready, h]

omit [DecidableEq X] in
theorem ready_of_ne (h : p ≠ q₀) : (s.ready q₀).pc p = s.pc p := by
  rw [State.ready]
  split
  · exact Function.update_of_ne h ..
  · exact Function.update_of_ne h ..
  · rfl

theorem woken (h : Inv s) (hq : s.q x = q₀ :: l) :
    Inv (((s.setq x (unqueue (s.q x) 0)).give q₀ x).ready q₀) := by
  have hperm := hq ▸ unqueue_perm q₀ l
  have hnd := List.nodup_cons.mp (hq ▸ h.nodup x)
  have hmem p' (hp' : p' ≠ q₀) : p' ∈ s.q x ↔ p' ∈ l := by rw [hq, List.mem_cons, or_iff_right hp']
  have hframe (c : Pc X) (hc : c.Valid (some x)) (hw : ∀ y, ¬c.Waits y) (hh : ∀ y, ¬c.Holds y)
      (hone : ∀ y, (s.pc q₀).Waits y → y = x) :
      Inv (((s.setq x (unqueue (s.q x) 0)).give q₀ x).goto q₀ c) := by
    refine h.frame q₀ (fun p' hp' => ?_) (fun p' hp' => ?_) ?_ (fun y p' hp' => ?_) (fun y => ?_) (fun y => ?_)
      (fun _ _ _ => id) fun y hy => ?_
    · simp [State.goto, State.give, State.setq, hp']
    · simp [State.goto, State.give, State.setq, hp']
    · simpa [State.goto, State.give] using hc
    · by_cases hyx : y = x
      · subst hyx
        simp [State.goto, State.give, State.setq, hperm.mem_iff, hmem p' hp']
      · simp [State.goto, State.give, State.setq, hyx]
    · by_cases hyx : y = x
      · subst hyx
        simp [State.goto, State.give, State.setq, hperm.mem_iff, hnd.left, hw]
      · simpa [State.goto, State.give, State.setq, hyx, hw] using fun hm => hyx <| hone y <| (h.queued y q₀).mp hm
    · by_cases hyx : y = x
      · subst hyx
        simpa [State.goto, State.give, State.setq] using hperm.nodup_iff.mpr hnd.right
      · simpa [State.goto, State.give, State.setq, hyx] using h.nodup y
    · exact (hh y (by simpa [State.goto, State.give] using hy)).elim
  rcases h.sleeper hq with hc | ⟨ss, hx, hc⟩
  case inl =>
    rw [ready_of_asleep (s := (s.setq x _).give q₀ x) hc]
    refine hframe (.done x) trivial (fun _ => id) (fun _ => id) fun y hy => ?_
    rw [hc] at hy
    exact hy.symm
  case inr =>
    rw [ready_of_altasleep (s := (s.setq x _).give q₀ x) hc]
    refine hframe _ ⟨⟨x, hx⟩, .inr ⟨rfl, .inl ⟨rfl, rfl, hx.symm⟩⟩⟩ (fun _ => id) (fun _ => id) fun y hy => ?_
    rw [hc] at hy
    exact Option.some.inj (hy.symm.trans hx)

theorem awoken (h : Inv s) (hpc : s.pc p = .wakeup x didwake c) (hc : c.Valid x) : Inv (s.awoken p x c) := by
  cases c
  case upsem => exact (h.release hpc rfl (c := .idle) trivial (fun _ => Iff.rfl) fun _ => id).same rfl rfl rfl rfl
  case downsem k =>
    cases k
    case proc => exact h.release hpc rfl (c := .ret x) trivial (fun _ => Iff.rfl) fun _ => id
    case altsems ss i => exact h.release hpc rfl (c := .altret ss i) ⟨x, hc⟩ (fun _ => Iff.rfl) fun _ => id
  case semalt => exact hc.elim

theorem wake_eq (h : Inv s) (hpc : s.pc p = .wake x didwake c) (hs : s.wake p x didwake c = some s') :
    ∃ q₀ l, s.q x = q₀ :: l ∧ q₀ ≠ p ∧
      s' = (((s.setq x (unqueue (s.q x) 0)).give q₀ x).ready q₀).goto p (.wakeup x true c) := by
  have hv := h.valid p
  rw [hpc] at hv
  obtain ⟨-, rfl⟩ := hv
  rw [State.wake] at hs
  split at hs
  case h_1 => contradiction
  case h_2 q₀ l hq =>
    have hne : q₀ ≠ p := by
      rintro rfl
      have := (h.queued x q₀).mp (hq ▸ List.mem_cons_self)
      rw [hpc] at this
      exact this
    simp only [if_true, true_and, if_pos hne] at hs
    exact ⟨q₀, l, hq, hne, (Option.some.inj hs).symm⟩

theorem wake (h : Inv s) (hpc : s.pc p = .wake x didwake c) (hs : s.wake p x didwake c = some s') : Inv s' := by
  have ⟨q₀, l, hq, hne, he⟩ := h.wake_eq hpc hs
  have hv := h.valid p
  rw [hpc] at hv
  have hready := (ready_of_ne (s := (s.setq x (unqueue (s.q x) 0)).give q₀ x) hne.symm).trans hpc
  rw [he]
  exact (h.woken hq).goto hready (c := .wakeup x true c) ⟨hv.left, rfl⟩ (fun _ => Iff.rfl) fun _ => id

omit [DecidableEq X] in
theorem failure (h : Inv s) (hpc : s.pc p = .test x nb k) : Inv (s.goto p k.failure) := by
  have hv := h.valid p
  rw [hpc] at hv
  cases k
  case proc => exact h.goto hpc (c := .idle) trivial (fun _ => Iff.rfl) fun _ => id
  case altsems ss i =>
    rw [Caller.failure]
    split
    case h_1 y hy => exact h.goto hpc (c := .test y true (.altsems ss (i + 1))) ⟨hy, fun _ => rfl⟩ (fun _ => Iff.rfl) fun _ => id
    case h_2 =>
      have hlt := (List.getElem?_eq_some_iff.mp hv.left).choose
      refine h.goto hpc (c := .altdec ss 0) ⟨rfl, ss[0], ?_⟩ (fun _ => Iff.rfl) fun _ => id
      exact List.getElem?_eq_getElem (Nat.zero_lt_of_lt hlt)

theorem dec (h : Inv s) (hpc : s.pc p = .dec x nb k) : Inv (s.dec p x nb k) := by
  have hv := h.valid p
  rw [hpc] at hv
  rw [State.dec]
  have h : Inv (s.add x (-1)) := h.same rfl rfl rfl rfl
  split
  case isTrue =>
    cases k
    case proc => exact h.goto hpc (c := .ret x) trivial (fun _ => Iff.rfl) fun _ => id
    case altsems ss i => exact h.goto hpc (c := .altret ss i) ⟨x, hv.left⟩ (fun _ => Iff.rfl) fun _ => id
  case isFalse =>
    split
    case isTrue => exact h.goto hpc (c := .undo x k) hv.left (fun _ => Iff.rfl) fun _ => id
    case isFalse => exact h.goto hpc (c := .sleeplock x) trivial (fun _ => Iff.rfl) fun _ => id

theorem run (h : Inv s) (hs : s.run p = some s') : Inv s' := by
  have hv := h.valid p
  rw [State.run] at hs
  cases hpc : s.pc p <;> rw [hpc] at hs hv <;> simp only [reduceCtorEq] at hs
  case test x nb k =>
    obtain rfl := Option.some.inj hs
    split
    · exact h.failure hpc
    · exact h.goto hpc (c := .dec x nb k) hv (fun _ => Iff.rfl) fun _ => id
  case dec x nb k => exact Option.some.inj hs ▸ h.dec hpc
  case ret x =>
    obtain rfl := Option.some.inj hs
    exact (h.goto hpc (c := .idle) trivial (fun _ => Iff.rfl) fun _ => id).same rfl rfl rfl rfl
  case wakelock x c => exact h.acquire hpc hs ⟨hv, rfl⟩ (fun _ => Iff.rfl) fun _ => id
  case wakeup x didwake c =>
    obtain rfl := Option.some.inj hs
    rw [State.wakeup]
    split
    · exact h.goto hpc (c := .wake x didwake c) hv (fun _ => Iff.rfl) fun _ => id
    · exact h.awoken hpc hv.left
  case wake x didwake c => exact h.wake hpc hs
  case undo x k =>
    obtain rfl := Option.some.inj hs
    exact (h.goto hpc (c := .wakelock x (.downsem k)) hv (fun _ => Iff.rfl) fun _ => id).same rfl rfl rfl rfl
  case sleeplock x => exact h.acquire hpc hs trivial (fun _ => Iff.rfl) fun _ => id
  case sleep x =>
    obtain rfl := Option.some.inj hs
    split
    · exact h.release hpc rfl (c := .done x) trivial (fun _ => Iff.rfl) fun _ => id
    · exact h.goto hpc (c := .queue x) trivial (fun _ => Iff.rfl) fun _ => id
  case queue x =>
    obtain rfl := Option.some.inj hs
    exact h.enqueue hpc rfl (c := .asleep x) (fun _ => id) (.inr rfl) trivial (fun _ => eq_comm) fun _ => id
  case done x =>
    obtain rfl := Option.some.inj hs
    split
    · exact h.goto hpc (c := .killedlock x) trivial (fun _ => Iff.rfl) fun _ => id
    · exact h.goto hpc (c := .ret x) trivial (fun _ => Iff.rfl) fun _ => id
  case killedlock x => exact h.acquire hpc hs trivial (fun _ => Iff.rfl) fun _ => id
  case killed x =>
    obtain rfl := Option.some.inj hs
    exact (h.goto hpc (c := .wakeup x true (.downsem .proc)) ⟨trivial, rfl⟩ (fun _ => Iff.rfl) fun _ => id).same rfl rfl rfl rfl
  case altdec ss i =>
    obtain ⟨rfl, x, hx⟩ := hv
    rw [hx, Option.map_some] at hs
    obtain rfl := Option.some.inj hs
    have h : Inv (s.add x (-1)) := h.same rfl rfl rfl rfl
    rw [State.altdec]
    split
    · exact h.goto hpc (c := .altdone ss 0 0 0) ⟨⟨x, hx⟩, .inl ⟨rfl, rfl, rfl⟩⟩ (fun _ => Iff.rfl) fun _ => id
    case isFalse hneg =>
      exact h.goto hpc (c := .altlock ss 0 _) ⟨rfl, Int.not_le.mp hneg, x, hx⟩ (fun _ => Iff.rfl) fun _ => id
  case altlock ss i n =>
    obtain ⟨rfl, hn, x, hx⟩ := hv
    rw [hx] at hs
    exact h.acquire hpc hs ⟨rfl, hn, x, hx⟩ (fun _ => Iff.rfl) fun y hy => Option.some.inj (hx.symm.trans hy)
  case altqueue ss i n =>
    obtain ⟨rfl, hn, x, hx⟩ := hv
    rw [hx, Option.map_some] at hs
    obtain rfl := Option.some.inj hs
    rw [if_neg (by omega)]
    refine h.enqueue hpc hx (c := .altasleep ss 1) (fun _ => id) (.inl rfl) ⟨rfl, x, hx⟩ (fun y => ?_) fun _ => id
    rw [Pc.Waits, hx, Option.some_inj, eq_comm]
  case altdone ss i j r =>
    obtain ⟨⟨x, hx⟩, ⟨rfl, rfl, rfl⟩ | ⟨rfl, hv⟩⟩ := hv
    case inl =>
      obtain rfl := Option.some.inj hs
      exact h.goto hpc (c := .altret ss 0) ⟨x, hx⟩ (fun _ => Iff.rfl) fun _ => id
    case inr =>
      rcases hv with ⟨rfl, rfl, hw⟩ | ⟨rfl, rfl⟩
      · rw [if_pos Nat.zero_lt_one, hx, Option.map_some] at hs
        obtain rfl := Option.some.inj hs
        rw [if_pos (hw.trans hx)]
        exact h.goto hpc (c := .altdone ss 1 1 0) ⟨⟨x, hx⟩, .inr ⟨rfl, .inr ⟨rfl, rfl⟩⟩⟩ (fun _ => Iff.rfl) fun _ => id
      · obtain rfl := Option.some.inj hs
        exact h.goto hpc (c := .altret ss 0) ⟨x, hx⟩ (fun _ => Iff.rfl) fun _ => id
  case altret ss r =>
    obtain ⟨x, hx⟩ := hv
    rw [hx, Option.map_some] at hs
    obtain rfl := Option.some.inj hs
    exact (h.goto hpc (c := .idle) trivial (fun _ => Iff.rfl) fun _ => id).same rfl rfl rfl rfl
  all_goals exact hv.elim

theorem upsem (h : Inv s) (hpc : s.pc p = .idle) : Inv (s.upsem p x) := by
  rw [State.upsem]
  split
  · exact (h.goto hpc (c := .wakelock x .upsem) trivial (fun _ => Iff.rfl) fun _ => id).same rfl rfl rfl rfl
  · exact (h.goto hpc (c := .idle) trivial (fun _ => Iff.rfl) fun _ => id).same rfl rfl rfl rfl

theorem step (h : Inv s) (hs : step s act = some s') : Inv s' := by
  cases act
  case upsem p x =>
    obtain ⟨hpc, he⟩ := Option.ite_none_right_eq_some.mp hs
    exact Option.some.inj he ▸ h.upsem hpc
  case downsem p x nb =>
    obtain ⟨hpc, he⟩ := Option.ite_none_right_eq_some.mp hs
    obtain rfl := Option.some.inj he
    exact h.goto hpc (c := .test x nb .proc) ⟨trivial, fun hne => (hne rfl).elim⟩ (fun _ => Iff.rfl) fun _ => id
  case altsems p ss =>
    obtain ⟨hpc, he⟩ := Option.ite_none_right_eq_some.mp hs
    obtain ⟨x, hx, rfl⟩ := Option.map_eq_some_iff.mp he
    have hx : ss[0]? = some x := List.head?_eq_getElem? ▸ hx
    exact h.goto hpc (c := .test x true (.altsems ss 0)) ⟨hx, fun _ => rfl⟩ (fun _ => Iff.rfl) fun _ => id
  case run p => exact h.run hs

end Inv

end Port.Sem
