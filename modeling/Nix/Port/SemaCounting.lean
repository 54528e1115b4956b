import Nix.Port.SemaRuns

namespace Port.Sema

variable {P : Type*} [Fintype P] [DecidableEq P] {s s' : State P} {p q : P}

namespace Sound

theorem keep {y : Proc P} (hs : Sound s) (hpc : y.pc = (s.proc p).pc) (hw : y.waiting = (s.proc p).waiting)
    (hcall : y.call = (s.proc p).call) (htook : y.took = (s.proc p).took) : Sound (s.set p y) := by
  have hok := hs.place p
  refine hs.set (.inr ⟨fun r _ => ?_, ?_⟩) ?_ ?_ ?_ ?_ htook
  · rw [Proc.tokens, Proc.tokens, hpc, hw]
  · rw [Proc.Committed, Proc.Committed, hpc, hw]
    exact id
  · rw [hpc]
  · rw [hpc]
  · rw [hpc]
    exact hs.rest p
  · rcases y with ⟨_, _, _, _, _, _, _⟩
    dsimp only at hpc hcall htook
    subst hpc hcall htook
    exact hok

theorem step (hs : Sound s) {act : Act P} (hf : Fits s act) (ht : machine.step s act = some s') : Sound s' := by
  cases act
  case run p => exact hs.run hf ht
  case call p c =>
    obtain ⟨hp, ht⟩ := Option.ite_none_right_eq_some.mp ht
    obtain rfl := Option.some.inj ht
    have hok := hs.place p
    simp only [Proc.Ok, hp] at hok
    refine hs.set (.inr ⟨fun _ _ => ?_, ?_⟩) ?_ ?_ ?_ ?_ rfl
    all_goals simp [Proc.tokens, Proc.Committed, Pc.Commits, Pc.OnQueue, Pc.Locked, Pc.rest, Proc.Ok, hp, hok]
  case postnote p =>
    obtain rfl := Option.some.inj ht
    exact hs.keep rfl rfl rfl rfl
  case notify p =>
    obtain ⟨-, ht⟩ := Option.ite_none_right_eq_some.mp ht
    obtain rfl := Option.some.inj ht
    exact hs.keep rfl rfl rfl rfl
  case twakeup p =>
    obtain ⟨-, ht⟩ := Option.ite_none_right_eq_some.mp ht
    obtain rfl := Option.some.inj ht
    exact hs.keep rfl rfl rfl rfl
  case ready p =>
    obtain ⟨-, ht⟩ := Option.ite_none_left_eq_some.mp ht
    obtain rfl := Option.some.inj ht
    refine ready <| hs.keep ?_ ?_ ?_ ?_ <;> rfl
  case tick =>
    obtain rfl := Option.some.inj ht
    exact { hs with }

theorem of_init (hi : Init s) : Sound s where
  value      := hi.value
  nodup      := hi.sema ▸ List.nodup_nil
  sema p     := by simp [hi.sema, hi.pc, Pc.OnQueue]
  lock p     := by simp [hi.lock, hi.pc, Pc.Locked]
  rest p     := by simp [hi.pc, Pc.rest]
  tokens r h := by simp [Proc.Committed, hi.pc, Pc.Commits] at h
  place p    := by simp [Proc.Ok, hi.pc, hi.took]
  sum        := by
    have : tally (fun x => (x.took : Int)) s.proc = 0 := tally_eq_zero fun p => by rw [hi.took]; rfl
    simp [this, hi.init, hi.released, hi.done]
  done       := by simp [hi.done]

end Sound

namespace Heard

omit [Fintype P] in
theorem keep {y : Proc P} (hh : Heard s) (hpc : y.pc = (s.proc p).pc) (hw : y.waiting = (s.proc p).waiting) :
    Heard (s.set p y) := by
  refine hh.move rfl (fun r hr => .inl ?_) fun ha hy => ?_
  · rw [hpc, hr]
  · rw [← hpc, ← hw]
    exact ⟨ha, hy⟩

omit [Fintype P] in
theorem step (hh : Heard s) {act : Act P} (ht : machine.step s act = some s') : Heard s' := by
  cases act
  case run p => exact hh.run ht
  case call p c =>
    obtain ⟨hp, ht⟩ := Option.ite_none_right_eq_some.mp ht
    obtain rfl := Option.some.inj ht
    exact hh.set (by rw [hp]; rfl) False.elim
  case postnote p =>
    obtain rfl := Option.some.inj ht
    exact hh.keep rfl rfl
  case notify p =>
    obtain ⟨-, ht⟩ := Option.ite_none_right_eq_some.mp ht
    obtain rfl := Option.some.inj ht
    exact hh.keep rfl rfl
  case twakeup p =>
    obtain ⟨-, ht⟩ := Option.ite_none_right_eq_some.mp ht
    obtain rfl := Option.some.inj ht
    exact hh.keep rfl rfl
  case ready p =>
    obtain ⟨-, ht⟩ := Option.ite_none_left_eq_some.mp ht
    obtain rfl := Option.some.inj ht
    refine ready <| hh.keep ?_ ?_ <;> rfl
  case tick =>
    obtain rfl := Option.some.inj ht
    exact hh

end Heard

theorem invariant : machine.Invariant Fits fun s : State P => Sound s ∧ Heard s where
  init hi        := ⟨.of_init hi, fun p hp => by rw [hi.pc] at hp; exact hp.elim⟩
  step hs hf ht  := ⟨hs.left.step hf ht, hs.right.step ht⟩

-- No process does anything until somebody makes a call or sends a note.
def State.Quiescent (s : State P) : Prop :=
  ∀ p, (s.proc p).pc = .user ∨ (s.proc p).pc.Asleep

namespace Sound

theorem sum_took (hs : Sound s) : (s.done.map Done.took).sum = s.done.countP Done.acquired := by
  have hdone := hs.done
  generalize s.done = l at hdone ⊢
  induction l
  case nil => rfl
  case cons d l ih =>
    rw [List.forall_mem_cons] at hdone
    rw [List.map_cons, List.sum_cons, ih hdone.right, hdone.left, List.countP_cons, Nat.add_comm]

theorem took_of_quiescent (hs : Sound s) (hq : s.Quiescent) (p : P) : (s.proc p).took = 0 := by
  have hok := hs.place p
  rw [Proc.Ok] at hok
  rcases hq p with hp | hp
  · rw [hp] at hok
    exact hok
  · cases hpc : (s.proc p).pc <;> rw [hpc] at hp hok <;> first | exact hp.elim | exact hok.left

theorem not_asleep (hs : Sound s) (hh : Heard s) (hq : s.Quiescent) (hv : 0 < s.value) (p : P) :
    ¬ (s.proc p).pc.Asleep := by
  have hwaiting (r : P) (hr : (s.proc r).pc.Asleep) : (s.proc r).waiting = true := by
    refine Classical.byContradiction fun hw => ?_
    obtain ⟨w, hwr⟩ := hh r hr (Bool.not_eq_true _ ▸ hw)
    rcases hq w with hpc | hpc
    · rw [hpc] at hwr
      contradiction
    · cases hw : (s.proc w).pc <;> rw [hw] at hpc hwr <;> first | exact hpc.elim | contradiction
  intro hp
  have hcommits : (s.proc p).pc.Commits := by
    cases hpc : (s.proc p).pc <;> rw [hpc] at hp <;> first | exact hp.elim | trivial
  have hle := hs.tokens p ⟨hwaiting p hp, hcommits⟩
  have hzero : tally (Proc.tokens p) s.proc = 0 := by
    refine tally_eq_zero fun r => ?_
    rw [Proc.tokens]
    rcases hq r with hr | hr
    · rw [hr]
    · cases hpc : (s.proc r).pc <;> rw [hpc] at hr <;> first | exact hr.elim | exact if_pos (hwaiting r (hpc ▸ trivial))
  omega

end Sound

-- Nothing is lost or made up, and nobody sleeps while there is something to take.
theorem semaphore_counts (hr : machine.Reachable Fits s) :
    0 ≤ s.value ∧
    s.value + tally (fun x => (x.took : Int)) s.proc + s.done.countP Done.acquired = s.init + s.released ∧
    (∀ d ∈ s.done, d.took = if d.acquired then 1 else 0) ∧
    (s.Quiescent →
      s.value + s.done.countP Done.acquired = s.init + s.released ∧ (0 < s.value → ∀ p, ¬ (s.proc p).pc.Asleep)) := by
  have ⟨hs, hh⟩ := invariant.holds hr
  have hsum := hs.sum
  rw [hs.sum_took] at hsum
  refine ⟨hs.value, hsum, hs.done, fun hq => ⟨?_, hs.not_asleep hh hq⟩⟩
  have hzero : tally (fun x => (x.took : Int)) s.proc = 0 := tally_eq_zero fun p => by rw [hs.took_of_quiescent hq]; rfl
  rw [hzero] at hsum
  omega

instance (s : State P) (act : Act P) : Decidable (Fits s act) := by
  unfold Fits
  split
  · split <;> infer_instance
  · infer_instance

def idle : State (Fin 3) where
  value    := 0
  sema     := []
  lock     := none
  ticks    := 0
  proc _   :=
    { pc := .user, call := .semrelease 0, waiting := false, trend := false, notepending := false, wakeups := 0, took := 0 }
  init     := 0
  released := 0
  done     := []

theorem init_idle : Init idle :=
  ⟨Int.le_refl 0, rfl, rfl, fun _ => rfl, fun _ => rfl, rfl, rfl, rfl⟩

-- Two processes sleep, and one of them is woken.
def releasing : List (Act (Fin 3)) :=
  Act.call 0 (.semacquire true) :: List.replicate 7 (Act.run 0) ++ Act.call 1 (.tsemacquire 50) :: List.replicate 7 (Act.run 1) ++
  Act.call 2 (.semrelease 1) :: List.replicate 7 (Act.run 2) ++ List.replicate 6 (Act.run 0)

theorem semaphore_counts_releasing : ∃ s : State (Fin 3), machine.Reachable Fits s ∧
    (s.done.length = 2 ∧ ((s.proc 1).pc = .asleep (.tsem 50 0) ∧ s.value = 0)) ∧
    s.value + tally (fun x => (x.took : Int)) s.proc + s.done.countP Done.acquired = s.init + s.released := by
  have hrun : ((machine.guarded Fits).exec idle releasing).any
      (fun s => s.done.length = 2 ∧ ((s.proc 1).pc = .asleep (.tsem 50 0) ∧ s.value = 0)) = true := by decide +kernel
  obtain ⟨s, hr, hs⟩ := Machine.exists_reachable init_idle hrun
  exact ⟨s, hr, of_decide_eq_true hs, (semaphore_counts hr).right.left⟩

-- What a `tsemacquire` of a negative time finds in its loop is gone: it returns 0 all the same.
def losing : List (Act (Fin 3)) :=
  Act.call 0 (.tsemacquire (-1)) :: List.replicate 3 (Act.run 0) ++ Act.call 1 (.semrelease 1) :: List.replicate 6 (Act.run 1) ++
  List.replicate 5 (Act.run 0)

-- What is added does not fit an `int`.
def overflowing : List (Act (Fin 3)) :=
  Act.call 0 (.semrelease (2 ^ 31 - 1)) :: List.replicate 5 (Act.run 0) ++ Act.call 0 (.semrelease 1) :: List.replicate 5 (Act.run 0)

theorem semaphore_loses :
    (∃ s : State (Fin 3), machine.Reachable (fun _ _ => True) s ∧
      (Done.mk (.tsemacquire (-1)) (.i 0) 1 ∈ s.done ∧
        (∀ p, (s.proc p).pc = .user) ∧ s.value + s.done.countP Done.acquired ≠ s.init + s.released)) ∧
    ∃ s : State (Fin 3), machine.Reachable (fun _ _ => True) s ∧ s.value < 0 := by
  constructor
  · have hrun : ((machine.guarded fun _ _ => True).exec idle losing).any (fun s : State (Fin 3) =>
        Done.mk (.tsemacquire (-1)) (.i 0) 1 ∈ s.done ∧
          (∀ p, (s.proc p).pc = .user) ∧ s.value + (s.done.countP Done.acquired : Int) ≠ s.init + s.released) = true := by
      decide +kernel
    obtain ⟨s, hr, hs⟩ := Machine.exists_reachable init_idle hrun
    exact ⟨s, hr, of_decide_eq_true hs⟩
  · have hrun : ((machine.guarded fun _ _ => True).exec idle overflowing).any (fun s => s.value < 0) = true := by
      decide +kernel
    obtain ⟨s, hr, hs⟩ := Machine.exists_reachable init_idle hrun
    exact ⟨s, hr, of_decide_eq_true hs⟩

end Port.Sema
