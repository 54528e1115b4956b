import Nix.Port.SyssemInvariant

namespace Port.Sem

variable {P X : Type*} [DecidableEq P] [DecidableEq X]

-- What a process has taken of each semaphore since its call began, by what it did to the integers.
abbrev Taken (P X : Type*) :=
  P → X → Int

-- What is taken after a step.
def takes (s s' : State P X) (t : X → Int) : X → Int :=
  fun x => t x + (s.np x - s'.np x)

def note (s : State P X) : Act P X → Taken P X → Taken P X
  | .upsem .., r => r
  | .downsem p .., r | .altsems p _, r => Function.update r p 0
  | .run p, r =>
    match s.run p with
    | some s' => Function.update r p (takes s s' (r p))
    | none    => r

def tracked (v₀ : X → Nat) : Machine (State P X × Taken P X) (Act P X) :=
  (machine v₀).track (Taken P X) (fun _ _ => 0) note

-- When `altsems` tries a semaphore, it decrements the integer only if there is a ticket. When it gets to
-- `semalt`, the first semaphore has a ticket, or there is no other one.
def Single (s : State P X) : Act P X → Prop
  | .run p =>
    match s.pc p with
    | .dec x _ (.altsems ..) => 0 < s.np x
    | .altdec ss _ => (∀ x, ss[0]? = some x → 0 < s.np x) ∨ ss.length = 1
    | _ => True
  | _ => True

namespace Pc

-- What a process that runs `altsems` has taken.
def Took (t : X → Int) : Pc X → Prop
  | .test _ _ (.altsems ..) | .dec _ _ (.altsems ..) | .altdec .. => t = 0
  | .altlock ss .. | .altqueue ss .. | .altasleep ss _ => ss.length = 1 ∧ ∃ x, ss[0]? = some x ∧ t = Pi.single x 1
  | .altdone ss .. => ∃ x, ss[0]? = some x ∧ t = Pi.single x 1
  | .altret ss r => ∃ x, ss[r]? = some x ∧ t = Pi.single x 1
  | .undo _ (.altsems ..) => False
  | .wakelock _ (.downsem (.altsems ..)) | .wakeup _ _ (.downsem (.altsems ..))
  | .wake _ _ (.downsem (.altsems ..)) => False
  | _ => True

end Pc

variable {s s' : State P X} {r r' : Taken P X}

structure Alt (s : State P X) (r : Taken P X) : Prop where
  inv  : Inv s
  took : ∀ p, (s.pc p).Took (r p)

-- A down that failed took nothing.
omit [DecidableEq P] in
theorem Caller.failure_took {t : X → Int} (k : Caller X) (h : (Pc.test x nb k).Took t) : k.failure.Took t := by
  rcases k with _ | ⟨ss, i⟩
  · trivial
  · simp only [failure]
    split <;> exact h

namespace Alt

omit [DecidableEq P] [DecidableEq X] in
theorem takes_none (h : s'.np = s.np) (t : X → Int) : takes s s' t = t := by
  funext x
  rw [takes, h, Int.sub_self, Int.add_zero]

omit [DecidableEq P] in
theorem takes_one (h : s'.np = (s.add x (-1)).np) : takes s s' 0 = Pi.single x 1 := by
  funext y
  by_cases hy : y = x
  · subst hy
    have hy : (s.add y (-1)).np y = s.np y + -1 := Function.update_self ..
    rw [takes, h, Pi.single_eq_same, hy, Pi.zero_apply]
    omega
  · simp [takes, h, State.add, hy]

theorem note_run (hs : s.run p = some s') :
    note s (.run p) r = Function.update r p (takes s s' (r p)) := by
  rw [note, hs]

theorem frame (h : Alt s r) (hinv : Inv s') (hs : s.run p = some s') (hpc : ∀ p' ≠ p, s'.pc p' = s.pc p')
    (hp : (s'.pc p).Took (takes s s' (r p))) : Alt s' (note s (.run p) r) := by
  refine ⟨hinv, fun p' => ?_⟩
  rw [note_run hs]
  by_cases hp' : p' = p
  case pos =>
    subst hp'
    simpa using hp
  case neg =>
    simpa [hp', hpc p' hp'] using h.took p'

theorem goto (h : Alt s r) (hinv : Inv s') (hs : s.run p = some s') (hpc : s'.pc = Function.update s.pc p c)
    (hnp : s'.np = s.np) (hp : c.Took (r p)) : Alt s' (note s (.run p) r) := by
  refine h.frame hinv hs (fun p' hp' => by rw [hpc, Function.update_of_ne hp']) ?_
  rwa [hpc, Function.update_self, takes_none hnp]

theorem acquire (h : Alt s r) (hinv : Inv s') (hs : s.run p = some s') (ha : s.acquire p x c = some s')
    (hp : c.Took (r p)) : Alt s' (note s (.run p) r) := by
  rw [State.acquire] at ha
  split at ha
  case isFalse => contradiction
  case isTrue =>
    obtain rfl := Option.some.inj ha
    exact h.goto hinv hs rfl rfl hp

theorem wake (h : Alt s r) (hpc : s.pc p = .wake x didwake c) (hinv : Inv s') (hrun : s.run p = some s')
    (hs : s.wake p x didwake c = some s') : Alt s' (note s (.run p) r) := by
  have ⟨q₀, l, hq, hne, he⟩ := h.inv.wake_eq hpc hs
  have ht := h.took p
  have ht₀ := h.took q₀
  have ⟨c₁, hready, htook⟩ : ∃ c₁ : Pc X,
      ((s.setq x (unqueue (s.q x) 0)).give q₀ x).ready q₀ = ((s.setq x (unqueue (s.q x) 0)).give q₀ x).goto q₀ c₁ ∧
      c₁.Took (r q₀) := by
    rcases h.inv.sleeper hq with hc | ⟨ss, hx, hc⟩
    · exact ⟨.done x, Inv.ready_of_asleep hc, trivial⟩
    · rw [hc] at ht₀
      exact ⟨.altdone ss 1 0 (-1), Inv.ready_of_altasleep hc, ht₀.right⟩
  rw [hready] at he
  have hpc' : s'.pc = Function.update (Function.update s.pc q₀ c₁) p (.wakeup x true c) := by rw [he]; rfl
  have hnp : s'.np = s.np := by rw [he]; rfl
  refine ⟨hinv, fun p' => ?_⟩
  rw [note_run hrun]
  by_cases hp : p' = p
  case pos =>
    rw [hpc] at ht
    rw [hp, hpc', Function.update_self, Function.update_self, takes_none hnp]
    rcases c with _ | ⟨_ | _⟩ | _ <;> exact ht
  by_cases hp₀ : p' = q₀
  case pos => rwa [hp₀, hpc', Function.update_of_ne hne, Function.update_of_ne hne, Function.update_self]
  case neg =>
    rw [hpc', Function.update_of_ne hp, Function.update_of_ne hp, Function.update_of_ne hp₀]
    exact h.took p'

theorem run (h : Alt s r) (hc : Single s (.run p)) (hs : s.run p = some s') : Alt s' (note s (.run p) r) := by
  have hinv := h.inv.run hs
  have hv := h.inv.valid p
  have ht := h.took p
  have hrun := hs
  rw [Single] at hc
  rw [State.run] at hs
  cases hpc : s.pc p <;> rw [hpc] at hs hv ht hc <;> simp only [reduceCtorEq] at hs
  case test x nb k =>
    obtain rfl := Option.some.inj hs
    by_cases hif : s.np x ≤ 0 ∧ nb
    case pos =>
      rw [if_pos hif] at hinv hrun ⊢
      exact h.goto hinv hrun rfl rfl (k.failure_took ht)
    case neg =>
      rw [if_neg hif] at hinv hrun ⊢
      exact h.goto hinv hrun (c := .dec x nb k) rfl rfl (by rcases k <;> exact ht)
  case dec x nb k =>
    obtain rfl := Option.some.inj hs
    refine h.frame hinv hrun (fun p' hp' => Function.update_of_ne hp' ..) ?_
    rcases k with _ | ⟨ss, i⟩
    · simp only [State.dec, State.goto, Function.update_self]
      split
      · trivial
      · split <;> trivial
    · have hx : ss[i]? = some x := hv.left
      have hpos : (s.add x (-1)).np x ≥ 0 := by
        simp only [State.add, Function.update_self]
        omega
      have ht : r p = 0 := ht
      rw [ht, takes_one (s := s) (x := x) (show (s.dec p x nb _).np = _ from rfl)]
      simp only [State.dec, State.goto, Function.update_self, if_pos hpos]
      exact ⟨x, hx, rfl⟩
  case ret x =>
    obtain rfl := Option.some.inj hs
    exact h.goto hinv hrun (c := .idle) rfl rfl trivial
  case wakelock x c => exact h.acquire hinv hrun hs (by rcases c with _ | ⟨_ | _⟩ | _ <;> exact ht)
  case wakeup x didwake c =>
    obtain rfl := Option.some.inj hs
    rw [State.wakeup] at hinv hrun ⊢
    split at hinv
    case isTrue hlt =>
      rw [if_pos hlt] at hrun ⊢
      exact h.goto hinv hrun (c := .wake x didwake c) rfl rfl (by rcases c with _ | ⟨_ | _⟩ | _ <;> exact ht)
    case isFalse hge =>
      rw [if_neg hge] at hrun ⊢
      rcases c with _ | ⟨_ | _⟩ | _
      · exact h.goto hinv hrun (c := .idle) rfl rfl trivial
      · exact h.goto hinv hrun (c := .ret x) rfl rfl trivial
      · exact ht.elim
      · exact hv.left.elim
  case wake x didwake c => exact h.wake hpc hinv hrun hs
  case undo x k =>
    obtain rfl := Option.some.inj hs
    refine h.frame hinv hrun (fun p' hp' => Function.update_of_ne hp' ..) ?_
    rcases k with _ | ⟨ss, i⟩
    · simp [State.goto, Pc.Took]
    · exact ht.elim
  case sleeplock x => exact h.acquire hinv hrun hs trivial
  case sleep x =>
    obtain rfl := Option.some.inj hs
    split
    case isTrue hge =>
      rw [if_pos hge] at hinv hrun
      exact h.goto hinv hrun (c := .done x) rfl rfl trivial
    case isFalse hlt =>
      rw [if_neg hlt] at hinv hrun
      exact h.goto hinv hrun (c := .queue x) rfl rfl trivial
  case queue x =>
    obtain rfl := Option.some.inj hs
    exact h.goto hinv hrun (c := .asleep x) rfl rfl trivial
  case done x =>
    obtain rfl := Option.some.inj hs
    refine h.goto hinv hrun rfl rfl ?_
    split <;> trivial
  case killedlock x => exact h.acquire hinv hrun hs trivial
  case killed x =>
    obtain rfl := Option.some.inj hs
    refine h.frame hinv hrun (fun p' hp' => Function.update_of_ne hp' ..) ?_
    simp [State.goto, Pc.Took]
  case altdec ss i =>
    obtain ⟨rfl, x, hx⟩ := hv
    rw [hx, Option.map_some] at hs
    obtain rfl := Option.some.inj hs
    refine h.frame hinv hrun (fun p' hp' => Function.update_of_ne hp' ..) ?_
    have ht : r p = 0 := ht
    rw [ht, takes_one (s := s) (x := x) (show (s.altdec p x ss 0).np = _ from rfl)]
    simp only [State.altdec, State.goto, Function.update_self]
    split
    · exact ⟨x, hx, rfl⟩
    case isFalse hneg =>
      refine ⟨hc.resolve_left fun hpos => hneg ?_, x, hx, rfl⟩
      have := hpos x hx
      simp only [State.add, Function.update_self]
      omega
  case altlock ss i n =>
    obtain ⟨rfl, hn, x, hx⟩ := hv
    rw [hx] at hs
    exact h.acquire hinv hrun hs ht
  case altqueue ss i n =>
    obtain ⟨rfl, hn, x, hx⟩ := hv
    rw [hx, Option.map_some, if_neg (by omega)] at hs
    obtain rfl := Option.some.inj hs
    exact h.goto hinv hrun rfl rfl ht
  case altdone ss i j r =>
    obtain ⟨⟨x, hx⟩, ⟨rfl, rfl, rfl⟩ | ⟨rfl, hv⟩⟩ := hv
    case inl =>
      obtain rfl := Option.some.inj hs
      exact h.goto hinv hrun (c := .altret ss 0) rfl rfl ht
    case inr =>
      rcases hv with ⟨rfl, rfl, hw⟩ | ⟨rfl, rfl⟩
      · rw [if_pos Nat.zero_lt_one, hx, Option.map_some] at hs
        obtain rfl := Option.some.inj hs
        refine h.goto hinv hrun rfl rfl ?_
        rw [if_pos (hw.trans hx)]
        exact ht
      · obtain rfl := Option.some.inj hs
        exact h.goto hinv hrun (c := .altret ss 0) rfl rfl ht
  case altret ss i =>
    obtain ⟨x, hx⟩ := hv
    rw [hx, Option.map_some] at hs
    obtain rfl := Option.some.inj hs
    exact h.goto hinv hrun (c := .idle) rfl rfl trivial
  all_goals exact hv.elim

theorem call (h : Alt s r) (hinv : Inv (s.goto p c)) (hp : c.Took 0) :
    Alt (s.goto p c) (Function.update r p 0) := by
  refine ⟨hinv, fun p' => ?_⟩
  by_cases hp' : p' = p
  case pos =>
    subst hp'
    simpa [State.goto] using hp
  case neg =>
    simpa [State.goto, hp'] using h.took p'

theorem upsem (h : Alt s r) (hpc : s.pc p = .idle) : Alt (s.upsem p x) r := by
  refine ⟨h.inv.upsem hpc, fun p' => ?_⟩
  rw [State.upsem]
  split
  all_goals
    by_cases hp' : p' = p
    case pos => simp [hp', State.goto, State.up, Pc.Took]
    case neg => simpa [State.goto, State.up, State.add, hp'] using h.took p'

theorem step (h : Alt s r) (hc : Single s act) (hs : step s act = some s') : Alt s' (note s act r) := by
  have hinv := h.inv.step hs
  cases act
  case upsem p x =>
    obtain ⟨hpc, he⟩ := Option.ite_none_right_eq_some.mp hs
    exact Option.some.inj he ▸ h.upsem hpc
  case downsem p x nb =>
    obtain ⟨hpc, he⟩ := Option.ite_none_right_eq_some.mp hs
    obtain rfl := Option.some.inj he
    exact h.call hinv trivial
  case altsems p ss =>
    obtain ⟨hpc, he⟩ := Option.ite_none_right_eq_some.mp hs
    obtain ⟨x, hx, rfl⟩ := Option.map_eq_some_iff.mp he
    exact h.call hinv rfl
  case run p => exact h.run hc hs

omit [DecidableEq P] in
theorem created (h : Created v₀ s) : Alt s r where
  inv    := .created h
  took p := h.pc p ▸ trivial

omit [DecidableEq P] in
-- One that sleeps in `semalt` is on the queue of the only semaphore of its list.
theorem registered (h : Alt s r) (hp : s.pc p = .altasleep ss i) : ∀ x ∈ ss, p ∈ s.q x := by
  have ht := h.took p
  rw [hp] at ht
  obtain ⟨hlen, y, hy, -⟩ := ht
  obtain ⟨z, rfl⟩ := List.length_eq_one_iff.mp hlen
  intro x hx
  obtain rfl := List.mem_singleton.mp hx
  rw [h.inv.queued, hp]
  rfl

omit [DecidableEq P] in
theorem returned (h : Alt s r) (hp : s.pc p = .altret ss i) :
    ∃ x, ss[i]? = some x ∧ r p = Pi.single x 1 ∧ ∀ y, p ∉ s.q y := by
  have ht := h.took p
  rw [hp] at ht
  obtain ⟨x, hx, ht⟩ := ht
  refine ⟨x, hx, ht, fun y hy => ?_⟩
  rw [h.inv.queued, hp] at hy
  exact hy

omit [DecidableEq P] in
theorem calm (h : Alt s r) : s.pc p ≠ .panic := by
  intro hp
  have hv := h.inv.valid p
  rw [hp] at hv
  exact hv

end Alt

theorem alt_invariant {v₀ : X → Nat} :
    (tracked v₀).Invariant (fun s a => Single s.fst a) (fun s : State P X × Taken P X => Alt s.fst s.snd) where
  init hi := .created hi.left
  step h hc hs := by
    have ⟨hstep, hnote⟩ := Machine.track_step_eq.mp hs
    exact hnote ▸ h.step hc hstep

-- In a run in which `altsems` decrements an integer only if there is a ticket or it has no other
-- semaphore, a process that sleeps in `semalt` is on the queue of each of its semaphores, and one
-- that returns has taken a ticket of the semaphore that it tells, and nothing else.
theorem semalt_registered {v₀ : X → Nat} {r : Taken P X} (hr : (tracked v₀).Reachable (fun s a => Single s.fst a) (s, r)) (p : P) :
    (∀ ss i, s.pc p = .altasleep ss i → ∀ x ∈ ss, p ∈ s.q x) ∧
    (∀ ss i, s.pc p = .altret ss i → ∃ x, ss[i]? = some x ∧ r p = Pi.single x 1 ∧ ∀ y, p ∉ s.q y) ∧
    s.pc p ≠ .panic :=
  have h : Alt s r := alt_invariant.holds hr
  ⟨fun _ _ => h.registered, fun _ _ => h.returned, h.calm⟩

-- A process takes a ticket of one of two semaphores.
def picked : State Unit Bool × Taken Unit Bool :=
  ((tracked fun _ => 1).exec (fresh fun _ => 1, fun _ => 0) [.altsems () [false, true], .run (), .run ()]).get (by decide)

theorem semalt_registered_picked : picked.fst.pc () = .altret [false, true] 0 ∧ picked.snd () = Pi.single false 1 := by
  have hr : (tracked fun _ => 1).Reachable (fun s a => Single s.fst a) ((fresh fun _ => 1, fun _ => 0) : State Unit Bool × _) :=
    .init ⟨fresh_created _, rfl⟩
  have hr := hr.step (a := Act.altsems () [false, true]) trivial rfl
  have hr := hr.step (a := Act.run ()) trivial rfl
  have hr := hr.step (a := Act.run ()) (t := picked) (Int.zero_lt_one) rfl
  have hpc : picked.fst.pc () = .altret [false, true] 0 := by decide
  obtain ⟨x, hx, hp, -⟩ := (semalt_registered hr ()).right.left _ _ hpc
  exact ⟨hpc, Option.some.inj hx ▸ hp⟩

-- There are no tickets, and the process waits for the first semaphore only.
def unregistered : State Unit Bool :=
  ((machine fun _ => 0).exec (fresh fun _ => 0)
    [.altsems () [false, true], .run (), .run (), .run (), .run (), .run ()]).get (by decide)

theorem unregistered_second :
    (machine fun _ => 0).Reachable (fun _ _ => True) unregistered ∧
      unregistered.pc () = .altasleep [false, true] 1 ∧ () ∈ unregistered.q false ∧ () ∉ unregistered.q true := by
  have hs : (machine fun _ => 0).exec (fresh fun _ => 0)
      [.altsems () [false, true], .run (), .run (), .run (), .run (), .run ()] = some unregistered := (Option.some_get _).symm
  exact ⟨(Machine.Reachable.init (fresh_created _)).exec (fun _ _ _ => trivial) hs, by decide, by decide, by decide⟩

end Port.Sem
