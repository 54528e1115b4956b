import Nix.Port.Sema

namespace Port.Sema

variable {P : Type*} [Fintype P] [DecidableEq P] {s s' : State P} {p q : P} {y : Proc P}

-- What is added fits, and no `tsemacquire` of a negative time finds the semaphore in its loop.
def Fits (s : State P) : Act P → Prop
  | .run p =>
    match (s.proc p).pc with
    | .add delta v         => s.value = v → v + delta < 2 ^ 31
    | .cas (.tsem ms _) v  => s.value = v → 0 ≤ ms
    | _                    => True
  | _ => True

omit [Fintype P] in
theorem take_finish (h : (s.proc p).took = 0) : (s.take p .user).finish p (.i 1) =
    { s.set p { s.proc p with pc := .user, took := 0 } with
      value := s.value - 1
      done  := s.done ++ [{ call := (s.proc p).call, ret := .i 1, took := 1 }] } := by
  simp only [State.finish, State.take, State.set, Function.update_idem, Function.update_self, h]

theorem int32_of_fits {v delta : Int} (hv : 0 ≤ v) (hd : 0 ≤ delta) (h : v + delta < 2 ^ 31) :
    int32 (v + delta) = v + delta := by
  have := int32_eq_self (n := (v + delta).toNat) (by omega)
  rwa [Int.toNat_of_nonneg (by omega)] at this

namespace Sound

theorem args (hs : Sound s) (hp : (s.proc p).pc = .args) (hr : s.run p = some s') : Sound s' := by
  have hok := hs.place p
  simp only [Proc.Ok, hp] at hok
  have hleave : Sound (s.finish p .error) := by
    refine hs.leave (fun _ _ => ?_) ?_ ?_ ?_
    all_goals simp [Proc.tokens, Pc.OnQueue, Pc.Locked, Done.acquired, hp, hok]
  have hset {c : Pc P} (hc : c = .fast ∧ (s.proc p).call.acquires ∨
      ∃ delta, c = .read delta ∧ 0 ≤ delta ∧ (s.proc p).call.acquires = false) : Sound (s.goto p c) := by
    refine hs.set (.inr ⟨fun _ _ => ?_, ?_⟩) ?_ ?_ ?_ ?_ rfl
    all_goals
      rcases hc with ⟨rfl, hcall⟩ | ⟨delta, rfl, hd, hcall⟩ <;>
        simp [Proc.tokens, Proc.Committed, Pc.Commits, Pc.OnQueue, Pc.Locked, Pc.rest, Proc.Ok, *]
  simp only [State.run, hp] at hr
  cases hcall : (s.proc p).call
  all_goals
    simp only [hcall, Option.some.injEq] at hr
    subst hr
    split
    · exact hleave
  case semrelease.isFalse h => exact hset <| .inr ⟨_, rfl, Int.not_lt.mp fun hd => h (.inl hd), by rw [hcall]; rfl⟩
  all_goals exact hset <| .inl ⟨rfl, by rw [hcall]; rfl⟩

theorem block (hs : Sound s) (hp : (s.proc p).pc = .fast) (hr : s.block p = some s') : Sound s' := by
  have hok := hs.place p
  simp only [Proc.Ok, hp] at hok
  have hleave : Sound (s.finish p (.i 0)) := by
    refine hs.leave (fun _ _ => ?_) ?_ ?_ ?_
    all_goals simp [Proc.tokens, Pc.OnQueue, Pc.Locked, Done.acquired, hp, hok]
  have hset {k : Loop} (hk : k.Runs) : Sound (s.goto p (.queue k)) := by
    refine hs.set (.inr ⟨fun _ _ => ?_, ?_⟩) ?_ ?_ ?_ ?_ rfl
    all_goals simp [Proc.tokens, Proc.Committed, Pc.Commits, Pc.OnQueue, Pc.Locked, Pc.rest, Proc.Ok, hp, hok, hk]
  rw [State.block] at hr
  split at hr
  all_goals
    simp only [Option.some.injEq, reduceCtorEq] at hr
  all_goals
    subst hr
    split
  case h_1.isTrue => exact hset trivial
  case h_2.isFalse h => exact hset h
  all_goals exact hleave

theorem can (hs : Sound s) (hc : (s.proc p).pc = .fast ∨ ∃ v, (s.proc p).pc = .fastcas v) (hr : s.run p = some s') :
    Sound s' := by
  have hok := hs.place p
  have hset {c : Pc P} (htook : (s.proc p).took = 0) (hacq : (s.proc p).call.acquires)
      (hy : c = .fast ∨ ∃ v, c = .fastcas v ∧ 0 < v) : Sound (s.goto p c) := by
    refine hs.set (.inr ⟨fun _ _ => ?_, ?_⟩) ?_ ?_ ?_ ?_ rfl
    all_goals
      rcases hc with hp | ⟨v, hp⟩ <;> rcases hy with rfl | ⟨v, rfl, hv⟩ <;>
        simp [Proc.tokens, Proc.Committed, Pc.Commits, Pc.OnQueue, Pc.Locked, Pc.rest, Proc.Ok, *]
  rcases hc with hp | ⟨v, hp⟩
  all_goals
    simp only [Proc.Ok, hp] at hok
    simp only [State.run, hp, Option.some.injEq] at hr
  case inl =>
    split at hr
    case isTrue hv =>
      obtain rfl := Option.some.inj hr
      exact hset hok.left hok.right <| .inr ⟨_, rfl, hv⟩
    case isFalse => exact hs.block hp hr
  case inr =>
    obtain ⟨htook, hacq, hv⟩ := hok
    split at hr
    case isFalse =>
      subst hr
      exact hset htook hacq <| .inl rfl
    case isTrue he =>
      subst hr
      rw [take_finish htook]
      exact hs.move
        { proc   := rfl
          value  := by dsimp only; omega
          tokens := .inr ⟨fun r _ => by simp [Proc.tokens, hp], fun hc => hc.right.elim⟩
          nodup  := hs.nodup
          others := fun _ _ => Iff.rfl
          sema   := (hs.sema p).trans <| iff_of_false (hp ▸ id) id
          free   := .inl rfl
          lock   := .inl ⟨rfl, iff_of_false id (hp ▸ id)⟩
          rest   := fun _ hq => absurd hq List.not_mem_nil
          place  := rfl
          init   := rfl
          sum    := by simp [State.set, htook]
          done   := by
            intro d hd
            rcases List.mem_append.mp hd with hd | hd
            · exact hs.done d hd
            · rw [List.mem_singleton.mp hd]
              simp [Done.acquired, hacq] }

theorem loop {k : Loop} (hs : Sound s) (hf : Fits s (.run p))
    (hc : (s.proc p).pc = .waiting k ∨ (s.proc p).pc = .can k ∨ ∃ v, (s.proc p).pc = .cas k v) (hr : s.run p = some s') :
    Sound s' := by
  have hok := hs.place p
  rcases hc with hp | hp | ⟨v, hp⟩
  all_goals
    simp only [Proc.Ok, hp] at hok
    simp only [State.run, hp, Option.some.injEq] at hr
    subst hr
  case inl =>
    refine hs.set (.inr ⟨fun _ _ => ?_, ?_⟩) ?_ ?_ ?_ ?_ rfl
    case refine_1 =>
      simp only [Proc.tokens, hp, if_pos]
      split <;> decide
    all_goals simp [Proc.Committed, Pc.Commits, Pc.OnQueue, Pc.Locked, Pc.rest, Proc.Ok, hp, hok]
  case inr.inl =>
    split
    case isTrue hv =>
      refine hs.set (.inr ⟨fun _ _ => ?_, ?_⟩) ?_ ?_ ?_ ?_ rfl
      all_goals simp [Proc.tokens, Proc.Committed, Pc.Commits, Pc.OnQueue, Pc.Locked, Pc.rest, Proc.Ok, hp, hok, hv]
    case isFalse hv =>
      refine hs.set (.inl <| Int.not_lt.mp hv) ?_ ?_ ?_ ?_ rfl
      all_goals simp [Pc.OnQueue, Pc.Locked, Pc.rest, Proc.Ok, hp, hok]
  case inr.inr =>
    split
    case isFalse =>
      refine hs.set (.inr ⟨fun _ _ => ?_, ?_⟩) ?_ ?_ ?_ ?_ rfl
      all_goals simp [Proc.tokens, Proc.Committed, Pc.Commits, Pc.OnQueue, Pc.Locked, Pc.rest, Proc.Ok, hp, hok]
    case isTrue he =>
      obtain ⟨htook, hacq, hk, hv⟩ := hok
      exact hs.move
        { proc   := rfl
          value  := by simp only [State.take]; omega
          tokens := .inr ⟨fun r _ => by simp only [Proc.tokens, State.take, hp]; split <;> omega, fun hc => hc.right.elim⟩
          nodup  := hs.nodup
          others := fun _ _ => Iff.rfl
          sema   := (hs.sema p).trans <| iff_of_true (hp ▸ trivial) trivial
          free   := .inl rfl
          lock   := .inl ⟨rfl, iff_of_false id (hp ▸ id)⟩
          rest   := fun _ hq => absurd hq List.not_mem_nil
          place  := by
            refine ⟨hacq, by rw [htook]; rfl, fun _ => ?_⟩
            cases k
            case sem => trivial
            case tsem ms t =>
              simp only [Fits, hp] at hf
              exact lt_of_le_of_ne (hf he) (Ne.symm hk)
          init   := rfl
          sum    := by simp [State.take, State.set, htook]
          done   := hs.done }

theorem nap {k : Loop} (hs : Sound s) (hc : (s.proc p).pc = .timer k ∨ (s.proc p).pc = .sleep k) (hr : s.run p = some s') :
    Sound s' := by
  have hok := hs.place p
  rcases hc with hp | hp
  all_goals
    simp only [Proc.Ok, hp] at hok
    simp only [State.run, hp, Option.some.injEq] at hr
  case inl =>
    cases k
    all_goals
      obtain rfl := Option.some.inj hr
      refine hs.set (.inr ⟨fun _ _ => ?_, ?_⟩) ?_ ?_ ?_ ?_ rfl
      all_goals simp [Proc.tokens, Proc.Committed, Pc.Commits, Pc.OnQueue, Pc.Locked, Pc.rest, Proc.Ok, hp, hok]
    exact hok.right.right
  case inr =>
    subst hr
    split
    all_goals
      refine hs.set (.inr ⟨fun _ _ => ?_, ?_⟩) ?_ ?_ ?_ ?_ rfl
      all_goals simp [Proc.tokens, Proc.Committed, Pc.Commits, Pc.OnQueue, Pc.Locked, Pc.rest, Proc.Ok, hp, hok]

theorem awake {k : Loop} (hs : Sound s) (hp : (s.proc p).pc = .awake k) (hr : s.run p = some s') : Sound s' := by
  have hok := hs.place p
  simp only [Proc.Ok, hp] at hok
  simp only [State.run, hp] at hr
  split at hr
  case isTrue =>
    obtain rfl := Option.some.inj hr
    refine hs.set (.inr ⟨fun _ _ => ?_, ?_⟩) ?_ ?_ ?_ ?_ rfl
    all_goals simp [Proc.tokens, Proc.Committed, Pc.Commits, Pc.OnQueue, Pc.Locked, Pc.rest, Proc.Ok, After.Ok, hp, hok]
  case isFalse =>
    cases k
    case sem =>
      obtain rfl := Option.some.inj hr
      refine hs.set (.inr ⟨fun _ _ => ?_, ?_⟩) ?_ ?_ ?_ ?_ rfl
      all_goals simp [Proc.tokens, Proc.Committed, Pc.Commits, Pc.OnQueue, Pc.Locked, Pc.rest, Proc.Ok, hp, hok]
    case tsem ms t =>
      obtain rfl := Option.some.inj hr
      split
      case isTrue =>
        refine hs.set (.inr ⟨fun _ _ => ?_, ?_⟩) ?_ ?_ ?_ ?_ rfl
        all_goals simp [Proc.tokens, Proc.Committed, Pc.Commits, Pc.OnQueue, Pc.Locked, Pc.rest, Proc.Ok, After.Ok, hp, hok]
      case isFalse hms =>
        refine hs.set (.inr ⟨fun _ _ => ?_, ?_⟩) ?_ ?_ ?_ ⟨hok.left, hok.right.left, fun he => hms he.le⟩ rfl
        all_goals simp [Proc.tokens, Proc.Committed, Pc.Commits, Pc.OnQueue, Pc.Locked, Pc.rest, hp]

theorem queue {k : Loop} (hs : Sound s) (hp : (s.proc p).pc = .queue k) (hr : s.run p = some s') : Sound s' := by
  have hok := hs.place p
  simp only [Proc.Ok, hp] at hok
  simp only [State.run, hp] at hr
  obtain ⟨hfree, hr⟩ := Option.ite_none_right_eq_some.mp hr
  obtain rfl := Option.some.inj hr
  have hnot : p ∉ s.sema := fun h => by
    have := (hs.sema p).mp h
    rwa [hp] at this
  exact hs.move
    { proc   := rfl
      value  := hs.value
      tokens := .inr ⟨fun r _ => by simp [Proc.tokens, State.set, hp], fun hc => absurd hc.left nofun⟩
      nodup  := List.concat_eq_append ▸ hs.nodup.concat hnot
      others := fun q hq => by simp [hq]
      sema   := by simp [Pc.OnQueue]
      free   := .inr hfree
      lock   := .inl ⟨rfl, iff_of_false id (hp ▸ id)⟩
      rest   := fun _ hq => absurd hq List.not_mem_nil
      place  := hok
      init   := rfl
      sum    := rfl
      done   := hs.done }

theorem dequeue {k : Loop} {a : Bool} (hs : Sound s) (hp : (s.proc p).pc = .dequeue k a) (hr : s.run p = some s') : Sound s' := by
  have hok := hs.place p
  simp only [Proc.Ok, hp] at hok
  simp only [State.run, hp] at hr
  obtain ⟨hfree, hr⟩ := Option.ite_none_right_eq_some.mp hr
  obtain rfl := Option.some.inj hr
  exact hs.move
    { proc   := rfl
      value  := hs.value
      tokens := .inr ⟨fun r _ => by simp [Proc.tokens, State.goto, State.set, hp], fun hc => hc.right.elim⟩
      nodup  := hs.nodup.erase p
      others := fun q hq => List.mem_erase_of_ne hq
      sema   := iff_of_false hs.nodup.not_mem_erase id
      free   := .inr hfree
      lock   := .inl ⟨rfl, iff_of_false id (hp ▸ id)⟩
      rest   := fun _ hq => absurd hq List.not_mem_nil
      place  := hok
      init   := rfl
      sum    := rfl
      done   := hs.done }

theorem passon {k : Loop} {a : Bool} (hs : Sound s) (hp : (s.proc p).pc = .passon k a) (hr : s.run p = some s') : Sound s' := by
  have hok := hs.place p
  simp only [Proc.Ok, hp] at hok
  simp only [State.run, hp, Option.some.injEq] at hr
  subst hr
  split
  case isTrue hw =>
    refine hs.leave (fun _ _ => ?_) ?_ ?_ hok.done
    all_goals simp [Proc.tokens, Pc.OnQueue, Pc.Locked, hp, hw]
  case isFalse hw =>
    refine hs.set (.inr ⟨fun _ _ => ?_, ?_⟩) ?_ ?_ ?_ hok rfl
    all_goals simp [Proc.tokens, Proc.Committed, Pc.Commits, Pc.OnQueue, Pc.Locked, Pc.rest, hp, hw]

theorem locked {n : Int} {a : After} (hs : Sound s) (hp : (s.proc p).pc = .lock n a) (hr : s.run p = some s') : Sound s' := by
  have hok := hs.place p
  simp only [Proc.Ok, hp] at hok
  simp only [State.run, hp] at hr
  obtain ⟨hfree, hr⟩ := Option.ite_none_right_eq_some.mp hr
  obtain rfl := Option.some.inj hr
  exact hs.move
    { proc   := rfl
      value  := hs.value
      tokens := by
        refine .inr ⟨fun r hr => ?_, fun hc => hc.right.elim⟩
        have hmem : r ∈ s.sema := (hs.sema r).mpr <| Pc.Commits.onQueue hr.right
        simp [Proc.tokens, State.goto, State.set, hp, hmem]
      nodup  := hs.nodup
      others := fun _ _ => Iff.rfl
      sema   := (hs.sema p).trans <| iff_of_false (hp ▸ id) id
      free   := .inl rfl
      lock   := .inr <| .inl ⟨hfree, rfl, trivial⟩
      rest   := fun _ hq => hq
      place  := hok
      init   := rfl
      sum    := rfl
      done   := hs.done }

omit [Fintype P] in
theorem tokens_clear {x : Proc P} {r : P} (hx : x.pc.OnQueue) (hw : x.waiting = true) :
    ({ x with waiting := false } : Proc P).tokens r = x.tokens r + 1 := by
  rcases x with ⟨c, _, w⟩
  dsimp only at hx hw
  subst hw
  cases c <;> first | rfl | exact hx.elim

theorem clear {rest : List P} {n : Int} {a : After} (hs : Sound s) (hp : (s.proc p).pc = .scan (q :: rest) n a)
    (hn : 0 < n) (hw : (s.proc q).waiting = true) :
    Sound ((s.set q { s.proc q with waiting := false }).goto p (.wakeup q rest n a)) := by
  have hmem : q ∈ s.sema := hs.rest p q <| by rw [hp]; exact List.mem_cons_self
  have hq := (hs.sema q).mp hmem
  have hqp : p ≠ q := by
    rintro rfl
    rw [hp] at hq
    exact hq
  obtain ⟨z, hz⟩ : ∃ z : Proc P, z = { s.proc q with waiting := false } := ⟨_, rfl⟩
  obtain ⟨y, hy⟩ : ∃ y : Proc P, y = { s.proc p with pc := .wakeup q rest n a } := ⟨_, rfl⟩
  have hzp : (s.set q z).proc p = s.proc p := Function.update_of_ne hqp ..
  have hgoto : (s.set q { s.proc q with waiting := false }).goto p (.wakeup q rest n a) = (s.set q z).set p y := by
    rw [State.goto, ← hz, hzp, ← hy]
  have hall {R : P → Proc P → Prop} (ho : ∀ r, R r (s.proc r)) (hqz : R q z) (hpy : R p y) (r : P) :
      R r (Function.update (s.set q z).proc p y r) :=
    update_proc (s := s.set q z) (R := R) (fun r _ => update_proc (R := R) (fun r _ => ho r) hqz r) hpy r
  have hok := hs.place p
  rw [hgoto]
  constructor
  case value => exact hs.value
  case nodup => exact hs.nodup
  case done => exact hs.done
  case sema =>
    refine hall (R := fun r x => r ∈ s.sema ↔ x.pc.OnQueue) hs.sema (hz ▸ hs.sema q) ((hs.sema p).trans ?_)
    rw [hp, hy]
    exact Iff.rfl
  case lock =>
    refine hall (R := fun r x => s.lock = some r ↔ x.pc.Locked) hs.lock (hz ▸ hs.lock q) ((hs.lock p).trans ?_)
    rw [hp, hy]
    exact Iff.rfl
  case rest =>
    refine hall (R := fun _ x => ∀ t ∈ x.pc.rest, t ∈ s.sema) hs.rest (hz ▸ hs.rest q) fun t ht => hs.rest p t ?_
    rw [hy] at ht
    rw [hp]
    exact List.mem_cons_of_mem _ ht
  case place =>
    refine hall (R := fun _ x => x.Ok) hs.place (hz ▸ hs.place q) ?_
    simp only [Proc.Ok, hp] at hok
    rw [hy]
    exact hok
  case tokens =>
    intro r hr
    have ⟨hr, hrq⟩ : (s.proc r).Committed ∧ r ≠ q := by
      refine ⟨hall (R := fun r x => x.Committed → (s.proc r).Committed) (fun _ => id) ?_ ?_ r hr, ?_⟩
      · exact fun hc => absurd hc.left <| by rw [hz]; exact Bool.false_ne_true
      · exact fun hc => by rw [hy] at hc; exact hc.right.elim
      · rintro rfl
        have hpr : ((s.set r z).set p y).proc r = z :=
          (Function.update_of_ne hqp.symm ..).trans (Function.update_self ..)
        rw [hpr, hz] at hr
        exact Bool.false_ne_true hr.left
    have hle := hs.tokens r hr
    have hzt : z.tokens r = (s.proc q).tokens r + 1 := hz ▸ tokens_clear hq hw
    have hyt : (s.proc p).tokens r ≤ y.tokens r + 1 := by
      simp only [Proc.tokens, hp, hy, List.mem_cons, hrq, false_or]
      split <;> omega
    change s.value ≤ tally (Proc.tokens r) (Function.update (s.set q z).proc p y)
    rw [tally_update, hzp]
    change s.value ≤ tally (Proc.tokens r) (Function.update s.proc q z) - _ + _
    rw [tally_update]
    omega
  case sum =>
    have hzt : z.took = (s.proc q).took := by rw [hz]
    have hyt : y.took = (s.proc p).took := by rw [hy]
    have hsum := hs.sum
    change s.value + tally _ (Function.update (s.set q z).proc p y) + _ = _
    rw [tally_update, hzp, hyt]
    change s.value + (tally _ (Function.update s.proc q z) - _ + _) + _ = _
    rw [tally_update, hzt]
    dsimp only [State.set]
    omega

theorem scan {rest : List P} {n : Int} {a : After} (hs : Sound s) (hp : (s.proc p).pc = .scan rest n a)
    (hr : s.run p = some s') : Sound s' := by
  have hok := hs.place p
  simp only [Proc.Ok, hp] at hok
  have hrest := hs.rest p
  rw [hp] at hrest
  have hlock : Passes s.lock none p (s.proc p).pc.Locked False := .inr <| .inr ⟨rfl, hp ▸ trivial, id⟩
  simp only [State.run, hp] at hr
  cases rest
  case nil =>
    obtain rfl := Option.some.inj hr
    refine hs.finish (fun _ _ => ?_) ?_ hlock hok.done
    all_goals simp [Proc.tokens, Pc.OnQueue, hp]
  case cons q rest =>
    dsimp only at hr
    split at hr
    case isTrue hn =>
      obtain rfl := Option.some.inj hr
      refine hs.finish (fun _ _ => ?_) ?_ hlock hok.done
      · simp only [Proc.tokens, hp, max_eq_right hn]
        split <;> exact Int.le_refl 0
      · exact hp ▸ id
    split at hr
    case isTrue hn hw =>
      obtain rfl := Option.some.inj hr
      exact hs.clear hp (Int.not_le.mp hn) hw
    case isFalse hn hw =>
      obtain rfl := Option.some.inj hr
      refine hs.set (.inr ⟨fun r hr => ?_, ?_⟩) ?_ ?_ ?_ hok rfl
      case refine_1 =>
        have hrq : r ≠ q := fun he => hw <| he ▸ hr.left
        simp [Proc.tokens, hp, hrq]
      case refine_5 => exact fun r hr => hrest r <| List.mem_cons_of_mem _ hr
      all_goals simp [Proc.Committed, Pc.Commits, Pc.OnQueue, Pc.Locked, hp]

theorem ready (hs : Sound s) : Sound (s.ready q) := by
  have hok := hs.place q
  rw [State.ready]
  split
  case h_2 => exact hs
  case h_1 k hq =>
    simp only [Proc.Ok, hq] at hok
    refine hs.set (.inr ⟨fun _ _ => ?_, ?_⟩) ?_ ?_ ?_ ?_ rfl
    all_goals simp [Proc.tokens, Proc.Committed, Pc.Commits, Pc.OnQueue, Pc.Locked, Pc.rest, Proc.Ok, hq, hok]

omit [Fintype P] in
theorem ready_proc {c : Pc P} (hp : (s.proc p).pc = c) (hc : ¬ c.Asleep) : (s.ready q).proc p = s.proc p := by
  rw [State.ready]
  split
  case h_2 => rfl
  case h_1 k hq =>
    refine Function.update_of_ne (fun he => hc ?_) ..
    rw [← hp, he, hq]
    trivial

omit [Fintype P] in
theorem not_asleep_ready : ¬ ((s.ready q).proc q).pc.Asleep := by
  rw [State.ready]
  split
  case h_1 => simp [State.goto, State.set, Pc.Asleep]
  case h_2 hne =>
    intro ha
    cases hq : (s.proc q).pc <;> rw [hq] at ha <;> first | exact ha.elim | exact hne _ hq

theorem wakeup {rest : List P} {n : Int} {a : After} (hs : Sound s) (hp : (s.proc p).pc = .wakeup q rest n a)
    (hr : s.run p = some s') : Sound s' := by
  have hok := hs.place p
  have hrest := hs.rest p
  simp only [Proc.Ok, hp] at hok
  simp only [State.run, hp, Option.some.injEq] at hr
  rw [hp] at hrest
  subst hr
  have hsame : (s.ready q).proc p = s.proc p := ready_proc hp id
  have hsema : (s.ready q).sema = s.sema := by
    rw [State.ready]
    split <;> rfl
  refine hs.ready.set (.inr ⟨fun r _ => ?_, fun hc => hc.right.elim⟩) ?_ ?_ ?_ ?_ rfl
  all_goals rw [hsame]
  · simp [Proc.tokens, hp]
  · rw [hp]
    exact Iff.rfl
  · rw [hp]
    exact Iff.rfl
  · rw [hsema]
    exact hrest
  · exact hok

theorem release {delta : Int} (hs : Sound s) (hf : Fits s (.run p))
    (hc : (s.proc p).pc = .read delta ∨ ∃ v, (s.proc p).pc = .add delta v) (hr : s.run p = some s') : Sound s' := by
  have hok := hs.place p
  have hset {c : Pc P} (hok : (s.proc p).took = 0 ∧ (s.proc p).call.acquires = false ∧ 0 ≤ delta)
      (hy : c = .read delta ∨ ∃ v, c = .add delta v) : Sound (s.goto p c) := by
    refine hs.set (.inr ⟨fun _ _ => ?_, ?_⟩) ?_ ?_ ?_ ?_ rfl
    all_goals
      rcases hc with hp | ⟨v, hp⟩ <;> rcases hy with rfl | ⟨v, rfl⟩ <;>
        simp [Proc.tokens, Proc.Committed, Pc.Commits, Pc.OnQueue, Pc.Locked, Pc.rest, Proc.Ok, hp, hok]
  rcases hc with hp | ⟨v, hp⟩
  all_goals
    simp only [Proc.Ok, hp] at hok
    simp only [State.run, hp, Option.some.injEq] at hr
    subst hr
  case inl => exact hset hok <| .inr ⟨_, rfl⟩
  case inr =>
    split
    case isFalse => exact hset hok <| .inl rfl
    case isTrue he =>
      obtain ⟨htook, hacq, hd⟩ := hok
      have hv := hs.value
      simp only [Fits, hp] at hf
      rw [int32_of_fits (he ▸ hv) hd (hf he)]
      exact hs.move
        { proc   := rfl
          value  := by dsimp only; omega
          tokens := by
            refine .inr ⟨fun r _ => ?_, fun hc => hc.right.elim⟩
            simp only [Proc.tokens, hp, ← he, max_eq_left hd]
            omega
          nodup  := hs.nodup
          others := fun _ _ => Iff.rfl
          sema   := (hs.sema p).trans <| iff_of_false (hp ▸ id) id
          free   := .inl rfl
          lock   := .inl ⟨rfl, iff_of_false id (hp ▸ id)⟩
          rest   := fun _ hq => absurd hq List.not_mem_nil
          place  := ⟨hacq, htook⟩
          init   := rfl
          sum    := by simp only [State.goto, State.set]; omega
          done   := hs.done }

theorem run (hs : Sound s) (hf : Fits s (.run p)) (hr : s.run p = some s') : Sound s' := by
  cases hp : (s.proc p).pc
  case user | asleep => simp [State.run, hp] at hr
  case args => exact hs.args hp hr
  case fast => exact hs.can (.inl hp) hr
  case fastcas => exact hs.can (.inr ⟨_, hp⟩) hr
  case queue => exact hs.queue hp hr
  case waiting => exact hs.loop hf (.inl hp) hr
  case can => exact hs.loop hf (.inr <| .inl hp) hr
  case cas => exact hs.loop hf (.inr <| .inr ⟨_, hp⟩) hr
  case timer => exact hs.nap (.inl hp) hr
  case sleep => exact hs.nap (.inr hp) hr
  case awake => exact hs.awake hp hr
  case dequeue => exact hs.dequeue hp hr
  case passon => exact hs.passon hp hr
  case lock => exact hs.locked hp hr
  case scan => exact hs.scan hp hr
  case wakeup => exact hs.wakeup hp hr
  case read => exact hs.release hf (.inl hp) hr
  case add => exact hs.release hf (.inr ⟨_, hp⟩) hr

end Sound

namespace Heard

omit [Fintype P] in
theorem set (hh : Heard s) (hwakes : (s.proc p).pc.wakes = none) (hy : y.pc.Asleep → y.waiting = true) :
    Heard (s.set p y) := by
  refine hh.move rfl (fun r hr => ?_) fun ha hw => ?_
  · rw [hwakes] at hr
    contradiction
  · rw [hy ha] at hw
    contradiction

omit [Fintype P] in
theorem ready (hh : Heard s) : Heard (s.ready q) := by
  rw [State.ready]
  split
  case h_1 k hq => exact hh.set (by rw [hq]; rfl) False.elim
  case h_2 => exact hh

omit [Fintype P] in
theorem clear {rest : List P} {n : Int} {a : After} (hh : Heard s) (hp : (s.proc p).pc = .scan (q :: rest) n a) :
    Heard ((s.set q { s.proc q with waiting := false }).goto p (.wakeup q rest n a)) := by
  obtain ⟨t, ht⟩ : ∃ t, t = s.set q { s.proc q with waiting := false } := ⟨_, rfl⟩
  have htq (r : P) (hr : r ≠ q) : t.proc r = s.proc r := by
    rw [ht]
    exact Function.update_of_ne hr ..
  have htpc (r : P) : (t.proc r).pc = (s.proc r).pc := by
    by_cases hr : r = q
    · have : t.proc q = { s.proc q with waiting := false } := ht ▸ Function.update_self ..
      rw [hr, this]
    · rw [htq r hr]
  have hother (r : P) (hr : r ≠ p) : (t.goto p (.wakeup q rest n a)).proc r = t.proc r := Function.update_of_ne hr ..
  have hself : ((t.goto p (.wakeup q rest n a)).proc p).pc = .wakeup q rest n a := by
    change (Function.update t.proc p { t.proc p with pc := .wakeup q rest n a } p).pc = _
    rw [Function.update_self]
  rw [← ht]
  intro r hr hw
  have hrp : r ≠ p := by
    rintro rfl
    rw [hself] at hr
    exact hr
  rw [hother r hrp] at hr hw
  by_cases hrq : r = q
  case pos => exact ⟨p, by rw [hself, hrq]; rfl⟩
  case neg =>
    rw [htq r hrq] at hr hw
    obtain ⟨w, hwr⟩ := hh r hr hw
    have hwp : w ≠ p := by
      rintro rfl
      rw [hp] at hwr
      contradiction
    exact ⟨w, by rw [hother w hwp, htpc, hwr]⟩

omit [Fintype P] in
theorem run (hh : Heard s) (hr : s.run p = some s') : Heard s' := by
  cases hp : (s.proc p).pc
  all_goals
    simp only [State.run, hp, Option.some.injEq, Option.ite_none_right_eq_some, reduceCtorEq] at hr
  case wakeup q rest n a =>
    subst hr
    have hsame : (s.ready q).proc p = s.proc p := Sound.ready_proc hp id
    refine hh.ready.move rfl (fun r hr => .inr fun ha => ?_) False.elim
    rw [hsame, hp] at hr
    obtain rfl := Option.some.inj hr
    exact Sound.not_asleep_ready ha
  all_goals
    have hset {y : Proc P} (hy : ¬ y.pc.Asleep) : Heard (s.set p y) := hh.set (by rw [hp]; rfl) fun ha => absurd ha hy
  case scan rest n a =>
    cases rest
    case nil =>
      obtain rfl := Option.some.inj hr
      exact hset id
    case cons q rest =>
      dsimp only at hr
      split at hr
      case isTrue =>
        obtain rfl := Option.some.inj hr
        exact hset id
      split at hr
      case isTrue hn hw =>
        obtain rfl := Option.some.inj hr
        exact hh.clear hp
      case isFalse hn hw =>
        obtain rfl := Option.some.inj hr
        exact hset id
  case sleep k =>
    subst hr
    refine hh.set (by rw [hp]; rfl) ?_
    split
    case isTrue => exact False.elim
    case isFalse hw =>
      intro _
      cases k <;> simp_all [State.semawoke]
  case fastcas v =>
    subst hr
    split
    case isTrue =>
      refine hh.move (p := p) (y := { s.proc p with pc := .user, took := 0 }) ?_ (fun r hr => ?_) False.elim
      · simp [State.finish, State.take, State.set]
      · rw [hp] at hr
        contradiction
    case isFalse => exact hset id
  case args =>
    split at hr
    all_goals
      obtain rfl := Option.some.inj hr
      split <;> exact hset id
  case fast =>
    split at hr
    case isTrue =>
      obtain rfl := Option.some.inj hr
      exact hset id
    case isFalse =>
      rw [State.block] at hr
      split at hr
      case h_3 => contradiction
      all_goals
        obtain rfl := Option.some.inj hr
        split <;> exact hset id
  case can | cas | passon | add =>
    subst hr
    split <;> exact hset id
  case timer =>
    split at hr
    all_goals
      obtain rfl := Option.some.inj hr
      exact hset id
  case awake k =>
    split at hr
    case isTrue =>
      obtain rfl := Option.some.inj hr
      exact hset id
    case isFalse =>
      cases k
      all_goals
        obtain rfl := Option.some.inj hr
        first | exact hset id | (split <;> exact hset id)
  case queue | dequeue | lock =>
    obtain ⟨-, rfl⟩ := hr
    exact hset id
  case waiting | read =>
    subst hr
    exact hset id

end Heard

end Port.Sema
