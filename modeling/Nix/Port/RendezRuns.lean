import Nix.Port.RendezPairs

namespace Port.Rendez

variable {P : Type*} [DecidableEq P] {s s' : State P} {h h' : Nat → List P} {p q : P} {c : Pc P} {t v : UInt64}

namespace Sound

omit [DecidableEq P] in
theorem called (hs : Sound s h) (hp : s.pc p = .find t v) :
    s.calls[s.cur p]? = some (Call.mk t v) ∧ s.fate (s.cur p) = .pending ∧ s.readied (s.cur p) = 0 := by
  have := hs.place p
  rwa [hp] at this

-- A process that finds no other one with its tag comes to the head of the chain.
theorem enqueue (hs : Sound s h) (hp : s.pc p = .find t v) (hnone : ∀ r ∈ h (REND t), s.rendtag r ≠ t) :
    Sound (State.goto
      { s with
        rendtag  := Function.update s.rendtag p t
        rendval  := Function.update s.rendval p v
        rendhash := Function.update s.rendhash p (s.hash (REND t))
        hash     := Function.update s.hash (REND t) (some p)
        state    := Function.update s.state p .rendezvous } p .wait)
      (Function.update h (REND t) (p :: h (REND t))) := by
  have hpw : ¬ (s.pc p).Waiting := hp ▸ id
  have hnot (i : Nat) : p ∉ h i := fun hi => hpw (hs.on p i hi).right
  have hcall := hs.called hp
  have hstate (r : P) (hr : r ≠ p) : Function.update s.state p .rendezvous r = .rendezvous ↔ s.state r = .rendezvous := by
    rw [Function.update_of_ne hr]
  have hmem (r : P) (hr : r ≠ p) (i : Nat) : r ∈ Function.update h (REND t) (p :: h (REND t)) i ↔ r ∈ h i := by
    rw [Buckets.mem_push, or_iff_left fun hrp => hr hrp.right]
  have hkeeps (r : P) (hr : r ≠ p) : Keeps s (State.goto
      { s with
        rendtag  := Function.update s.rendtag p t
        rendval  := Function.update s.rendval p v
        rendhash := Function.update s.rendhash p (s.hash (REND t))
        hash     := Function.update s.hash (REND t) (some p)
        state    := Function.update s.state p .rendezvous } p .wait) h (Function.update h (REND t) (p :: h (REND t))) r :=
    ⟨Function.update_of_ne hr .., fun _ => Function.update_of_ne hr .., hstate r hr, rfl, hmem r hr, List.prefix_refl _,
      fun _ hf => hf, fun _ => rfl, fun _ _ => rfl⟩
  have hwakes (r : P) : (Function.update s.pc p .wait r).wakes = (s.pc r).wakes :=
    update_pc (R := fun r d => d.wakes = (s.pc r).wakes) (fun _ _ => rfl) (by rw [hp]; rfl) r
  have hcalls (r : P) : (Function.update s.pc p .wait r).Calls → (s.pc r).Calls :=
    update_pc (R := fun r d => d.Calls → (s.pc r).Calls) (fun _ _ => id) (fun _ => hp ▸ trivial) r
  constructor
  case chains => exact hs.chains.push hnot
  case on =>
    intro r i hr
    refine update_pc (R := fun r d => r ∈ Function.update h (REND t) (p :: h (REND t)) i →
      i = REND (Function.update s.rendtag p t r) ∧ d.Waiting) (fun r hrp hr => ?_) (fun hr => ?_) r hr
    · rw [Function.update_of_ne hrp]
      exact hs.on r i <| (hmem r hrp i).mp hr
    · rw [Function.update_self]
      refine ⟨?_, trivial⟩
      rw [Buckets.mem_push, or_iff_right (hnot i)] at hr
      exact hr.left
  case tags =>
    intro r x i hr hx he
    dsimp only [State.goto] at he
    rw [Buckets.mem_push] at hr hx
    by_cases hrp : r = p <;> by_cases hxp : x = p
    · exact hrp.trans hxp.symm
    · have hi := (hr.resolve_left (hrp ▸ hnot i)).left
      rw [hrp, Function.update_self, Function.update_of_ne hxp] at he
      exact absurd he.symm <| hnone x <| hi ▸ hx.resolve_right fun hx => hxp hx.right
    · have hi := (hx.resolve_left (hxp ▸ hnot i)).left
      rw [hxp, Function.update_self, Function.update_of_ne hrp] at he
      exact absurd he <| hnone r <| hi ▸ hr.resolve_right fun hr => hrp hr.right
    · rw [Function.update_of_ne hrp, Function.update_of_ne hxp] at he
      exact hs.tags r x i (hr.resolve_right fun hr => hrp hr.right) (hx.resolve_right fun hx => hxp hx.right) he
  case off =>
    intro r hr
    by_cases hrp : r = p
    case pos =>
      refine .inl ⟨REND t, ?_⟩
      rw [Buckets.mem_push]
      exact .inr ⟨rfl, hrp⟩
    case neg =>
      refine (hs.off r <| (hstate r hrp).mp hr).imp (fun ⟨i, hi⟩ => ⟨i, (hmem r hrp i).mpr hi⟩) fun ⟨x, hx⟩ => ⟨x, ?_⟩
      exact (hwakes x).trans hx
  case taken =>
    intro r x hx
    have hx := (hwakes x).symm.trans hx
    have hrp : r ≠ p := fun he => hs.run p hpw <| he ▸ (hs.taken r x hx).state
    exact hs.taken_keeps (hkeeps r hrp) hx
  case place =>
    refine update_pc (R := fun r d => State.At _ _ r d) (fun r hr => (hkeeps r hr).place id id (hs.place r)) (.inl ?_)
    constructor
    all_goals
      dsimp only [State.goto]
      try simp only [Function.update_self]
    · exact List.mem_cons_self
    · exact hcall.left
    · exact hcall.right.left
    · exact hcall.right.right
  case run =>
    exact update_pc (R := fun r d => ¬ d.Waiting → Function.update s.state p .rendezvous r ≠ .rendezvous)
      (fun r hr hw => mt (hstate r hr).mp <| hs.run r hw) fun hw => absurd trivial hw
  case woken =>
    exact update_pc (R := fun r d => d = .woken → s.mach r → Function.update s.state p .rendezvous r ≠ .rendezvous)
      (fun r hr hw hm => mt (hstate r hr).mp <| hs.woken r hw hm) nofun
  case lock => exact hs.keeplock <| iff_of_true trivial (hp ▸ trivial)
  case cur => exact fun r hr => hs.cur r (hcalls r hr)
  case one => exact fun r x hr hx => hs.one r x (hcalls r hr) (hcalls x hx)
  case fresh => exact hs.fresh
  case mate => exact hs.mate
  case readied => exact hs.readied
  case res => exact fun n v hn => (hs.res n v hn).mono (List.prefix_refl _) fun _ _ => rfl

omit [DecidableEq P] in
theorem mates_of_pending {a n m : Nat} (hs : Sound s h) (ha : s.fate a = .pending) (hn : s.fate n = .paired m) :
    n ≠ a ∧ m ≠ a := by
  constructor
  · rintro rfl
    exact nomatch ha.symm.trans hn
  · rintro rfl
    exact nomatch ha.symm.trans (hs.mate _ _ hn)

omit [DecidableEq P] in
theorem mate_pair {a b : Nat} (hs : Sound s h) (ha : s.fate a = .pending) (hb : s.fate b = .pending) (hab : a ≠ b) (n m : Nat)
    (hn : Function.update (Function.update s.fate a (.paired b)) b (.paired a) n = .paired m) :
    Function.update (Function.update s.fate a (.paired b)) b (.paired a) m = .paired n := by
  by_cases hnb : n = b
  case pos =>
    subst hnb
    rw [Function.update_self] at hn
    obtain rfl := Fate.paired.inj hn
    exact (Function.update_of_ne hab ..).trans (Function.update_self ..)
  rw [Function.update_of_ne hnb] at hn
  by_cases hna : n = a
  case pos =>
    subst hna
    rw [Function.update_self] at hn
    obtain rfl := Fate.paired.inj hn
    exact Function.update_self ..
  rw [Function.update_of_ne hna] at hn
  rw [Function.update_of_ne (hs.mates_of_pending hb hn).right, Function.update_of_ne (hs.mates_of_pending ha hn).right]
  exact hs.mate n m hn

theorem meet {m l' : List P} (hs : Sound s h) (hp : s.pc p = .find t v) (hl : h (REND t) = m ++ q :: l')
    (hq : s.rendtag q = t) :
    Sound (State.goto
      { s.pair p q v with
        hash     := if m.getLast? = none then Function.update s.hash (REND t) (s.rendhash q) else s.hash
        rendhash := updateAt s.rendhash m.getLast? (s.rendhash q) } p (.mach q (s.rendval q)))
      (Function.update h (REND t) (m ++ l')) := by
  have ⟨hcall, hpend, _⟩ := hs.called hp
  have hqmem : q ∈ h (REND t) := by
    rw [hl]
    exact List.mem_append_right _ List.mem_cons_self
  have hqw := (hs.on q _ hqmem).right
  have hwaits : Waits s h q := ((at_iff hqw).mp (hs.place q)).resolve_right fun hd => hd.left _ hqmem
  have hqp : q ≠ p := by
    rintro rfl
    rw [hp] at hqw
    exact hqw
  have hne : s.cur q ≠ s.cur p := fun he => hqp <| hs.one q p hqw.calls (hp ▸ trivial) he
  refine hs.take ?_ hwaits ?_ ?_ (hs.chains.remove hl) ?_ ?_ ?_ ?_ ?_ ?_ ?_
  case refine_1 => rw [hp]; exact ⟨trivial, rfl, id⟩
  case refine_2 => exact ⟨rfl, id⟩
  case refine_3 => rw [hp]; exact fun _ => trivial
  case refine_4 => exact fun r hr i => Buckets.mem_remove hl hr
  case refine_5 => exact Fifos.not_mem_of_remove hs.chains hl
  case refine_6 =>
    intro n hn hnp
    have hnp : n ≠ s.cur p := fun he => hnp ⟨hp ▸ trivial, he⟩
    exact (Function.update_of_ne hnp ..).trans (Function.update_of_ne hn ..)
  case refine_7 => exact fun _ => hpend
  case refine_8 => exact hs.mate_pair hwaits.fate hpend hne
  case refine_9 =>
    refine .inl ⟨s.cur p, _, _, hne.symm, ?_, Function.update_self .., hwaits.call, hcall, hq, rfl⟩
    exact (Function.update_of_ne hne ..).trans (Function.update_self ..)
  case refine_10 =>
    refine .inl ⟨s.cur q, _, _, hne, Function.update_self .., ?_, hcall, hwaits.call, hq.symm, rfl⟩
    exact (Function.update_of_ne hne ..).trans (Function.update_self ..)

theorem pulled {hash : Nat → Option P} {rendhash : P → Option P} (hs : Sound s h) (hp : s.pc p = .pull q)
    (hq : s.state q = .rendezvous)
    (hb : Buckets hash rendhash (Function.update h (REND (s.rendtag q)) ((h (REND (s.rendtag q))).erase q))) :
    Sound (State.goto
      { s with
        rendval := Function.update s.rendval q (~~~0)
        fate    := Function.update s.fate (s.cur q) .noted
        hash, rendhash } p (.ready q))
      (Function.update h (REND (s.rendtag q)) ((h (REND (s.rendtag q))).erase q)) := by
  have hlocked : (s.pc p).Locked := hp ▸ trivial
  have hnocalls : ¬ (s.pc p).Calls := hp ▸ id
  obtain ⟨i, hqmem⟩ := (hs.off q hq).resolve_right fun ⟨r, hr⟩ => by
    obtain rfl := hs.eq_of_locked hlocked hr
    rw [hp] at hr
    exact nomatch hr
  obtain ⟨rfl, hqw⟩ := hs.on q i hqmem
  have hwaits : Waits s h q := ((at_iff hqw).mp (hs.place q)).resolve_right fun hd => hd.left _ hqmem
  refine hs.take ?_ hwaits ?_ ?_ hb ?_ ?_ ?_ ?_ ?_ ?_ ?_
  case refine_1 => rw [hp]; exact ⟨trivial, rfl, id⟩
  case refine_2 => exact ⟨rfl, id⟩
  case refine_3 => exact False.elim
  case refine_4 => exact fun r hr i => Buckets.mem_erase hr
  case refine_5 => exact Buckets.not_mem_erase hs.chains hqmem
  case refine_6 => exact fun n hn _ => Function.update_of_ne hn ..
  case refine_7 => exact fun hc => absurd hc hnocalls
  case refine_8 =>
    intro n m hn
    have hnq : n ≠ s.cur q := by
      rintro rfl
      rw [Function.update_self] at hn
      contradiction
    rw [Function.update_of_ne hnq] at hn
    exact (Function.update_of_ne (hs.mates_of_pending hwaits.fate hn).right ..).trans (hs.mate n m hn)
  case refine_9 => exact .inr ⟨Function.update_self .., rfl⟩
  case refine_10 => trivial

theorem goes {lock : Option P} (hs : Sound s h) (hp : ¬ (s.pc p).Waiting) (hc : ¬ c.Waiting) (hw : c.wakes = (s.pc p).wakes)
    (hcalls : c.Calls → (s.pc p).Calls) (hat : s.At h p c) (hlock : ∀ r, (Function.update s.pc p c r).Locked ↔ lock = some r) :
    Moves s h p c lock where
  wakes       := hw
  on hi       := have ⟨i, hi⟩ := hi; absurd (hs.on p i hi).right hp
  run _       := hs.run p hp
  woken he    := absurd (he ▸ trivial) hc
  calls       := hcalls
  waiting hcw := absurd hcw hc
  place       := hat
  lock        := hlock

theorem stays {lock : Option P} (hs : Sound s h) (hp : (s.pc p).Waiting) (hc : c.Waiting)
    (hwoken : c = .woken → s.mach p = false) (hlock : ∀ r, (Function.update s.pc p c r).Locked ↔ lock = some r) :
    Moves s h p c lock where
  wakes := by
    rw [show c.wakes = none by cases c <;> first | rfl | contradiction]
    generalize s.pc p = d at hp
    cases d <;> first | rfl | contradiction
  on _        := hc
  run hcw     := absurd hc hcw
  woken he hm := absurd hm <| by rw [hwoken he]; exact Bool.false_ne_true
  calls _     := hp.calls
  waiting _   := hp
  place       := (at_iff hc).mpr <| (at_iff hp).mp <| hs.place p
  lock        := hlock

theorem release_finish : (s.release p .user).finish p v =
    State.goto { s with lock := none, res := Function.update s.res (s.cur p) (some v) } p .user := by
  rw [State.finish, State.release, State.goto, State.goto, State.goto]
  dsimp only
  rw [Function.update_idem]

omit [DecidableEq P] in
theorem decided_update {n : Nat} (hs : Sound s h) (hd : s.Decided n v) (m : Nat) (x : UInt64)
    (hm : Function.update s.res n (some v) m = some x) : s.Decided m x := by
  by_cases he : m = n
  case pos =>
    subst he
    rw [Function.update_self] at hm
    exact Option.some.inj hm ▸ hd
  case neg =>
    rw [Function.update_of_ne he] at hm
    exact hs.res m x hm

theorem off_keeps (hs : Sound s h) : Sound (s.off p) h := by
  refine hs.cpu (fun r => ?_) fun r hr hm => ?_
  · split
    case isFalse => rfl
    case isTrue hrun =>
      by_cases hrp : r = p
      · subst hrp
        rw [Function.update_self, hrun]
        exact iff_of_false nofun nofun
      · rw [Function.update_of_ne hrp]
  · by_cases hrp : r = p
    · subst hrp
      rw [Function.update_self] at hm
      contradiction
    · rw [Function.update_of_ne hrp] at hm
      exact hs.woken r hr hm

variable [Fintype P]

theorem length_le (hs : Sound s h) (i : Nat) : (h i).length ≤ Fintype.card P := by
  rw [← List.toFinset_card_of_nodup (hs.chains.nodup i)]
  exact Finset.card_le_univ _

theorem found (hs : Sound s h) (hp : s.pc p = .find t v) (hr : s.run p = some s') : ∃ h', Sound s' h' := by
  simp only [State.run, hp, Option.bind_eq_bind, Option.bind_eq_some_iff, Prod.exists] at hr
  obtain ⟨l, f, hf, hr⟩ := hr
  obtain ⟨m, l', hl, rfl, rfl, hstop, hm⟩ := hs.chains.of_search hf
  cases l'
  case nil =>
    obtain rfl := Option.some.inj hr
    rw [List.append_nil] at hl
    exact ⟨_, hs.enqueue hp fun r hr => by simpa using hm r (hl ▸ hr)⟩
  case cons q l' =>
    obtain rfl := Option.some.inj hr
    exact ⟨_, hs.meet hp hl <| by simpa using hstop q rfl⟩

theorem posted (hs : Sound s h) (hp : s.pc p = .pull q) (hr : s.run p = some s') : ∃ h', Sound s' h' := by
  simp only [State.run, hp] at hr
  split at hr
  case isTrue hq =>
    obtain ⟨hash, rendhash, he, hb⟩ := hs.chains.unlink_eq (hs.length_le (REND (s.rendtag q))) q
    rw [he] at hr
    obtain rfl := Option.some.inj hr
    exact ⟨_, hs.pulled hp hq hb⟩
  case isFalse =>
    obtain rfl := Option.some.inj hr
    refine ⟨h, hs.move (hs.goes ?_ id ?_ False.elim trivial <| hs.keeplock ?_) hs.res⟩
    · exact hp ▸ id
    · rw [hp]
      rfl
    · exact iff_of_true trivial (hp ▸ trivial)

theorem run_sound (hs : Sound s h) (hmach : s.mach p) (hr : s.run p = some s') : ∃ h', Sound s' h' := by
  have hat := hs.place p
  cases hp : s.pc p
  case find => exact hs.found hp hr
  case pull => exact hs.posted hp hr
  all_goals
    rw [hp] at hat
    simp only [State.run, hp, State.acquire, Option.ite_none_right_eq_some, Option.ite_none_left_eq_some, Option.some.injEq,
      reduceCtorEq] at hr
  case rendval t v =>
    subst hr
    have hs := hs.setval (~~~0) (hp ▸ id : ¬ (s.pc p).Waiting)
    exact ⟨h, hs.move (hs.goes (hp ▸ id) id (hp ▸ rfl) (fun _ => hp ▸ trivial) hat <| hs.keeplock <| hp ▸ Iff.rfl) hs.res⟩
  case lock t v =>
    obtain ⟨hnone, rfl⟩ := hr
    exact ⟨h, hs.move (hs.goes (hp ▸ id) id (hp ▸ rfl) (fun _ => hp ▸ trivial) hat <| hs.takelock hnone trivial) hs.res⟩
  case mach q v =>
    obtain ⟨-, rfl⟩ := hr
    exact ⟨h, hs.makeready (hp ▸ rfl) ⟨rfl, trivial, id⟩ (fun _ => hp ▸ trivial) hat⟩
  case unlock v =>
    subst hr
    rw [release_finish]
    refine ⟨h, hs.move (hs.goes (hp ▸ id) id (hp ▸ rfl) False.elim trivial <| hs.putlock (hp ▸ trivial) id) ?_⟩
    exact hs.decided_update hat
  case wait =>
    subst hr
    exact ⟨h, hs.move (hs.stays (hp ▸ trivial) trivial nofun <| hs.putlock (hp ▸ trivial) id) hs.res⟩
  case sched =>
    subst hr
    have hs := hs.off_keeps (p := p)
    have hp : (s.off p).pc p = .sched := hp
    refine ⟨h, hs.move (hs.stays (hp ▸ trivial) trivial (fun _ => Function.update_self ..) <| hs.keeplock ?_) hs.res⟩
    rw [hp]
    exact Iff.rfl
  case woken =>
    subst hr
    have hne := hs.woken p hp hmach
    have ⟨hnot, hd⟩ := hat.resolve_left fun hw => hne hw.state
    refine ⟨h, hs.move ⟨hp ▸ rfl, ?_, fun _ => hne, nofun, False.elim, False.elim, trivial, hs.keeplock <| hp ▸ Iff.rfl⟩ ?_⟩
    · exact fun ⟨i, hi⟩ => absurd hi <| hnot i
    · exact hs.decided_update hd
  case state q =>
    subst hr
    split
    · exact ⟨h, hs.move (hs.goes (hp ▸ id) id (hp ▸ rfl) False.elim trivial <| hs.keeplock <| hp ▸ Iff.rfl) hs.res⟩
    · exact ⟨h, hs.move (hs.goes (hp ▸ id) id (hp ▸ rfl) False.elim trivial <| hs.keeplock <| hp ▸ Iff.rfl) hs.res⟩
  case rgrp q =>
    obtain ⟨hnone, rfl⟩ := hr
    exact ⟨h, hs.move (hs.goes (hp ▸ id) id (hp ▸ rfl) False.elim trivial <| hs.takelock hnone trivial) hs.res⟩
  case ready q =>
    subst hr
    exact ⟨h, hs.makeready (hp ▸ rfl) ⟨rfl, trivial, id⟩ False.elim trivial⟩
  case noted =>
    subst hr
    exact ⟨h, hs.move (hs.goes (hp ▸ id) id (hp ▸ rfl) False.elim trivial <| hs.putlock (hp ▸ trivial) id) hs.res⟩

theorem step (hs : Sound s h) (act : Act P) (ht : machine.step s act = some s') : ∃ h', Sound s' h' := by
  cases act
  case sysrendezvous p t v =>
    obtain ⟨hp, ht⟩ := Option.ite_none_right_eq_some.mp ht
    obtain rfl := Option.some.inj ht
    exact ⟨h, hs.call t v hp.left⟩
  case postnote p q =>
    obtain ⟨⟨hp, -⟩, ht⟩ := Option.ite_none_right_eq_some.mp ht
    obtain rfl := Option.some.inj ht
    exact ⟨h, hs.move (hs.goes (hp ▸ id) id (hp ▸ rfl) False.elim trivial <| hs.keeplock <| hp ▸ Iff.rfl) hs.res⟩
  case run p =>
    obtain ⟨hm, ht⟩ := Option.ite_none_right_eq_some.mp ht
    exact hs.run_sound hm ht
  case preempt p =>
    obtain ⟨-, ht⟩ := Option.ite_none_right_eq_some.mp ht
    obtain rfl := Option.some.inj ht
    exact ⟨h, hs.off_keeps⟩
  case dispatch p =>
    obtain ⟨⟨hp, -⟩, ht⟩ := Option.ite_none_right_eq_some.mp ht
    obtain rfl := Option.some.inj ht
    refine ⟨h, hs.cpu (fun r => ?_) fun r hr hm => ?_⟩
    · by_cases hrp : r = p
      · subst hrp
        rw [Function.update_self, hp]
        exact iff_of_false nofun nofun
      · rw [Function.update_of_ne hrp]
    · by_cases hrp : r = p
      · rw [hrp, hp]
        exact nofun
      · rw [Function.update_of_ne hrp] at hm
        exact hs.woken r hr hm

omit [DecidableEq P] [Fintype P] in
theorem of_init (hi : Init s) : Sound s (fun _ => []) := by
  have hempty : Buckets s.hash s.rendhash (fun _ => []) :=
    ⟨hi.hash, fun _ => rfl, fun _ => trivial, fun _ => List.nodup_nil, fun ha => absurd ha List.not_mem_nil⟩
  have hrun (p : P) : s.state p ≠ .rendezvous := by
    rw [hi.state]
    exact nofun
  constructor
  case chains => exact hempty
  case on => exact fun _ _ hp => absurd hp List.not_mem_nil
  case tags => exact fun _ _ _ hp => absurd hp List.not_mem_nil
  case off => exact fun p hp => absurd hp (hrun p)
  case taken => exact fun p q hq => nomatch hi.pc q ▸ hq
  case place => exact fun p => hi.pc p ▸ trivial
  case run => exact fun p _ => hrun p
  case woken => exact fun p _ _ => hrun p
  case lock => exact fun p => iff_of_false (hi.pc p ▸ id) (hi.lock ▸ nofun)
  case cur => exact fun p hp => absurd hp (hi.pc p ▸ id)
  case one => exact fun p q hp => absurd hp (hi.pc p ▸ id)
  case fresh => exact fun n _ => ⟨hi.fate n, hi.readied n⟩
  case mate => exact fun n m hn => nomatch (hi.fate n).symm.trans hn
  case readied => exact fun n => hi.readied n ▸ Nat.zero_le _
  case res => exact fun n v hn => nomatch (hi.res n).symm.trans hn

theorem invariant (cond : State P → Act P → Prop) : machine.Invariant cond fun s => ∃ h, Sound s h where
  init hi      := ⟨_, of_init hi⟩
  step hs _ ht := have ⟨_, hs⟩ := hs; hs.step _ ht

end Sound

section Pairs

-- It was taken from its chain by the process that has the lock, which is about to make it ready.
def State.Leaving (s : State P) (p : P) : Prop :=
  ∃ q, s.lock = some q ∧ (s.pc q).wakes = some p

variable [Fintype P]

def idle : State (Fin 3) where
  hash _     := none
  rendhash _ := none
  rendtag _  := 0
  rendval _  := 0
  state _    := .ready
  mach _     := false
  lock       := none
  pc _       := .user
  calls      := []
  cur _      := 0
  fate _     := .pending
  readied _  := 0
  res _      := none

def trip : List (Act (Fin 3)) :=
  [Act.dispatch 0, .dispatch 1, .dispatch 2, .sysrendezvous 0 7 1] ++ List.replicate 5 (Act.run 0) ++
  [Act.sysrendezvous 1 39 2] ++ List.replicate 4 (Act.run 1) ++
  [Act.sysrendezvous 2 7 3] ++ List.replicate 5 (Act.run 2) ++ [Act.dispatch 0, .run 0, .postnote 2 1] ++
  List.replicate 5 (Act.run 2) ++ [Act.run 1, .dispatch 1, .run 1]

end Pairs

end Port.Rendez
