import Nix.Port.PgallocInvariant

namespace Port.Pgalloc

variable {P I : Type} [DecidableEq P] [DecidableEq I] {s s' : State P I} {spot : Addr → Spot P} {l : Nat → List Addr}
variable {p q a : Addr} {x y : P} {r : Request} {i : I} {c : Conf I}

-- The invariant holds of the pages where they are.
def Sane (s : State P I) : Prop :=
  ∃ spot l, Inv spot l s

namespace Inv

section Hands

omit [DecidableEq P] [DecidableEq I]

theorem not_taken (h : Inv spot l s) (hx : (s.pc x).taken = none) (q : Addr) : spot q ≠ .taken x :=
  fun hq => nomatch (h.hands q x hq).symm.trans hx

theorem hands_taken (h : Inv spot l s) (hx : (s.pc x).taken = none) (hq : Function.update spot p (.taken x) q = .taken x) :
    some p = some q := by
  by_cases hqp : q = p
  case pos => rw [hqp]
  case neg => exact absurd ((Function.update_of_ne hqp ..).symm.trans hq) (h.not_taken hx q)

theorem hands_given {o : Spot P} (h : Inv spot l s) (hx : (s.pc x).taken = some p ∨ (s.pc x).taken = none) (ho : o ≠ .taken x) :
    Function.update spot p o q ≠ .taken x := by
  by_cases hqp : q = p
  case pos => rwa [hqp, Function.update_self]
  case neg =>
    rw [Function.update_of_ne hqp]
    intro hq
    rcases hx with hx | hx
    · exact hqp <| Option.some.inj ((h.hands q x hq).symm.trans hx)
    · exact h.not_taken hx q hq

end Hands

section

omit [DecidableEq I]

theorem take {c : Pc I} (h : Inv spot l s) (hn : s.panic = none) (hp : spot p = .listed si) (hpga : s.pga = none)
    (hx : (s.pc x).taken = none) (hs : s' = { s.pageunchain p with pga := s'.pga, pc := Function.update s.pc x c })
    (hc : c.taken = some p) (hok : Ok (Function.update spot p (.taken x)) s' x c) : Sane s' := by
  have ⟨hlive, href, hheld, hsi⟩ := (h.good p).listed hp
  have hlists : s'.Lists (Function.update spot p (.taken x)) (Function.update l si ((l si).erase p)) := by
    rw [hs]
    exact (h.lists.pageunchain hp hsi rfl).same rfl rfl
  refine ⟨_, _, h.relist ?_ hn hlists ?_ ?_ ?_ ?_ hok⟩
  · rw [hs]
    rfl
  · rw [Good, Function.update_self]
    exact ⟨hlive, href, hheld⟩
  · exact fun y hy => ⟨by simp [hp], by simpa using hy.symm⟩
  · simp [hpga]
  · exact fun q hq => hc.trans (h.hands_taken hx hq)

theorem chain {c : Pc I} (h : Inv spot l s) (hn : s.panic = none) (hp : spot p = .taken x) (hpga : s.pga = none)
    (hs : s' = { s.pagechainhead p with pc := Function.update s.pc x c })
    (hok : Ok (Function.update spot p (.listed (s.page p).pgszi)) s' x c) :
    ∃ l', Inv (Function.update spot p (.listed (s.page p).pgszi)) l' s' := by
  obtain ⟨hlive, href, hheld⟩ := (h.good p).taken hp
  have hx := h.hands p x hp
  have hlists : s'.Lists (Function.update spot p (.listed (s.page p).pgszi))
      (Function.update l (s.page p).pgszi (p :: l (s.page p).pgszi)) := by
    rw [hs]
    exact (h.lists.pagechainhead (by rw [hp]; rfl) rfl).same rfl rfl
  refine ⟨_, h.relist ?_ hn hlists ?_ ?_ ?_ ?_ hok⟩
  · rw [hs]
    rfl
  · rw [Good, Function.update_self]
    exact ⟨hlive, href, hheld, rfl⟩
  · exact fun y hy => ⟨by simpa [hp] using hy.symm, by simp⟩
  · simp [hpga]
  · exact fun q hq => absurd hq (h.hands_given (.inl hx) (by simp))

theorem pgalloc (h : Inv spot l s) (hn : s.panic = none) (hx : (s.pc x).taken = none) (hs : s.pgalloc a si color = some s') :
    Inv (Function.update spot a (.taken x)) l (s'.goto x <| .kick r <| .chain n a) := by
  have hlists : (s'.goto x <| .kick r <| .chain n a).Lists (Function.update spot a (.taken x)) l := by
    obtain ⟨hlive, -⟩ := Option.ite_none_left_eq_some.mp hs
    have hplace : (spot a).list = none := by rw [(h.gone hlive).left]; rfl
    exact ((h.lists.pgalloc hplace hs).move (by rw [hplace]; rfl)).same rfl rfl
  have hcached : (s'.goto x <| .kick r <| .chain n a).Cached := ((h.cached hn).pgalloc hs).same (fun _ => rfl) rfl rfl
  obtain ⟨hlive, hs⟩ := Option.ite_none_left_eq_some.mp hs
  obtain ⟨hgone, hheld⟩ := h.gone hlive
  have hs := (Option.some.inj hs).symm
  have hsame q (hq : q ≠ a) : Same spot s (Function.update spot a (.taken x)) (s'.goto x <| .kick r <| .chain n a) q := by
    rw [hs]
    exact ⟨Function.update_of_ne hq .., Function.update_of_ne hq .., Function.update_of_ne hq .., by simp [State.goto, hq], rfl⟩
  rw [hs] at hlists hcached hsame ⊢
  refine h.moved (p := a) ?_ hsame (fun y hy => Function.update_of_ne hy ..) (fun _ _ => id) (fun y hy => ?_) (fun y hy ht => ?_) ?_ fun q hq => ?_
  · refine h.toStore.focus hlists (h.nodup.cons hlive) (fun _ => hcached) h.panic hsame ?_
    rw [Good, Function.update_self]
    exact ⟨List.mem_cons_self, by simp [State.goto], hheld⟩
  · refine ⟨fun _ hl => ?_, fun ht => ?_, id, fun hl => absurd hl hlive, fun _ _ hl => absurd List.mem_cons_self hl⟩
    · rw [hgone] at hl
      contradiction
    · rw [hgone] at ht
      contradiction
  · rw [Function.update_self] at ht
    exact absurd (Spot.taken.inj ht).symm hy
  · rw [State.goto_pc]
    exact ⟨Function.update_self .., by simp [State.goto], Function.update_self ..⟩
  · rw [State.goto_pc]
    exact h.hands_taken hx hq

-- One more refers to a page, which is on no list then. The process gives up the lock of the allocator.
theorem refer (h : Inv spot l s) (hn : s.panic = none) (hpga : s.pga = some x) (hlock : s.lock p = none)
    (hp : p ∈ s.live) (hx : (s.pc x).taken = some p ∨ (s.pc x).taken = none) (hspot : ∀ y ≠ x, spot p ≠ .taken y)
    (href : (s.page p).ref = (s.held p).length)
    (hs : s' = { s.addref p with links := s'.links, pgsza := s'.pgsza, pga := none }.goto x .idle)
    (l' : Nat → List Addr) (hlists : s'.Lists (Function.update spot p .used) l') : Sane s' := by
  refine ⟨_, _, h.change (x := x) (c := .idle) hn { s.page p with ref := (s.page p).ref + 1 } {
    state := by rw [hs]; rfl
    image := ⟨rfl, rfl⟩
    nodup := by rw [hs]; exact h.nodup
    live q _ := by rw [hs]; rfl
    free  := .inl ⟨by rw [hs]; exact hp, hp⟩
    held q hq := by rw [hs]; exact held_cons_of_ne hq
    refs y _ hr := by rw [hs]; exact List.mem_cons_of_mem _ hr
    lists := hlists
    good := by
      rw [Good, Function.update_self, hs]
      refine ⟨hp, ?_, ?_⟩
      · exact (addref_ref s p).trans (by rw [href, ← List.length_cons, ← addref_held]; rfl)
      · exact (addref_ref s p).symm ▸ Nat.succ_pos _
    lock := .inl hlock
    other y hy := ⟨hspot y hy, nofun⟩
    pga y hy hg := absurd (hpga.symm.trans hg) (by simpa using hy.symm)
    hands q hq := absurd hq (h.hands_given hx nofun)
    ok := trivial }⟩

theorem handout [DecidableEq I] (h : Inv spot l s) (hn : s.panic = none) (hx : (s.pc x).taken = some p)
    (hok : s.pga = some x ∧ spot p = .taken x) (hs : s.handout x p msg = some s') : Sane s' := by
  obtain ⟨hlock, hs⟩ := Option.ite_none_right_eq_some.mp hs
  have ⟨hlive, href, _⟩ := (h.good p).taken hok.right
  rw [if_neg (not_not.mpr href)] at hs
  obtain ⟨s₁, hun, hs⟩ := Option.bind_eq_some_iff.mp hs
  obtain ⟨pg, hpg, hw⟩ := (h.cached hn).uncachepage hlive hun
  have h₁ : Inv spot l s₁ := h.recache hw hlive (fun _ _ => hpg) (by simp [hlock])
  have hs := (Option.some.inj hs).symm
  have ⟨hlive, href, hheld⟩ := (h₁.good p).taken hok.right
  refine h₁.refer (hw.panic ▸ hn) (hw.pga ▸ hok.left) (hw.lock ▸ hlock) hlive (.inl (hw.pc ▸ hx)) (fun y hy => ?_)
    (by rw [href, hheld]; rfl) (by rw [hs]; rfl) l ?_
  · rw [hok.right]
    simpa using hy.symm
  · rw [hs]
    exact (h₁.lists.move (by rw [hok.right]; rfl)).same rfl rfl

-- One who refers to a page gives it up.
structure Puts (x : P) (p : Addr) (s : State P I) : Prop where
  lock : s.lock p = none
  pga  : s.pga = some x
  refs : (some x, p) ∈ s.refs
  hand : (s.pc x).taken = none

-- Where the page is then, and what the lists are.
theorem put {o : Spot P} (h : Inv spot l s) (hn : s.panic = none) (hx : Puts x p s)
    (hs : s' = { s.unref x p with links := s'.links, pgsza := s'.pgsza, live := s'.live })
    (hlists : s'.Lists (Function.update spot p o) l') (hnodup : s'.live.Nodup) (hlive : ∀ q ≠ p, q ∈ s'.live ↔ q ∈ s.live)
    (hfree : p ∈ s'.live ∨ (s.page p).image = none)
    (hgood : p ∈ s.live → (s'.page p).ref = (s'.held p).length → Good (Function.update spot p o) s' p) (ho : ∀ y, o ≠ .taken y) :
    Sane s' := by
  have hspot := h.used hx.refs
  obtain ⟨hp, href, hpos⟩ := (h.good p).used hspot
  have hs : s' = { s with
      page := Function.update s.page p { s.page p with ref := (s.page p).ref - 1 }, pga := none
      refs := s.refs.erase (some x, p), pc := Function.update s.pc x .idle
      links := s'.links, pgsza := s'.pgsza, live := s'.live } := by
    rw [hs]
    rfl
  refine ⟨_, _, h.change (c := .idle) (x := x) hn { s.page p with ref := (s.page p).ref - 1 } {
    state := by rw [hs]
    image := ⟨rfl, rfl⟩
    nodup := hnodup
    live  := hlive
    free  := hfree.imp (fun hf => ⟨hf, hp⟩) id
    held q hq := by
      rw [hs]
      exact held_erase_of_ne hq
    refs y hy hr := by
      rw [hs]
      exact mem_held_erase (by simpa using hy) hr
    lists := hlists
    good  := by
      refine hgood hp ?_
      have := length_held_erase hx.refs
      rw [State.held, hs]
      simp only [Function.update_self]
      rw [href, State.held]
      omega
    lock  := .inl hx.lock
    other y hy := ⟨by rw [hspot]; simp, ho y⟩
    pga y hy hg := absurd (hx.pga.symm.trans hg) (by simpa using hy.symm)
    hands q hq := absurd hq (h.hands_given (.inr hx.hand) (ho x))
    ok := trivial }⟩

theorem putpage [DecidableEq I] (h : Inv spot l s) (hn : s.panic = none) (hpc : s.pc x = .putlock p)
    (hs : s.putpage x p = some s') : Sane s' := by
  obtain ⟨hpga, hr⟩ : s.pga = some x ∧ (some x, p) ∈ s.refs := by
    have := h.procs x
    rwa [hpc] at this
  have hspot := h.used hr
  obtain ⟨hp, href, hpos⟩ := (h.good p).used hspot
  obtain ⟨hlock, hs⟩ := Option.ite_none_right_eq_some.mp hs
  have hx : Puts x p s := ⟨hlock, hpga, hr, by rw [hpc]; rfl⟩
  rw [if_neg (Nat.ne_of_gt hpos)] at hs
  have hoff : (spot p).list = none := by rw [hspot]; rfl
  have hl : (s.unref x p).Lists spot l := h.lists.same rfl rfl
  have himage : ((s.unref x p).page p).image = (s.page p).image := by simp [State.unref, State.goto, State.setpage]
  dsimp only at hs
  split at hs
  case isTrue hmore =>
    obtain rfl := Option.some.inj hs
    refine h.put hn hx rfl (o := .used) (hl.move (by rw [hoff]; rfl)) h.nodup (fun _ _ => Iff.rfl)
      (.inl hp) (fun _ hc => ?_) (by simp)
    rw [Good, Function.update_self]
    exact ⟨hp, hc, hmore⟩
  case isFalse hlast =>
    have hzero : ((s.unref x p).page p).ref = 0 := Nat.eq_zero_of_not_pos hlast
    split at hs
    case isTrue =>
      obtain rfl := Option.some.inj hs
      refine h.put hn hx rfl (o := .listed ((s.unref x p).page p).pgszi) (hl.pagechaintail hoff rfl) h.nodup
        (fun _ _ => Iff.rfl) (.inl hp) (fun _ hc => ?_) (by simp)
      rw [Good, Function.update_self]
      exact ⟨hp, hzero, List.eq_nil_of_length_eq_zero (hc.symm.trans hzero), rfl⟩
    case isFalse hno =>
      have himage : (s.page p).image = none := himage.symm.trans (not_not.mp hno)
      split at hs
      case isTrue =>
        obtain rfl := Option.some.inj hs
        refine h.put hn hx rfl (o := .gone) ((hl.move (by rw [hoff]; rfl)).same rfl rfl) ?_ (fun q hq => ?_) (.inr himage)
          (fun _ hc => ?_) (by simp)
        · exact h.nodup.erase p
        · exact List.mem_erase_of_ne hq
        · rw [Good, Function.update_self]
          exact ⟨h.nodup.not_mem_erase, List.eq_nil_of_length_eq_zero (hc.symm.trans hzero)⟩
      case isFalse =>
        obtain rfl := Option.some.inj hs
        refine h.put hn hx rfl (o := .listed ((s.unref x p).page p).pgszi) (hl.pagechainhead hoff rfl) h.nodup
          (fun _ _ => Iff.rfl) (.inl hp) (fun _ hc => ?_) (by simp)
        rw [Good, Function.update_self]
        exact ⟨hp, hzero, List.eq_nil_of_length_eq_zero (hc.symm.trans hzero), rfl⟩

omit [DecidableEq P] in
theorem in_use (h : Inv spot l s) (hr : (o, p) ∈ s.refs) (y : P) : spot p ≠ .taken y := by
  rw [h.used hr]
  nofun

-- Another one makes use of a reference to a page, and its lock is taken or given up.
theorem exchange {c : Pc I} {o o₁ v : Option P} (h : Inv spot l s) (hn : s.panic = none) (hr : (o₁, p) ∈ s.refs)
    (hx : (s.pc x).taken = none) (hlock : ∀ y ≠ x, s.lock p = some y → o = some y) (hother : ∀ y ≠ x, some y ≠ o₁)
    (hs : s' = { s with
      lock := Function.update s.lock p o, refs := (v, p) :: s.refs.erase (o₁, p), pc := Function.update s.pc x c })
    (hc : c.taken = none) (hok : Ok spot s' x c) : Sane s' := by
  have hrefs : s'.refs = (v, p) :: s.refs.erase (o₁, p) := by rw [hs]
  have hheld q (hq : q ≠ p) : s'.held q = s.held q := by
    rw [State.held, hrefs]
    exact (held_cons_of_ne hq).trans (held_erase_of_ne hq)
  refine ⟨spot, l, h.relock (p := p) (x := x) ?_ hn hlock (fun _ => h.in_use hr) (fun q => ?_) hheld (fun y hy hy' => ?_) ?_ (hc.trans hx.symm) hok⟩
  · rw [hs]
  · by_cases hq : q = p
    case pos =>
      rw [hq, State.held, hrefs]
      exact (congrArg List.length held_cons_self).trans (length_held_erase hr)
    case neg => rw [hheld q hq]
  · rw [hrefs]
    exact List.mem_cons_of_mem _ (mem_held_erase (hother y hy) hy')
  · rw [hs]
    exact fun _ _ => id

-- What holds of a process that is in `duppage`.
structure Dups (x : P) (p : Addr) (s : State P I) : Prop where
  lock : s.lock p = some x
  refs : (some x, p) ∈ s.refs
  hand : (s.pc x).taken = none

omit [DecidableEq P] in
theorem Dups.other {o : Option P} (hx : Dups x p s) (hy : y ≠ x) (hl : s.lock p = some y) : o = some y :=
  absurd (hx.lock.symm.trans hl) (by simpa using hy.symm)

theorem dupdone (h : Inv spot l s) (hn : s.panic = none) (hx : Dups x p s) : Sane (s.dupdone x p) :=
  h.exchange (p := p) (x := x) (c := .idle) hn hx.refs hx.hand (fun _ => hx.other) (fun y hy => by simpa using hy) rfl rfl trivial

theorem undup [DecidableEq I] (h : Inv spot l s) (hn : s.panic = none) (hx : Dups x p s)
    (hok : ∀ s' : State P I, Dups x p s' → Ok spot s' x (s.pc x)) (hs : s.uncachepage p = some s') : Sane (s'.dupdone x p) := by
  have hp := h.live_of_ref hx.refs
  obtain ⟨pg, hpg, hw⟩ := (h.cached hn).uncachepage hp hs
  have hx' : Dups x p s' := ⟨hw.lock ▸ hx.lock, hw.refs ▸ hx.refs, hw.pc ▸ hx.hand⟩
  have h' : Inv spot l s' := by
    refine h.recache hw hp (fun _ _ => hpg) fun y hy => .inl ?_
    obtain rfl := Option.some.inj (hx.lock.symm.trans hy)
    exact hok s' hx'
  exact h'.dupdone (hw.panic ▸ hn) hx'

theorem duppage [DecidableEq I] (h : Inv spot l s) (hn : s.panic = none) (hpc : s.pc x = .duppage p n)
    (hs : s.duppage x p c n = some s') : Sane s' := by
  have hok := h.procs x
  rw [hpc] at hok
  have hx : Dups x p s := ⟨hok.left, hok.right, by rw [hpc]; rfl⟩
  have hun {s₁ : State P I} : s.uncachepage p = some s₁ → Sane (s₁.dupdone x p) :=
    h.undup hn hx fun s' hx' => by rw [hpc]; exact ⟨hx'.lock, hx'.refs⟩
  rw [State.duppage] at hs
  split at hs
  case isTrue =>
    split at hs
    case isTrue =>
      obtain rfl := Option.some.inj hs
      exact ⟨spot, l, h.still rfl hn (.inr <| .inr <| .inl rfl)⟩
    case isFalse =>
      obtain ⟨s₁, hs₁, hs⟩ := Option.bind_eq_some_iff.mp hs
      obtain rfl := Option.some.inj hs
      have h₁ : Inv spot l { s with dupretries := s.dupretries + 100 } := h.still rfl hn (hn ▸ .inl rfl)
      exact h₁.undup hn ⟨hx.lock, hx.refs, hx.hand⟩ (fun s' hx' => by simp only [hpc]; exact ⟨hx'.lock, hx'.refs⟩) hs₁
  case isFalse =>
  split at hs
  case isTrue =>
    obtain rfl := Option.some.inj hs
    exact h.dupdone hn hx
  case isFalse himage =>
  split at hs
  case isTrue =>
    obtain rfl := Option.some.inj hs
    exact ⟨spot, l, h.relock (p := p) (x := x) (c := .dupagain p (n + 1)) rfl hn (fun _ => hx.other)
      (fun _ => h.in_use hx.refs) (fun _ => rfl) (fun _ _ => rfl) (fun _ _ => id) (fun _ _ => id) (by rw [hpc]; rfl) hx.refs⟩
  case isFalse hpga =>
  split at hs
  case isTrue =>
    obtain ⟨s₁, hs₁, hs⟩ := Option.bind_eq_some_iff.mp hs
    obtain rfl := Option.some.inj hs
    exact hun hs₁
  case isFalse =>
  obtain ⟨o, ho, hs⟩ := Option.bind_eq_some_iff.mp hs
  cases o with
  | none =>
    obtain ⟨s₁, hs₁, hs⟩ := Option.bind_eq_some_iff.mp hs
    obtain rfl := Option.some.inj hs
    exact hun hs₁
  | some np =>
    obtain rfl := Option.some.inj hs
    have hnp := h.lists.search_listed ho
    obtain ⟨hlive, href, hheld, hsi⟩ := (h.good np).listed hnp
    have hlists := (h.lists.pageunchain hnp hsi (o := .used) rfl).pagechaintail (by rw [Function.update_self]; rfl) hsi
    rw [Function.update_idem] at hlists
    refine ⟨_, _, h.relist (p := np) (x := x) (o := .listed (s.page p).pgszi) rfl hn (hlists.same rfl rfl) ?_ ?_ ?_ ?_ ?_⟩
    · rw [Good, Function.update_self]
      exact ⟨hlive, href, hheld, hsi⟩
    · exact fun y _ => ⟨by simp [hnp], by simp⟩
    · simp [not_not.mp hpga]
    · exact fun q hq => absurd hq (h.hands_given (.inr hx.hand) (by simp))
    · have hi : (s.page p).image ≠ none := fun he => himage (.inr (.inl he))
      exact ⟨rfl, hx.lock, hx.refs, hi, _, Function.update_self ..⟩

theorem dupagain (h : Inv spot l s) (hn : s.panic = none) (hpc : s.pc x = .dupagain p n) (hlock : s.lock p = none) :
    Sane ((s.setlock p (some x)).goto x <| .duppage p n) := by
  have hr : (some x, p) ∈ s.refs := by
    have := h.procs x
    rwa [hpc] at this
  exact ⟨spot, l, h.relock (p := p) (x := x) (c := .duppage p n) rfl hn (by simp [hlock]) (fun _ => h.in_use hr) (fun _ => rfl)
    (fun _ _ => rfl) (fun _ _ => id) (fun _ _ => id) (by rw [hpc]; rfl) ⟨Function.update_self .., hr⟩⟩

theorem duplock (h : Inv spot l s) (hn : s.panic = none) (hpc : s.pc x = .duplock p np) (hlock : s.lock np = none) :
    Sane ({ s.setlock np (some x) with pga := none }.goto x <| .dupcopy p np) := by
  obtain ⟨hpga, hl, hr, hi, si, hnp⟩ : Ok spot s x (.duplock p np) := hpc ▸ h.procs x
  have ⟨hlive, href, _, _⟩ := (h.good np).listed hnp
  have hne : p ≠ np := by
    rintro rfl
    exact nomatch hlock.symm.trans hl
  refine ⟨spot, l, h.relock (p := np) (x := x) (c := .dupcopy p np) rfl hn (by simp [hlock]) (fun _ y => ?_) (fun _ => rfl)
    (fun _ _ => rfl) (fun _ _ => id) (fun y hy hg => ?_) (by rw [hpc]; rfl) ⟨?_, hr, hi, Function.update_self .., hlive, href⟩⟩
  · rw [hnp]
    nofun
  · exact absurd (hpga.symm.trans hg) (by simpa using hy.symm)
  · exact (Function.update_of_ne hne ..).trans hl

theorem dupcopy [DecidableEq I] (h : Inv spot l s) (hn : s.panic = none) (hpc : s.pc x = .dupcopy p np)
    (hs : s.uncachepage np = some s') : Sane (s'.goto x <| .dupcache p np) := by
  obtain ⟨hl, hr, hi, hln, hlive, href⟩ : Ok spot s x (.dupcopy p np) := hpc ▸ h.procs x
  have hne : p ≠ np := by
    rintro rfl
    exact absurd href (Nat.ne_of_gt ((h.good p).used (h.used hr)).right.right)
  obtain ⟨pg, hpg, hw⟩ := (h.cached hn).uncachepage hlive hs
  have hp : s'.page p = s.page p := by rw [hw.page, Function.update_of_ne hne]
  have hnp : s'.page np = pg := by rw [hw.page, Function.update_self]
  have hok : Ok spot s' x (.dupcache p np) :=
    ⟨hw.lock ▸ hl, hw.refs ▸ hr, hp ▸ hi, hw.lock ▸ hln, hw.live ▸ hlive, by rw [hnp, hw.ref, href], by rw [hnp, hpg]⟩
  have h' : Inv spot l s' := by
    refine h.recache hw hlive (fun _ _ => hpg) fun y hy => .inl ?_
    obtain rfl := Option.some.inj (hln.symm.trans hy)
    rw [hpc]
    exact ⟨hok.left, hok.right.left, hok.right.right.left, hok.right.right.right.left, hok.right.right.right.right.left,
      hok.right.right.right.right.right.left⟩
  exact ⟨spot, l, h'.quiet rfl (hw.panic ▸ hn) (hw.panic ▸ h.panic) (fun _ _ => id) (by rw [hw.pc, hpc]; rfl) hok⟩

theorem dupcache [DecidableEq I] (h : Inv spot l s) (hn : s.panic = none) (hpc : s.pc x = .dupcache p np)
    (hs : s.dupcache x p np = some s') : Sane s' := by
  obtain ⟨hl, hr, -, hln, hlive, href, hin⟩ : Ok spot s x (.dupcache p np) := hpc ▸ h.procs x
  have hne : p ≠ np := by
    rintro rfl
    exact absurd href (Nat.ne_of_gt ((h.good p).used (h.used hr)).right.right)
  obtain ⟨i, -, hs⟩ := Option.bind_eq_some_iff.mp hs
  have hs := (Option.some.inj hs).symm
  have hw := (h.cached hn).cachepage (i := i) (d := (s.page p).daddr) hlive hin
  generalize (s.setpage np { s.page np with daddr := (s.page p).daddr }).cachepage np i = s₁ at hs hw
  have hl₁ : s₁.lock = s.lock := hw.lock
  have hn₁ : s₁.panic = none := hw.panic ▸ hn
  -- The page is in the cache, and still locked.
  have h₁ : Inv spot l (s₁.goto x <| .dupend p) := by
    have h₀ : Inv spot l (s.goto x <| .dupend p) :=
      h.quiet rfl hn h.panic (fun _ _ => id) (by rw [hpc]; rfl) ⟨hl, hr⟩
    refine h₀.recache (hw.goto x _) hlive (fun _ hnone => nomatch hln.symm.trans hnone) fun y hy => .inl ?_
    obtain rfl := Option.some.inj (hln.symm.trans hy)
    rw [State.goto_pc]
    exact ⟨hl₁ ▸ hl, hw.refs ▸ hr⟩
  refine ⟨spot, l, h₁.relock (p := np) (x := x) (c := .dupend p) (o := none) ?_ hn₁ (fun y hy hly => ?_) (fun hnone => ?_)
    ?_ ?_ ?_ ?_ (by rw [State.goto_pc]) ⟨?_, ?_⟩⟩
  · rw [hs]
    simp [State.goto, State.setlock]
  · exact absurd ((hl₁ ▸ hln).symm.trans hly) (by simpa using hy.symm)
  · exact nomatch (hl₁ ▸ hln).symm.trans hnone
  all_goals rw [hs]
  · exact fun _ => rfl
  · exact fun _ _ => rfl
  · exact fun _ _ => id
  · exact fun _ _ => id
  · exact (Function.update_of_ne hne ..).trans (hl₁ ▸ hl)
  · exact hw.refs ▸ hr

theorem dupend [DecidableEq I] (h : Inv spot l s) (hn : s.panic = none) (hpc : s.pc x = .dupend p)
    (hs : s.uncachepage p = some s') : Sane (s'.dupdone x p) := by
  have hok : Ok spot s x (.dupend p) := hpc ▸ h.procs x
  exact h.undup hn ⟨hok.left, hok.right, by rw [hpc]; rfl⟩ (fun s' hx => by rw [hpc]; exact ⟨hx.lock, hx.refs⟩) hs

theorem release (h : Inv spot l s) (hn : s.panic = none) (hpga : s.pga = some x) (hx : (s.pc x).taken = none) :
    Sane ({ s with pga := none }.goto x .idle) :=
  ⟨spot, l, h.quiet rfl hn h.panic (fun _ hy hg => absurd (hpga.symm.trans hg) (by simpa using hy.symm)) hx.symm trivial⟩

-- A page that is in the cache is not in the hands of another process while the lock of the allocator is held.
omit [DecidableEq P] in
theorem looked (h : Inv spot l s) (hpga : s.pga = some x) (hx : (s.pc x).taken = none) (hp : p ∈ s.live)
    (hi : (s.page p).image ≠ none) : spot p = .used ∨ ∃ si, spot p = .listed si := by
  cases hspot : spot p
  case listed si => exact .inr ⟨si, rfl⟩
  case used => exact .inl rfl
  case gone =>
    have hg := h.good p
    rw [Good, hspot] at hg
    exact absurd hp hg.left
  case taken y =>
    have hy := h.hands p y hspot
    have hok := h.procs y
    have hxy : s.pga ≠ some y := by
      rintro hg
      obtain rfl := Option.some.inj (hpga.symm.trans hg)
      exact absurd (hx.symm.trans hy) (by simp)
    cases hpc : s.pc y <;> rw [hpc] at hy hok <;> try contradiction
    case newlock q => exact absurd hok.left hxy
    case auxlock q => exact absurd hok.left hxy
    case kick r k =>
      cases k <;> try contradiction
      case chain n q =>
        obtain rfl := Option.some.inj hy
        exact absurd hok.right.left hi
      case freed si once q =>
        obtain rfl := Option.some.inj hy
        exact absurd hok.right.left hi

theorem looklock [DecidableEq I] (h : Inv spot l s) (hn : s.panic = none) (hpc : s.pc x = .looklock p i d)
    (hs : s.looklock x p i d = some s') : Sane s' := by
  obtain ⟨hpga, hf⟩ : Ok spot s x (.looklock p i d) := hpc ▸ h.procs x
  have hx : (s.pc x).taken = none := by rw [hpc]; rfl
  obtain ⟨hlock, hs⟩ := Option.ite_none_right_eq_some.mp hs
  split at hs
  case isTrue =>
    obtain rfl := Option.some.inj hs
    exact h.release hn hpga hx
  case isFalse hmatch =>
    have hi : (s.page p).image ≠ none := by
      rintro he
      exact hmatch (.inl (by simp [he]))
    have hp : p ∈ s.live := by
      by_contra hne
      exact hi (hf hne)
    have hs := (Option.some.inj hs).symm
    rcases h.looked hpga hx hp hi with hspot | ⟨si, hspot⟩
    · have ⟨_, href, hpos⟩ := (h.good p).used hspot
      rw [if_neg (by rw [addref_ref]; omega)] at hs
      refine h.refer hn hpga hlock hp (.inr hx) (by simp [hspot]) href (by rw [hs]; rfl) l ?_
      rw [hs]
      exact (h.lists.move (by rw [hspot])).same rfl rfl
    · have ⟨_, href, hheld, hsi⟩ := (h.good p).listed hspot
      rw [if_pos ((addref_ref s p).trans (by rw [href]))] at hs
      have hlists : (s.addref p).Lists spot l := h.lists.same rfl rfl
      have hun := hlists.pageunchain hspot (by simpa [State.addref, State.setpage] using hsi) (o := .used) rfl
      refine h.refer hn hpga hlock hp (.inr hx) (by simp [hspot]) (by rw [href, hheld]; rfl) (by rw [hs]; rfl)
        (Function.update l si ((l si).erase p)) ?_
      rw [hs]
      exact hun.same rfl rfl

theorem reclaim [DecidableEq I] (h : Inv spot l s) (hn : s.panic = none) (hpc : s.pc x = .reclaim i o)
    (hs : s.reclaim x i o = some s') : Sane s' := by
  obtain ⟨hpga, ho⟩ : Ok spot s x (.reclaim i o) := hpc ▸ h.procs x
  have hx : (s.pc x).taken = none := by rw [hpc]; rfl
  cases o with
  | none =>
    obtain rfl := Option.some.inj hs
    exact h.release hn hpga hx
  | some p =>
    have hspot := ho p rfl
    have hprev : ∀ q ∈ s.links.prev p, spot q = .listed 0 := fun q hq => h.lists.prev_listed hspot hq
    rw [State.reclaim] at hs
    split at hs
    case isTrue =>
      obtain rfl := Option.some.inj hs
      exact h.release hn hpga hx
    case isFalse =>
    split at hs
    case isTrue hfree =>
      obtain ⟨s₁, hun, hs⟩ := Option.bind_eq_some_iff.mp hs
      obtain rfl := Option.some.inj hs
      have hp := ((h.good p).listed hspot).left
      obtain ⟨pg, hpg, hw⟩ := (h.cached hn).uncachepage hp hun
      have h₁ : Inv spot l s₁ := h.recache hw hp (fun _ _ => hpg) (by simp [hfree.right])
      exact ⟨spot, l, h₁.quiet rfl (hw.panic ▸ hn) (hw.panic ▸ h.panic) (fun _ _ => id) (by rw [hw.pc, hpc]; rfl)
        ⟨hw.pga ▸ hpga, hw.links ▸ hprev⟩⟩
    case isFalse =>
      obtain rfl := Option.some.inj hs
      exact ⟨spot, l, h.quiet rfl hn h.panic (fun _ _ => id) hx.symm ⟨hpga, hprev⟩⟩

theorem newpage [DecidableEq I] (h : Inv spot l s) (hn : s.panic = none) (hpc : s.pc x = .newpage r)
    (hs : s.newpage x r new = some s') : Sane s' := by
  have hx : (s.pc x).taken = none := by rw [hpc]; rfl
  obtain ⟨hpga, hs⟩ := Option.ite_none_right_eq_some.mp hs
  obtain ⟨o, ho, hs⟩ := Option.bind_eq_some_iff.mp hs
  cases o with
  | some p =>
    obtain rfl := Option.some.inj hs
    exact h.take hn (h.lists.search_listed ho) hpga hx rfl rfl ⟨rfl, Function.update_self ..⟩
  | none =>
    cases new with
    | none =>
      obtain rfl := Option.some.inj hs
      exact ⟨spot, l, h.quiet rfl hn h.panic (fun _ _ => id) hx.symm trivial⟩
    | some new =>
      -- The page is allocated and put on the list, to be taken off at once.
      obtain ⟨a, color⟩ := new
      obtain ⟨s₁, hs₁, hs⟩ := Option.bind_eq_some_iff.mp hs
      have h₁ := h.pgalloc (r := r) (n := 0) hn hx hs₁
      have hpga₁ : s₁.pga = none := by
        obtain ⟨-, hs₁⟩ := Option.ite_none_left_eq_some.mp hs₁
        obtain rfl := Option.some.inj hs₁
        exact hpga
      have hn₁ : s₁.panic = none := by
        obtain ⟨-, hs₁⟩ := Option.ite_none_left_eq_some.mp hs₁
        obtain rfl := Option.some.inj hs₁
        exact hn
      obtain ⟨l₂, h₂⟩ := h₁.chain (x := x) (p := a) (c := .newpage r) hn₁ (Function.update_self ..) hpga₁ rfl trivial
      obtain rfl := Option.some.inj hs
      refine h₂.take (x := x) (p := a) (c := .newlock a) hn₁ (Function.update_self ..) hpga₁ ?_ ?_ rfl ⟨rfl, Function.update_self ..⟩
      · simp [Pc.taken]
      · simp [State.take, State.goto, State.pageunchain, State.pagechainhead]

theorem auxpage (h : Inv spot l s) (hn : s.panic = none) (hpc : s.pc x = .auxpage si) (hs : s.auxpage x si = some s') :
    Sane s' := by
  have hx : (s.pc x).taken = none := by rw [hpc]; rfl
  obtain ⟨hpga, hs⟩ := Option.ite_none_right_eq_some.mp hs
  split at hs
  case isTrue =>
    obtain rfl := Option.some.inj hs
    exact ⟨spot, l, h.quiet rfl hn h.panic (fun _ _ => id) hx.symm trivial⟩
  case isFalse =>
    obtain ⟨p, hp, hs⟩ := Option.bind_eq_some_iff.mp hs
    obtain rfl := Option.some.inj hs
    exact h.take hn (h.lists.hd_listed hp) hpga hx rfl rfl ⟨rfl, Function.update_self ..⟩

theorem freepages (h : Inv spot l s) (hn : s.panic = none) (hpc : s.pc x = .kick r (.free si once))
    (hcare : c.npgsz ≤ si ∨ ∀ p ∈ (s.pgsza si).hd, (s.page p).image = none ∧ s.lock p = none)
    (hs : s.freepages x r c si once = some s') : Sane s' := by
  have hx : (s.pc x).taken = none := by rw [hpc]; rfl
  rw [State.freepages] at hs
  split at hs
  case isTrue =>
    obtain rfl := Option.some.inj hs
    exact ⟨spot, l, h.quiet rfl hn h.panic (fun _ _ => id) hx.symm trivial⟩
  case isFalse hsi =>
  split at hs
  case isTrue =>
    obtain ⟨hpga, hs⟩ := Option.ite_none_right_eq_some.mp hs
    obtain ⟨p, hp, hs⟩ := Option.bind_eq_some_iff.mp hs
    obtain rfl := Option.some.inj hs
    have ⟨hi, hlock⟩ := hcare.resolve_left hsi p hp
    exact h.take (x := x) hn (h.lists.hd_listed hp) hpga hx rfl rfl ⟨Function.update_self .., hi, hlock⟩
  case isFalse =>
    obtain rfl := Option.some.inj hs
    exact ⟨spot, l, h.quiet rfl hn h.panic (fun _ _ => id) hx.symm trivial⟩

theorem pgfree {c : Pc I} (h : Inv spot l s) (hn : s.panic = none) (hx : (s.pc x).taken = some p)
    (hok : spot p = .taken x ∧ (s.page p).image = none ∧ s.lock p = none) (hok' : ∀ spot, Ok spot ((s.pgfree p).goto x c) x c) :
    Sane ((s.pgfree p).goto x c) := by
  have ⟨hspot, hi, hlock⟩ := hok
  have ⟨_, _, hheld⟩ := (h.good p).taken hspot
  refine ⟨_, _, h.change (x := x) (c := c) (p := p) (o := .gone) hn (s.page p) {
    state := by rw [Function.update_eq_self]; rfl
    image := ⟨rfl, rfl⟩
    nodup := h.nodup.erase p
    live q hq := List.mem_erase_of_ne hq
    free  := .inr hi
    held _ _ := rfl
    refs _ _ := id
    lists := (h.lists.move (by rw [hspot]; rfl)).same rfl rfl
    good  := by
      rw [Good, Function.update_self]
      exact ⟨h.nodup.not_mem_erase, hheld⟩
    lock  := .inl hlock
    other y hy := ⟨by rw [hspot]; simpa using hy.symm, nofun⟩
    pga _ _ hg := ⟨hg, by simp [hspot]⟩
    hands q hq := absurd hq (h.hands_given (.inl hx) nofun)
    ok    := hok' _ }⟩

theorem kickpager [DecidableEq I] (h : Inv spot l s) (hn : s.panic = none) (hpc : s.pc x = .kick r k)
    (hcare : ∀ si once, k = .free si once → c.npgsz ≤ si ∨ ∀ p ∈ (s.pgsza si).hd, (s.page p).image = none ∧ s.lock p = none)
    (hs : s.kickpager x r c new has k = some s') : Sane s' := by
  have go {s' : State P I} {c' : Pc I} (hs : s' = { s with pagerlck := s'.pagerlck, pc := Function.update s.pc x c' })
      (hk : (s.pc x).taken = none) (hc : c'.taken = none) (hok : Ok spot s' x c') : Sane s' := by
    refine ⟨spot, l, h.quiet (x := x) (c := c') ?_ hn ?_ ?_ (hc.trans hk.symm) hok⟩
    all_goals rw [hs]
    · exact h.panic
    · exact fun _ _ => id
  have hx : (Pc.kick r k : Pc I).taken = none → (s.pc x).taken = none := by
    rw [hpc]
    exact id
  cases k with
  | start =>
    obtain ⟨-, hs⟩ := Option.ite_none_right_eq_some.mp hs
    obtain rfl := Option.some.inj hs
    cases has <;> exact go rfl (hx rfl) rfl trivial
  | alloc n =>
    cases new with
    | none =>
      obtain rfl := Option.some.inj hs
      exact go rfl (hx rfl) rfl trivial
    | some new =>
      obtain ⟨s₁, hs₁, hs⟩ := Option.bind_eq_some_iff.mp hs
      obtain rfl := Option.some.inj hs
      exact ⟨_, _, h.pgalloc hn (hx rfl) hs₁⟩
  | chain n a =>
    obtain ⟨hpga, hs⟩ := Option.ite_none_right_eq_some.mp hs
    obtain rfl := Option.some.inj hs
    have hok : Ok spot s x (.kick r (.chain n a)) := hpc ▸ h.procs x
    obtain ⟨l', h'⟩ := h.chain (c := .kick r (.check n)) hn hok.left hpga rfl trivial
    exact ⟨_, l', h'⟩
  | check n =>
    rw [State.kickpager] at hs
    split at hs
    case isTrue =>
      split at hs
      case isTrue => obtain rfl := Option.some.inj hs; exact go rfl (hx rfl) rfl trivial
      case isFalse =>
      split at hs
      case isTrue => obtain rfl := Option.some.inj hs; exact go rfl (hx rfl) rfl trivial
      case isFalse =>
      split at hs <;> (obtain rfl := Option.some.inj hs; exact go rfl (hx rfl) rfl trivial)
    case isFalse =>
      split at hs
      case isTrue => obtain rfl := Option.some.inj hs; exact go rfl (hx rfl) rfl trivial
      case isFalse =>
      split at hs
      case isTrue =>
        obtain rfl := Option.some.inj hs
        exact ⟨spot, l, h.still rfl hn (.inr <| .inr <| .inr rfl)⟩
      case isFalse => obtain rfl := Option.some.inj hs; exact go rfl (hx rfl) rfl trivial
  | free si once => exact h.freepages hn hpc (hcare si once rfl) hs
  | freed si once p =>
    have hok : Ok spot s x (.kick r (.freed si once p)) := hpc ▸ h.procs x
    rw [State.kickpager, if_neg (not_not.mpr ((h.good p).taken hok.left).right.left)] at hs
    obtain rfl := Option.some.inj hs
    refine h.pgfree hn (by rw [hpc]; rfl) hok fun _ => ?_
    cases once <;> trivial
  | done =>
    obtain rfl := Option.some.inj hs
    cases hseg : r.seg <;> exact go rfl (hx rfl) rfl trivial

theorem go [DecidableEq I] (h : Inv spot l s) (hn : s.panic = none) (hcare : Careful c s (.go x new has))
    (hs : s.go x c new has = some s') : Sane s' := by
  rw [State.go] at hs
  cases hpc : s.pc x <;> rw [hpc] at hs
  case idle => contradiction
  case newpage r => exact h.newpage hn hpc hs
  case newlock p =>
    have hok : Ok spot s x (.newlock p) := hpc ▸ h.procs x
    exact h.handout hn (by rw [hpc]; rfl) hok hs
  case kick r k =>
    refine h.kickpager hn hpc (fun si once he => ?_) hs
    exact hcare si (by rw [hpc, he]; rfl)
  case putpage p =>
    obtain ⟨hpga, hs⟩ := Option.ite_none_right_eq_some.mp hs
    obtain rfl := Option.some.inj hs
    have hok : Ok spot s x (.putpage p) := hpc ▸ h.procs x
    exact ⟨spot, l, h.quiet rfl hn h.panic (by simp [hpga]) (by rw [hpc]; rfl) ⟨rfl, hok⟩⟩
  case putlock p => exact h.putpage hn hpc hs
  case auxpage si => exact h.auxpage hn hpc hs
  case auxlock p =>
    have hok : Ok spot s x (.auxlock p) := hpc ▸ h.procs x
    exact h.handout hn (by rw [hpc]; rfl) hok hs
  case duppage p n => exact h.duppage hn hpc hs
  case dupagain p n =>
    obtain ⟨hlock, hs⟩ := Option.ite_none_right_eq_some.mp hs
    obtain rfl := Option.some.inj hs
    exact h.dupagain hn hpc hlock
  case duplock p np =>
    obtain ⟨hlock, hs⟩ := Option.ite_none_right_eq_some.mp hs
    obtain rfl := Option.some.inj hs
    exact h.duplock hn hpc hlock
  case dupcopy p np =>
    obtain ⟨s₁, hs₁, rfl⟩ := Option.map_eq_some_iff.mp hs
    exact h.dupcopy hn hpc hs₁
  case dupcache p np => exact h.dupcache hn hpc hs
  case dupend p =>
    obtain ⟨s₁, hs₁, rfl⟩ := Option.map_eq_some_iff.mp hs
    exact h.dupend hn hpc hs₁
  case lookpage f i d =>
    obtain ⟨hpga, hs⟩ := Option.ite_none_right_eq_some.mp hs
    obtain rfl := Option.some.inj hs
    have hok : Ok spot s x (.lookpage f i d) := hpc ▸ h.procs x
    exact ⟨spot, l, h.quiet rfl hn h.panic (by simp [hpga]) (by rw [hpc]; rfl) ⟨rfl, hok⟩⟩
  case looklock f i d => exact h.looklock hn hpc hs
  case pagereclaim i =>
    obtain ⟨hpga, hs⟩ := Option.ite_none_right_eq_some.mp hs
    obtain rfl := Option.some.inj hs
    exact ⟨spot, l, h.quiet rfl hn h.panic (by simp [hpga]) (by rw [hpc]; rfl) ⟨rfl, fun _ => h.lists.tl_listed⟩⟩
  case reclaim i p => exact h.reclaim hn hpc hs

-- The memory of a page that was freed is used for something else.
omit [DecidableEq P] in
theorem reuse {pg : Page I} {o : Option P} (h : Inv spot l s) (hn : s.panic = none) (hp : p ∉ s.live)
    (hfound : ∀ y, (s.pc y).found ≠ some p) : Sane ((s.setpage p pg).setlock p o) := by
  obtain ⟨hspot, hheld⟩ := h.gone hp
  have hsame q (hq : q ≠ p) : Same spot s spot ((s.setpage p pg).setlock p o) q :=
    ⟨rfl, Function.update_of_ne hq .., Function.update_of_ne hq .., Iff.rfl, rfl⟩
  have hcached : ((s.setpage p pg).setlock p o).Cached := by
    refine (h.cached hn).same (fun q => ?_) rfl rfl
    by_cases hq : q = p
    case pos => rw [hq, State.cached, State.cached, if_neg fun hc => hp hc.left, if_neg fun hc => hp hc.left]
    case neg => simp [State.cached, State.setlock, State.setpage, hq]
  refine ⟨spot, l, h.acted (p := p) ?_ hsame rfl rfl (fun y => ?_) fun _ => id⟩
  · refine h.toStore.focus (h.lists.same rfl rfl) h.nodup (fun _ => hcached) h.panic hsame ?_
    rw [Good, hspot]
    exact ⟨hp, hheld⟩
  · exact ⟨fun _ => id, fun ht => (absurd (hspot.symm.trans ht) (by simp)), id, fun hl => absurd hl hp, fun hf => absurd hf (hfound y)⟩

-- One more segment refers to a page.
omit [DecidableEq P] in
theorem ptecpy (h : Inv spot l s) (hn : s.panic = none) (hr : (none, p) ∈ s.refs) (hlock : s.lock p = none) :
    Sane (s.addref p) := by
  have hspot := h.used hr
  obtain ⟨hp, href, hpos⟩ := (h.good p).used hspot
  have hsame q (hq : q ≠ p) : Same spot s spot (s.addref p) q :=
    ⟨rfl, Function.update_of_ne hq .., rfl, Iff.rfl, held_cons_of_ne hq⟩
  have hcached : (s.addref p).Cached := by
    refine (h.cached hn).same (fun q => ?_) rfl rfl
    by_cases hq : q = p
    case pos => simp [hq, State.cached, State.addref, State.setpage]
    case neg => simp [State.cached, State.addref, State.setpage, hq]
  refine ⟨spot, l, h.acted (p := p) ?_ hsame rfl rfl (fun y => ?_) fun _ => id⟩
  · refine h.toStore.focus (h.lists.same rfl rfl) h.nodup (fun _ => hcached) h.panic hsame ?_
    rw [Good, hspot, addref_held, addref_ref, href]
    exact ⟨hp, rfl, Nat.succ_pos _⟩
  · exact ⟨fun _ => id, fun ht => (absurd (hspot.symm.trans ht) (by simp)), List.mem_cons_of_mem _, fun _ hl => (absurd (hlock.symm.trans hl) (by simp)),
      fun _ _ hl => absurd hp hl⟩

theorem act [DecidableEq I] {b : Act P I} (h : Inv spot l s) (hn : s.panic = none) (hcare : Careful c s b)
    (hs : s.act c b = some s') : Sane s' := by
  cases b
  case newpage x r =>
    obtain ⟨hpc, hs⟩ := Option.ite_none_right_eq_some.mp hs
    obtain rfl := Option.some.inj hs
    exact ⟨spot, l, h.quiet rfl hn h.panic (fun _ _ => id) (by rw [hpc]; rfl) trivial⟩
  case auxpage x si =>
    obtain ⟨hpc, hs⟩ := Option.ite_none_right_eq_some.mp hs
    obtain rfl := Option.some.inj hs
    exact ⟨spot, l, h.quiet rfl hn h.panic (fun _ _ => id) (by rw [hpc]; rfl) trivial⟩
  case pagereclaim x i =>
    obtain ⟨hpc, hs⟩ := Option.ite_none_right_eq_some.mp hs
    obtain rfl := Option.some.inj hs
    exact ⟨spot, l, h.quiet rfl hn h.panic (fun _ _ => id) (by rw [hpc]; rfl) trivial⟩
  case putpage x p =>
    obtain ⟨⟨hpc, hr⟩, hs⟩ := Option.ite_none_right_eq_some.mp hs
    obtain rfl := Option.some.inj hs
    refine h.exchange (p := p) (x := x) (o := s.lock p) (v := some x) (c := .putpage p) hn hr (by rw [hpc]; rfl) (fun _ _ => id) nofun ?_ rfl
      List.mem_cons_self
    rw [Function.update_eq_self]
    rfl
  case duppage x p =>
    obtain ⟨⟨hpc, hr, hlock⟩, hs⟩ := Option.ite_none_right_eq_some.mp hs
    obtain rfl := Option.some.inj hs
    exact h.exchange (p := p) (x := x) (o := some x) (c := .duppage p 0) hn hr (by rw [hpc]; rfl) (by simp [hlock]) nofun rfl rfl
      ⟨Function.update_self .., List.mem_cons_self⟩
  case lookpage x i d =>
    obtain ⟨hpc, hs⟩ := Option.ite_none_right_eq_some.mp hs
    obtain ⟨⟨a, f⟩, hf, hs⟩ := Option.bind_eq_some_iff.mp hs
    cases f with
    | none =>
      obtain rfl := Option.some.inj hs
      exact ⟨spot, l, h.quiet rfl hn h.panic (fun _ _ => id) (by rw [hpc]) trivial⟩
    | some f =>
      obtain rfl := Option.some.inj hs
      have hlive := ((h.cached hn).lookup hf).left
      exact ⟨spot, l, h.quiet rfl hn h.panic (fun _ _ => id) (by rw [hpc]; rfl) fun hno => absurd hlive hno⟩
  case cachepage p i d =>
    obtain ⟨hr, hs⟩ := Option.ite_none_right_eq_some.mp hs
    have hp := h.live_of_ref hr
    split at hs
    case isTrue hi =>
      obtain rfl := Option.some.inj hs
      have hpos := ((h.good p).used (h.used hr)).right.right
      exact ⟨spot, l, h.recache ((h.cached hn).cachepage hp hi) hp (fun hz => absurd hz (Nat.ne_of_gt hpos))
        fun y _ => .inr ⟨fun hne => absurd hi hne, fun hz => absurd hz (Nat.ne_of_gt hpos)⟩⟩
    case isFalse =>
      obtain rfl := Option.some.inj hs
      exact ⟨spot, l, h.still rfl hn (.inr <| .inl rfl)⟩
  case uncachepage p =>
    obtain ⟨⟨hp, hlock⟩, hs⟩ := Option.ite_none_right_eq_some.mp hs
    obtain ⟨pg, hpg, hw⟩ := (h.cached hn).uncachepage hp hs
    exact ⟨spot, l, h.recache hw hp (fun _ _ => hpg) (by simp [hlock])⟩
  case cachedel i d =>
    obtain ⟨⟨a, f⟩, hf, hs⟩ := Option.bind_eq_some_iff.mp hs
    cases f with
    | none =>
      obtain rfl := Option.some.inj hs
      exact ⟨spot, l, h⟩
    | some f =>
      obtain ⟨hlock, hs⟩ := Option.ite_none_right_eq_some.mp hs
      obtain rfl := Option.some.inj hs
      obtain ⟨hp, -, -, hw⟩ := (h.cached hn).lookup hf
      exact ⟨spot, l, h.recache hw hp (fun _ _ => rfl) (by simp [hlock])⟩
  case ptecpy p =>
    obtain ⟨⟨hr, hlock⟩, hs⟩ := Option.ite_none_right_eq_some.mp hs
    obtain rfl := Option.some.inj hs
    exact h.ptecpy hn hr hlock
  case go x new has => exact h.go hn hcare hs
  case reuse a pg o =>
    obtain ⟨hp, hs⟩ := Option.ite_none_left_eq_some.mp hs
    obtain rfl := Option.some.inj hs
    exact h.reuse hn hp hcare

end

end Inv

end Port.Pgalloc
