import Nix.Port.PgallocLists

namespace Port.Pgalloc

section

variable {P I : Type} {s s' : State P I} {spot spot' : Addr → Spot P} {l l' : Nat → List Addr} {p q : Addr} {x y : P}

namespace State

@[simp] theorem goto_pc [DecidableEq P] (s : State P I) (x : P) (c : Pc I) : (s.goto x c).pc x = c :=
  Function.update_self ..

end State

-- A page is where it is said to be, and counts its references.
def Good (spot : Addr → Spot P) (s : State P I) (p : Addr) : Prop :=
  match spot p with
  | .listed si => p ∈ s.live ∧ (s.page p).ref = 0 ∧ s.held p = [] ∧ (s.page p).pgszi = si
  | .taken _   => p ∈ s.live ∧ (s.page p).ref = 0 ∧ s.held p = []
  | .used      => p ∈ s.live ∧ (s.page p).ref = (s.held p).length ∧ 0 < (s.page p).ref
  | .gone      => p ∉ s.live ∧ s.held p = []

-- What a process relies on.
def Ok (spot : Addr → Spot P) (s : State P I) (x : P) : Pc I → Prop
  | .newlock p | .auxlock p => s.pga = some x ∧ spot p = .taken x
  | .kick _ (.chain _ p) | .kick _ (.freed _ _ p) => spot p = .taken x ∧ (s.page p).image = none ∧ s.lock p = none
  | .putpage p => (some x, p) ∈ s.refs
  | .putlock p => s.pga = some x ∧ (some x, p) ∈ s.refs
  | .duppage p _ | .dupend p => s.lock p = some x ∧ (some x, p) ∈ s.refs
  | .dupagain p _ => (some x, p) ∈ s.refs
  | .duplock p np =>
    s.pga = some x ∧ s.lock p = some x ∧ (some x, p) ∈ s.refs ∧ (s.page p).image ≠ none ∧ ∃ si, spot np = .listed si
  | .dupcopy p np =>
    s.lock p = some x ∧ (some x, p) ∈ s.refs ∧ (s.page p).image ≠ none ∧
      s.lock np = some x ∧ np ∈ s.live ∧ (s.page np).ref = 0
  | .dupcache p np =>
    s.lock p = some x ∧ (some x, p) ∈ s.refs ∧ (s.page p).image ≠ none ∧
      s.lock np = some x ∧ np ∈ s.live ∧ (s.page np).ref = 0 ∧ (s.page np).image = none
  | .lookpage f _ _ => f ∉ s.live → (s.page f).image = none
  | .looklock f _ _ => s.pga = some x ∧ (f ∉ s.live → (s.page f).image = none)
  | .reclaim _ p => s.pga = some x ∧ ∀ q ∈ p, spot q = .listed 0
  | _ => True

structure Store (spot : Addr → Spot P) (l : Nat → List Addr) (s : State P I) : Prop where
  lists  : s.Lists spot l
  good   : ∀ p, Good spot s p
  nodup  : s.live.Nodup
  cached : s.panic = none → s.Cached
  panic  : Tolerated s.panic

structure Inv (spot : Addr → Spot P) (l : Nat → List Addr) (s : State P I) : Prop extends Store spot l s where
  procs : ∀ x, Ok spot s x (s.pc x)
  hands : ∀ p x, spot p = .taken x → (s.pc x).taken = some p

-- Nothing is done to a page.
structure Same (spot : Addr → Spot P) (s : State P I) (spot' : Addr → Spot P) (s' : State P I) (q : Addr) : Prop where
  spot : spot' q = spot q
  page : s'.page q = s.page q
  lock : s'.lock q = s.lock q
  live : q ∈ s'.live ↔ q ∈ s.live
  held : s'.held q = s.held q

-- What is done to a page does not take from a process what it relies on.
structure Stable (y : P) (c : Pc I) (spot : Addr → Spot P) (s : State P I) (spot' : Addr → Spot P) (s' : State P I)
    (q : Addr) : Prop where
  listed : s.pga = some y → spot q = .listed si → spot' q = .listed si
  taken  : spot q = .taken y → spot' q = .taken y ∧
    ((s.page q).image = none → s.lock q = none → (s'.page q).image = none ∧ s'.lock q = none)
  refs   : (some y, q) ∈ s.refs → (some y, q) ∈ s'.refs
  lock   : q ∈ s.live → s.lock q = some y → q ∈ s'.live ∧ s'.lock q = some y ∧
    ((s.page q).image ≠ none → (s'.page q).image ≠ none) ∧
    ((s.page q).ref = 0 → (s'.page q).ref = 0 ∧ ((s.page q).image = none → (s'.page q).image = none))
  found  : c.found = some q → (q ∉ s.live → (s.page q).image = none) → q ∉ s'.live → (s'.page q).image = none

theorem addref_ref (s : State P I) (p : Addr) : ((s.addref p).page p).ref = (s.page p).ref + 1 := by
  simp [State.addref, State.setpage]

theorem addref_held (s : State P I) (p : Addr) : (s.addref p).held p = (none, p) :: s.held p := by
  simp [State.held, State.addref]

theorem mem_held : (o, p) ∈ s.refs ↔ (o, p) ∈ s.held p := by
  simp [State.held]

theorem Same.mem_refs (h : Same spot s spot' s' q) : (o, q) ∈ s'.refs ↔ (o, q) ∈ s.refs := by
  rw [mem_held, mem_held, h.held]

theorem Same.stable (h : Same spot s spot' s' q) : Stable y c spot s spot' s' q where
  listed := fun _ hq => h.spot.trans hq
  taken  := fun hq => ⟨h.spot.trans hq, fun hi hl => ⟨h.page ▸ hi, h.lock ▸ hl⟩⟩
  refs   := h.mem_refs.mpr
  lock hlive hlock := by
    rw [h.page, h.lock]
    exact ⟨h.live.mpr hlive, hlock, id, fun hr => ⟨hr, id⟩⟩
  found  := fun _ hf hlive => h.page ▸ hf (fun hq => hlive (h.live.mpr hq))

theorem Same.good (h : Same spot s spot' s' q) (hq : Good spot s q) : Good spot' s' q := by
  rw [Good, h.spot, h.page, h.held]
  rw [Good] at hq
  split at hq <;> simpa [h.live] using hq

theorem Good.used (h : Good spot s p) (hp : spot p = .used) :
    p ∈ s.live ∧ (s.page p).ref = (s.held p).length ∧ 0 < (s.page p).ref := by
  rwa [Good, hp] at h

theorem Good.listed (h : Good spot s p) (hp : spot p = .listed si) :
    p ∈ s.live ∧ (s.page p).ref = 0 ∧ s.held p = [] ∧ (s.page p).pgszi = si := by
  rwa [Good, hp] at h

theorem Good.taken (h : Good spot s p) (hp : spot p = .taken x) : p ∈ s.live ∧ (s.page p).ref = 0 ∧ s.held p = [] := by
  rwa [Good, hp] at h

theorem Ok.stable {c : Pc I} (h : Ok spot s y c) (hpga : s.pga = some y → s'.pga = some y)
    (hs : ∀ q, Stable y c spot s spot' s' q) (hlive : ∀ q, (some y, q) ∈ s.refs → q ∈ s.live) : Ok spot' s' y c := by
  have hlock {q} (hr : (some y, q) ∈ s.refs) := (hs q).lock (hlive q hr)
  cases c
  case newlock p => exact ⟨hpga h.left, ((hs p).taken h.right).left⟩
  case auxlock p => exact ⟨hpga h.left, ((hs p).taken h.right).left⟩
  case kick r k =>
    cases k
    case chain n p =>
      have ⟨hspot, hrest⟩ := (hs p).taken h.left
      exact ⟨hspot, hrest h.right.left h.right.right⟩
    case freed si once p =>
      have ⟨hspot, hrest⟩ := (hs p).taken h.left
      exact ⟨hspot, hrest h.right.left h.right.right⟩
    all_goals trivial
  case putpage p => exact (hs p).refs h
  case putlock p => exact ⟨hpga h.left, (hs p).refs h.right⟩
  case duppage p n => exact ⟨(hlock h.right h.left).right.left, (hs p).refs h.right⟩
  case dupend p => exact ⟨(hlock h.right h.left).right.left, (hs p).refs h.right⟩
  case dupagain p n => exact (hs p).refs h
  case duplock p np =>
    have ⟨hg, hl, hr, hi, si, hnp⟩ := h
    have ⟨_, hl', hi', _⟩ := hlock hr hl
    exact ⟨hpga hg, hl', (hs p).refs hr, hi' hi, si, (hs np).listed hg hnp⟩
  case dupcopy p np =>
    have ⟨hl, hr, hi, hln, hnp, hz⟩ := h
    have ⟨_, hl', hi', _⟩ := hlock hr hl
    have ⟨hnp', hln', _, hz'⟩ := (hs np).lock hnp hln
    exact ⟨hl', (hs p).refs hr, hi' hi, hln', hnp', (hz' hz).left⟩
  case dupcache p np =>
    have ⟨hl, hr, hi, hln, hnp, hz, hin⟩ := h
    have ⟨_, hl', hi', _⟩ := hlock hr hl
    have ⟨hnp', hln', _, hz'⟩ := (hs np).lock hnp hln
    exact ⟨hl', (hs p).refs hr, hi' hi, hln', hnp', (hz' hz).left, (hz' hz).right hin⟩
  case lookpage f i d => exact (hs f).found rfl h
  case looklock f i d => exact ⟨hpga h.left, (hs f).found rfl h.right⟩
  case reclaim i p => exact ⟨hpga h.left, fun q hq => (hs q).listed h.left (h.right q hq)⟩
  all_goals trivial

namespace Store

theorem used (h : Store spot l s) (hr : (o, p) ∈ s.refs) : spot p = .used := by
  have hg := h.good p
  have hne : s.held p ≠ [] := List.ne_nil_of_mem (mem_held.mp hr)
  rw [Good] at hg
  cases hp : spot p <;> rw [hp] at hg
  case listed si => exact absurd hg.right.right.left hne
  case taken x   => exact absurd hg.right.right hne
  case gone      => exact absurd hg.right hne

theorem live_of_ref (h : Store spot l s) (hr : (o, p) ∈ s.refs) : p ∈ s.live := by
  have hg := h.good p
  rw [Good, h.used hr] at hg
  exact hg.left

theorem gone (h : Store spot l s) (hp : p ∉ s.live) : spot p = .gone ∧ s.held p = [] := by
  have hg := h.good p
  rw [Good] at hg
  cases hspot : spot p <;> rw [hspot] at hg
  case gone => exact ⟨rfl, hg.right⟩
  all_goals exact absurd hg.left hp

theorem focus (h : Store spot l s) (hlists : s'.Lists spot' l') (hnodup : s'.live.Nodup)
    (hcached : s'.panic = none → s'.Cached) (hpanic : Tolerated s'.panic) (hsame : ∀ q ≠ p, Same spot s spot' s' q)
    (hgood : Good spot' s' p) : Store spot' l' s' where
  lists  := hlists
  nodup  := hnodup
  cached := hcached
  panic  := hpanic
  good q := by
    by_cases hq : q = p
    case pos => exact hq ▸ hgood
    case neg => exact (hsame q hq).good (h.good q)

end Store

namespace Inv

theorem other (h : Inv spot l s) (hsame : ∀ q ≠ p, Same spot s spot' s' q) (hpc : s'.pc y = s.pc y)
    (hpga : s.pga = some y → s'.pga = some y) (hp : Stable y (s.pc y) spot s spot' s' p) : Ok spot' s' y (s'.pc y) := by
  rw [hpc]
  refine (h.procs y).stable hpga (fun q => ?_) fun q hr => h.live_of_ref hr
  by_cases hq : q = p
  case pos => exact hq ▸ hp
  case neg => exact (hsame q hq).stable

theorem moved (h : Inv spot l s) (hstore : Store spot' l' s') (hsame : ∀ q ≠ p, Same spot s spot' s' q)
    (hpc : ∀ y ≠ x, s'.pc y = s.pc y) (hpga : ∀ y ≠ x, s.pga = some y → s'.pga = some y)
    (hp : ∀ y ≠ x, Stable y (s.pc y) spot s spot' s' p) (hspot : ∀ y ≠ x, spot' p = .taken y → spot p = .taken y)
    (hok : Ok spot' s' x (s'.pc x)) (hhands : ∀ q, spot' q = .taken x → (s'.pc x).taken = some q) : Inv spot' l' s' where
  toStore := hstore
  procs y := by
    by_cases hy : y = x
    case pos => exact hy ▸ hok
    case neg => exact h.other hsame (hpc y hy) (hpga y hy) (hp y hy)
  hands q y hq := by
    by_cases hy : y = x
    case pos => exact hy ▸ hhands q (hy ▸ hq)
    case neg =>
      rw [hpc y hy]
      refine h.hands q y ?_
      by_cases hqp : q = p
      case pos => exact hqp ▸ hspot y hy (hqp ▸ hq)
      case neg => exact (hsame q hqp).spot ▸ hq

theorem acted (h : Inv spot l s) (hstore : Store spot' l' s') (hsame : ∀ q ≠ p, Same spot s spot' s' q) (hpc : s'.pc = s.pc)
    (hpga : s'.pga = s.pga) (hp : ∀ y, Stable y (s.pc y) spot s spot' s' p)
    (hspot : ∀ y, spot' p = .taken y → spot p = .taken y) : Inv spot' l' s' where
  toStore := hstore
  procs y := h.other hsame (congrFun hpc y) (hpga ▸ id) (hp y)
  hands q y hq := by
    rw [hpc]
    refine h.hands q y ?_
    by_cases hqp : q = p
    case pos => exact hqp ▸ hspot y (hqp ▸ hq)
    case neg => exact (hsame q hqp).spot ▸ hq

end Inv

end

variable {P I : Type} [DecidableEq P] {s s' : State P I} {spot : Addr → Spot P} {l : Nat → List Addr}
variable {p q : Addr} {x y : P}

section Held

variable {refs : List (Option P × Addr)} {o o' : Option P}

omit [DecidableEq P] in
theorem held_cons_self : ((o, p) :: refs).filter (fun r => r.snd = p) = (o, p) :: refs.filter fun r => r.snd = p := by
  simp

omit [DecidableEq P] in
theorem held_cons_of_ne (hq : q ≠ p) : ((o, p) :: refs).filter (fun r => r.snd = q) = refs.filter fun r => r.snd = q := by
  simp [hq.symm]

theorem held_erase_of_ne (hq : q ≠ p) : (refs.erase (o, p)).filter (fun r => r.snd = q) = refs.filter fun r => r.snd = q := by
  rw [← List.erase_filter]
  exact List.erase_of_not_mem (by simp [hq.symm])

theorem length_held_erase (hr : (o, p) ∈ refs) :
    ((refs.erase (o, p)).filter fun r => r.snd = p).length + 1 = (refs.filter fun r => r.snd = p).length := by
  rw [← List.erase_filter]
  exact List.length_erase_add_one (by simp [hr])

theorem mem_held_erase (hne : o' ≠ o) (hr : (o', p) ∈ refs) : (o', p) ∈ refs.erase (o, p) :=
  (List.mem_erase_of_ne (by simp [hne])).mpr hr

end Held

-- What a page counts is changed, and whether it is there, along with its place. The process that does so goes on to `c`.
structure Change (x : P) (p : Addr) (o : Spot P) (pg : Page I) (c : Pc I) (spot : Addr → Spot P) (s : State P I)
    (l' : Nat → List Addr) (s' : State P I) : Prop where
  state : s' = { s with
    page := Function.update s.page p pg, links := s'.links, pgsza := s'.pgsza, live := s'.live, refs := s'.refs,
    pga := s'.pga, pc := Function.update s.pc x c }
  image : pg.image = (s.page p).image ∧ pg.daddr = (s.page p).daddr
  nodup : s'.live.Nodup
  live  : ∀ q ≠ p, q ∈ s'.live ↔ q ∈ s.live
  free  : (p ∈ s'.live ∧ p ∈ s.live) ∨ pg.image = none
  held  : ∀ q ≠ p, s'.held q = s.held q
  refs  : ∀ y ≠ x, (some y, p) ∈ s.refs → (some y, p) ∈ s'.refs
  lists : s'.Lists (Function.update spot p o) l'
  good  : Good (Function.update spot p o) s' p
  lock  : s.lock p = none ∨ s.lock p = some x
  other : ∀ y ≠ x, spot p ≠ .taken y ∧ o ≠ .taken y
  pga   : ∀ y ≠ x, s.pga = some y → s'.pga = some y ∧ ∀ si, spot p ≠ .listed si
  hands : ∀ q, Function.update spot p o q = .taken x → c.taken = some q
  ok    : Ok (Function.update spot p o) s' x c

namespace Inv

theorem quiet {c : Pc I} (h : Inv spot l s)
    (hs : s' = { s with
      pga := s'.pga, pagerlck := s'.pagerlck, dupretries := s'.dupretries, pc := Function.update s.pc x c, panic := s'.panic })
    (hn : s.panic = none) (hpanic : Tolerated s'.panic) (hpga : ∀ y ≠ x, s.pga = some y → s'.pga = some y)
    (htaken : c.taken = (s.pc x).taken) (hok : Ok spot s' x c) : Inv spot l s' := by
  have hpc : s'.pc = Function.update s.pc x c := by rw [hs]
  have hlive : s'.live = s.live := by rw [hs]
  have hsame q : Same spot s spot s' q := by
    rw [hs]
    exact ⟨rfl, rfl, rfl, Iff.rfl, rfl⟩
  have hstore : Store spot l s' := by
    refine h.toStore.focus (p := 0) ?_ (hlive ▸ h.nodup) ?_ hpanic (fun q _ => hsame q) ((hsame 0).good (h.good 0))
    · rw [hs]
      exact h.lists.same rfl rfl
    · rw [hs]
      exact fun _ => (h.cached hn).same (fun _ => rfl) rfl rfl
  refine h.moved (p := 0) hstore (fun q _ => hsame q) (fun y hy => ?_) hpga (fun y _ => (hsame 0).stable) (fun _ _ => id) ?_ fun q hq => ?_
  · rw [hpc, Function.update_of_ne hy]
  · rwa [hpc, Function.update_self]
  · rw [hpc, Function.update_self, htaken]
    exact h.hands q x hq

-- A process fails, or counts its failures.
omit [DecidableEq P] in
theorem still (h : Inv spot l s) (hs : s' = { s with dupretries := s'.dupretries, panic := s'.panic }) (hn : s.panic = none)
    (hpanic : Tolerated s'.panic) : Inv spot l s' where
  lists  := h.lists.same (by rw [hs]) (by rw [hs])
  good p := Same.good (by rw [hs]; exact ⟨rfl, rfl, rfl, Iff.rfl, rfl⟩) (h.good p)
  nodup  := by rw [hs]; exact h.nodup
  cached _ := by rw [hs]; exact (h.cached hn).same (fun _ => rfl) rfl rfl
  panic  := hpanic
  procs x := by
    rw [hs]
    exact (h.procs x).stable id (fun q => Same.stable ⟨rfl, rfl, rfl, Iff.rfl, rfl⟩) fun _ hr => h.live_of_ref hr
  hands  := by rw [hs]; exact h.hands

-- The lock of a page is taken or given up, and one who refers to the page may make use of that, or no longer.
theorem relock {c : Pc I} (h : Inv spot l s)
    (hs : s' = { s with
      lock := Function.update s.lock p o, pga := s'.pga, refs := s'.refs, pc := Function.update s.pc x c })
    (hn : s.panic = none) (hlock : ∀ y ≠ x, s.lock p = some y → o = some y) (hspot : s.lock p = none → ∀ y, spot p ≠ .taken y)
    (hheld : ∀ q, (s'.held q).length = (s.held q).length) (hrefs : ∀ q ≠ p, s'.held q = s.held q)
    (hother : ∀ y ≠ x, (some y, p) ∈ s.refs → (some y, p) ∈ s'.refs)
    (hpga : ∀ y ≠ x, s.pga = some y → s'.pga = some y) (htaken : c.taken = (s.pc x).taken) (hok : Ok spot s' x c) :
    Inv spot l s' := by
  have hpc : s'.pc = Function.update s.pc x c := by rw [hs]
  have hlive : s'.live = s.live := by rw [hs]
  have hpage : s'.page = s.page := by rw [hs]
  have hsame q (hq : q ≠ p) : Same spot s spot s' q := by
    refine ⟨rfl, congrFun hpage q, ?_, hlive ▸ Iff.rfl, hrefs q hq⟩
    rw [hs]
    exact Function.update_of_ne hq ..
  have hgood : Good spot s' p := by
    have hg := h.good p
    have hnil : s'.held p = [] ↔ s.held p = [] := by
      rw [← List.length_eq_zero_iff, hheld, List.length_eq_zero_iff]
    rw [Good] at hg ⊢
    cases hp : spot p <;> rw [hp] at hg <;> simpa [hpage, hlive, hheld, hnil] using hg
  have hstore : Store spot l s' := by
    refine h.toStore.focus ?_ (hlive ▸ h.nodup) ?_ ?_ hsame hgood
    · rw [hs]
      exact h.lists.same rfl rfl
    · rw [hs]
      exact fun _ => (h.cached hn).same (fun _ => rfl) rfl rfl
    · rw [hs]
      exact h.panic
  refine h.moved hstore hsame (fun y hy => ?_) hpga (fun y hy => ?_) (fun _ _ => id) ?_ fun q hq => ?_
  · rw [hpc, Function.update_of_ne hy]
  · refine ⟨fun _ => id, fun ht => ⟨ht, fun _ hl => absurd ht (hspot hl y)⟩, hother y hy, fun hp hl => ⟨hlive ▸ hp, ?_, ?_⟩, fun _ hf hl => ?_⟩
    · rw [hs]
      exact (Function.update_self ..).trans (hlock y hy hl)
    · rw [hpage]
      exact ⟨id, fun hr => ⟨hr, id⟩⟩
    · rw [hpage]
      exact hf (hlive ▸ hl)
  · rwa [hpc, Function.update_self]
  · rw [hpc, Function.update_self, htaken]
    exact h.hands q x hq

-- A page is put in the cache or taken out of it, and no process makes a step.
omit [DecidableEq P] in
theorem recache {pg : Page I} (h : Inv spot l s) (hw : State.Cached.Recached s p pg s') (hp : p ∈ s.live)
    (htaken : (s.page p).ref = 0 → s.lock p = none → pg.image = none)
    (hlock : ∀ y, s.lock p = some y → Ok spot s' y (s.pc y) ∨
      ((s.page p).image ≠ none → pg.image ≠ none) ∧ ((s.page p).ref = 0 → (s.page p).image = none → pg.image = none)) :
    Inv spot l s' := by
  have hpage : s'.page p = pg := by rw [hw.page, Function.update_self]
  have hsame q (hq : q ≠ p) : Same spot s spot s' q := by
    refine ⟨rfl, ?_, congrFun hw.lock q, hw.live ▸ Iff.rfl, by rw [State.held, hw.refs]; rfl⟩
    rw [hw.page, Function.update_of_ne hq]
  have hgood : Good spot s' p := by
    have hg := h.good p
    rw [Good] at hg ⊢
    cases hspot : spot p <;> rw [hspot] at hg <;> simpa [hpage, hw.live, hw.ref, hw.pgszi, State.held, hw.refs] using hg
  have hstore : Store spot l s' :=
    h.toStore.focus (h.lists.same hw.links hw.pgsza) (hw.live ▸ h.nodup) (fun _ => hw.cached) (hw.panic ▸ h.panic) hsame hgood
  refine ⟨hstore, fun y => ?_, fun q y hq => hw.pc ▸ h.hands q y hq⟩
  by_cases hok : Ok spot s' y (s.pc y)
  case pos => rwa [hw.pc]
  case neg =>
    refine h.other hsame (congrFun hw.pc y) (hw.pga ▸ id) ⟨fun _ => id, fun ht => ⟨ht, fun _ hl => ⟨?_, hw.lock ▸ hl⟩⟩,
      hw.refs ▸ id, fun _ hl => ⟨hw.live ▸ hp, hw.lock ▸ hl, ?_⟩, fun _ _ hn => absurd (hw.live ▸ hp) hn⟩
    · rw [hpage]
      exact htaken ((h.good p).taken ht).right.left hl
    · have ⟨hi, hz⟩ := (hlock y hl).resolve_left hok
      rw [hpage, hw.ref]
      exact ⟨hi, fun hr => ⟨hr, hz hr⟩⟩

theorem relist {c : Pc I} {o : Spot P} (h : Inv spot l s)
    (hs : s' = { s with links := s'.links, pgsza := s'.pgsza, pga := s'.pga, pc := Function.update s.pc x c })
    (hn : s.panic = none) (hlists : s'.Lists (Function.update spot p o) l') (hgood : Good (Function.update spot p o) s p)
    (hspot : ∀ y ≠ x, spot p ≠ .taken y ∧ o ≠ .taken y) (hpga : ∀ y ≠ x, s.pga ≠ some y)
    (hhands : ∀ q, Function.update spot p o q = .taken x → c.taken = some q) (hok : Ok (Function.update spot p o) s' x c) :
    Inv (Function.update spot p o) l' s' := by
  have hpc : s'.pc = Function.update s.pc x c := by rw [hs]
  have hsame q (hq : q ≠ p) : Same spot s (Function.update spot p o) s' q := by
    rw [hs]
    exact ⟨Function.update_of_ne hq .., rfl, rfl, Iff.rfl, rfl⟩
  have hstore : Store (Function.update spot p o) l' s' := by
    rw [hs] at hlists ⊢
    exact h.toStore.focus hlists h.nodup (fun _ => (h.cached hn).same (fun _ => rfl) rfl rfl) h.panic (hs ▸ hsame) hgood
  refine h.moved hstore hsame (fun y hy => ?_) (fun y hy hg => absurd hg (hpga y hy)) (fun y hy => ?_) (fun y hy ht => ?_) ?_ fun q hq => ?_
  · rw [hpc, Function.update_of_ne hy]
  · rw [hs]
    exact ⟨fun hg => absurd hg (hpga y hy), fun ht => absurd ht (hspot y hy).left, id,
      fun hl hlock => ⟨hl, hlock, id, fun hr => ⟨hr, id⟩⟩, fun _ hf => hf⟩
  · exact absurd ((Function.update_self ..).symm.trans ht) (hspot y hy).right
  · rwa [hpc, Function.update_self]
  · rw [hpc, Function.update_self]
    exact hhands q hq

theorem change {c : Pc I} {o : Spot P} (h : Inv spot l s) (hn : s.panic = none) (pg : Page I)
    (hc : Change x p o pg c spot s l' s') : Inv (Function.update spot p o) l' s' := by
  have hpc : s'.pc = Function.update s.pc x c := by rw [hc.state]
  have hpage : s'.page = Function.update s.page p pg := by rw [hc.state]
  have hsame q (hq : q ≠ p) : Same spot s (Function.update spot p o) s' q := by
    refine ⟨Function.update_of_ne hq .., ?_, ?_, hc.live q hq, hc.held q hq⟩
    · rw [hpage, Function.update_of_ne hq]
    · rw [hc.state]
  have hcached q : s'.cached q = s.cached q := by
    by_cases hq : q = p
    case pos =>
      rw [hq, State.cached, State.cached, hpage, Function.update_self, hc.image.left, hc.image.right]
      rcases hc.free with hf | hf
      · simp [hf]
      · simp [hc.image.left.symm.trans hf]
    case neg => simp only [State.cached, (hsame q hq).page, hc.live q hq]
  have hstore : Store (Function.update spot p o) l' s' := by
    refine h.toStore.focus hc.lists hc.nodup (fun _ => ?_) ?_ hsame hc.good
    · exact (h.cached hn).same hcached (by rw [hc.state]) (by rw [hc.state])
    · rw [hc.state]
      exact h.panic
  refine h.moved hstore hsame (fun y hy => ?_) (fun y hy hg => (hc.pga y hy hg).left) (fun y hy => ?_) (fun y hy ht => ?_) ?_ fun q hq => ?_
  · rw [hpc, Function.update_of_ne hy]
  · have hne : s.lock p ≠ some y := by
      rcases hc.lock with he | he <;> simp [he, hy.symm]
    refine ⟨fun hg hl => absurd hl ((hc.pga y hy hg).right _), fun ht => absurd ht (hc.other y hy).left, hc.refs y hy,
      fun _ hl => absurd hl hne, fun _ _ hl => ?_⟩
    rw [hpage, Function.update_self]
    exact hc.free.resolve_left fun hf => hl hf.left
  · exact absurd ((Function.update_self ..).symm.trans ht) (hc.other y hy).right
  · rw [hpc, Function.update_self]
    exact hc.ok
  · rw [hpc, Function.update_self]
    exact hc.hands q hq

end Inv

end Port.Pgalloc
