import Nix.Lib.Stacks
import Nix.Port.Pgalloc

namespace Port.Pgalloc

-- Where a page is: on the list of the free pages of a size, in the hands of a process that allocates or frees it, or in
-- use. There may be no page.
inductive Spot (P : Type)
  | listed (si : Nat)
  | taken (x : P)
  | used
  | gone

def Spot.list {P : Type} : Spot P → Option Nat
  | .listed si => some si
  | _ => none

def places {P : Type} (spot : Addr → Spot P) (p : Addr) : Option Nat :=
  (spot p).list

variable {P I : Type} {s s' : State P I} {spot : Addr → Spot P} {l : Nat → List Addr} {p : Addr} {o : Spot P} {si : Nat}

theorem places_update : places (Function.update spot p o) = Function.update (places spot) p o.list :=
  funext fun q => Function.apply_update (fun _ => Spot.list) spot p o q

namespace State

-- The lists of free pages.
def Lists (s : State P I) (spot : Addr → Spot P) (l : Nat → List Addr) : Prop :=
  Listing s.links s.pgsza (places spot) l

namespace Lists

-- Only the links and the ends of the lists matter, and where the pages are.
theorem same (h : s.Lists spot l) (hk : s'.links = s.links) (he : s'.pgsza = s.pgsza) :
    s'.Lists spot l := by
  rw [Lists, hk, he]
  exact h

theorem move (h : s.Lists spot l) (ho : o.list = (spot p).list) : s.Lists (Function.update spot p o) l := by
  have hplaces : places (Function.update spot p o) = places spot := by
    rw [places_update, ho]
    exact Function.update_eq_self ..
  rw [Lists, hplaces]
  exact h

theorem mem_iff (h : s.Lists spot l) : p ∈ l si ↔ spot p = .listed si := by
  rw [h.mem, places]
  cases spot p <;> simp [Spot.list]

theorem off (h : s.Lists spot l) (hp : (spot p).list = none) : s.links.next p = none ∧ s.links.prev p = none :=
  Listing.off h hp

theorem hd_listed (h : s.Lists spot l) (hs : (s.pgsza si).hd = some p) : spot p = .listed si :=
  h.mem_iff.mp <| (Listing.list h si).hd_mem hs

theorem tl_listed (h : s.Lists spot l) (hs : (s.pgsza si).tl = some p) : spot p = .listed si :=
  h.mem_iff.mp <| (Listing.list h si).tl_mem hs

theorem prev_listed (h : s.Lists spot l) (hp : spot p = .listed si) (hs : s.links.prev p = some q) : spot q = .listed si :=
  h.mem_iff.mp <| (Listing.list h si).prev_mem (h.mem_iff.mpr hp) hs

theorem pageunchain (h : s.Lists spot l) (hp : spot p = .listed si) (hsi : (s.page p).pgszi = si) (ho : o.list = none) :
    (s.pageunchain p).Lists (Function.update spot p o) (Function.update l si ((l si).erase p)) := by
  have hplace : places spot p = some si := by simp [places, hp, Spot.list]
  have hun := Listing.unlink h hplace
  rw [Lists, places_update, ho]
  simpa only [State.pageunchain, hsi] using hun

theorem pagechainhead (h : s.Lists spot l) (hp : (spot p).list = none) (hsi : (s.page p).pgszi = si) :
    (s.pagechainhead p).Lists (Function.update spot p (.listed si)) (Function.update l si (p :: l si)) := by
  have hlink := Listing.link h hp si
  have hhd : (s.pgsza si).hd ≠ some p := fun he => nomatch hp.symm.trans (h.hd_listed he ▸ rfl : (spot p).list = some si)
  have hprev : (s.links.link (s.pgsza si) p).prev p = none :=
    (updateAt_of_ne hhd).trans (h.off hp).right
  rw [Lists, places_update]
  simp only [State.pagechainhead, hsi]
  rwa [← hprev, Function.update_eq_self]

theorem pagechaintail (h : s.Lists spot l) (hp : (spot p).list = none) (hsi : (s.page p).pgszi = si) :
    (s.pagechaintail p).Lists (Function.update spot p (.listed si)) (Function.update l si (l si ++ [p])) := by
  have hlink := Listing.linklast h hp si
  have htl : (s.pgsza si).tl ≠ some p := fun he => nomatch hp.symm.trans (h.tl_listed he ▸ rfl : (spot p).list = some si)
  have hnext : (s.links.linklast (s.pgsza si) p).next p = none :=
    (updateAt_of_ne htl).trans (h.off hp).left
  rw [Lists, places_update]
  simp only [State.pagechaintail, hsi]
  rwa [← hnext, Function.update_eq_self]

theorem pgalloc (h : s.Lists spot l) (hp : (spot p).list = none) (hs : s.pgalloc p si color = some s') :
    s'.Lists spot l := by
  obtain ⟨-, hs⟩ := Option.ite_none_left_eq_some.mp hs
  obtain rfl := Option.some.inj hs
  have ⟨hnext, hprev⟩ := h.off hp
  have hn : Function.update s.links.next p none = s.links.next := by rw [← hnext, Function.update_eq_self]
  have hv : Function.update s.links.prev p none = s.links.prev := by rw [← hprev, Function.update_eq_self]
  rw [Lists, hn, hv]
  exact h

theorem search_listed {stop : Addr → Option Bool} (h : s.Lists spot l)
    (hs : (search s.links.next stop k none (s.pgsza si).hd).map Prod.snd = some (some p)) :
    spot p = .listed si := by
  obtain ⟨⟨a, b⟩, hs, rfl⟩ := Option.map_eq_some_iff.mp hs
  have hlist := Listing.list h si
  rw [hlist.hd] at hs
  obtain ⟨m, l', hl, -, hb, -, -⟩ := hlist.next.search_head? hs
  exact h.mem_iff.mp <| hl ▸ List.mem_append_right _ (List.mem_of_head? hb.symm)

end Lists

-- The chain that a page is on, if it is in the cache.
def cached (s : State P I) (p : Addr) : Option Nat :=
  if p ∈ s.live ∧ (s.page p).image ≠ none then some (pghash (s.page p).daddr) else none

-- The chains of the cache.
def Cached (s : State P I) : Prop :=
  ∃ c, Stacks s.chain s.hash s.cached c

namespace Cached

theorem same (h : s.Cached) (hp : ∀ p, s'.cached p = s.cached p) (hc : s'.chain = s.chain)
    (hh : s'.hash = s.hash) : s'.Cached := by
  rw [Cached, hc, hh, funext hp]
  exact h

theorem cached_update {pg : Page I} (hlive : s'.live = s.live) (hpage : s'.page = Function.update s.page p pg) :
    s'.cached = Function.update s.cached p (if p ∈ s.live ∧ pg.image ≠ none then some (pghash pg.daddr) else none) := by
  funext q
  by_cases hq : q = p
  case pos => simp [hq, cached, hlive, hpage]
  case neg => simp [hq, cached, hlive, hpage]

theorem unhash {m l' : List Addr} {c : Nat → List Addr} (h : Stacks s.chain s.hash s.cached c) (hl : c i = m ++ p :: l') :
    ((s.unhash p m.getLast? i).forget p).Cached := by
  have hcut := h.cut hl
  refine ⟨Function.update c i ((c i).erase p), ?_⟩
  have hplaces : ((s.unhash p m.getLast? i).forget p).cached = _ := cached_update (s := s) rfl rfl
  rw [hplaces, if_neg fun hn => hn.right rfl]
  exact hcut

-- A page is put in the cache or taken out of it, and nothing else is done to it.
structure Recached (s : State P I) (p : Addr) (pg : Page I) (s' : State P I) : Prop where
  cached : s'.Cached
  ref    : pg.ref = (s.page p).ref
  pgszi  : pg.pgszi = (s.page p).pgszi
  page   : s'.page = Function.update s.page p pg
  links  : s'.links = s.links
  pgsza  : s'.pgsza = s.pgsza
  live   : s'.live = s.live
  lock   : s'.lock = s.lock
  refs   : s'.refs = s.refs
  pc     : s'.pc = s.pc
  pga    : s'.pga = s.pga
  panic  : s'.panic = s.panic

theorem Recached.forget {l : Option Addr} (h : ((s.unhash p l i).forget p).Cached) :
    Recached s p { s.page p with image := none, daddr := 0 } ((s.unhash p l i).forget p) :=
  ⟨h, rfl, rfl, rfl, rfl, rfl, rfl, rfl, rfl, rfl, rfl, rfl⟩

theorem Recached.goto [DecidableEq P] {pg : Page I} (h : Recached s p pg s') (x : P) (c : Pc I) :
    Recached (s.goto x c) p pg (s'.goto x c) :=
  { h with
    cached := h.cached.same (fun _ => rfl) rfl rfl
    pc     := by rw [State.goto, State.goto, h.pc] }

theorem uncachepage [DecidableEq I] (h : s.Cached) (hp : p ∈ s.live) (hs : s.uncachepage p = some s') :
    ∃ pg, pg.image = none ∧ Recached s p pg s' := by
  rw [State.uncachepage] at hs
  split at hs
  case isTrue himage =>
    obtain rfl := Option.some.inj hs
    exact ⟨s.page p, himage, h, rfl, rfl, (Function.update_eq_self ..).symm, rfl, rfl, rfl, rfl, rfl, rfl, rfl, rfl⟩
  case isFalse himage =>
    obtain ⟨c, hc⟩ := h
    obtain ⟨⟨a, b⟩, hfound, hs⟩ := Option.bind_eq_some_iff.mp hs
    have hplace : s.cached p = some (pghash (s.page p).daddr) := if_pos ⟨hp, himage⟩
    rw [hc.hd] at hfound
    obtain ⟨m, l', hl, rfl, rfl, hstop, hpass⟩ := (hc.next _).search_head? hfound
    have hmem := hl ▸ hc.mem.mpr hplace
    cases l' with
    | nil =>
      rw [List.append_nil] at hmem
      simpa using hpass p hmem
    | cons b l' =>
      obtain rfl : b = p := by simpa using hstop b rfl
      simp only [List.head?_cons, Option.or_none] at hs
      obtain rfl := Option.some.inj hs
      exact ⟨_, rfl, .forget (unhash hc hl)⟩

theorem cachepage [DecidableEq I] (h : s.Cached) (hp : p ∈ s.live) (hi : (s.page p).image = none) :
    Recached s p { s.page p with image := some i, daddr := d } ((s.setpage p { s.page p with daddr := d }).cachepage p i) := by
  obtain ⟨c, hc⟩ := h
  have hplace : s.cached p = none := if_neg fun hn => hn.right hi
  have hpush := hc.push (i := pghash d) hplace
  have hpage : (s.setpage p { s.page p with daddr := d }).page p = { s.page p with daddr := d } := Function.update_self ..
  have hno : ¬((s.setpage p { s.page p with daddr := d }).page p).image ≠ none := by
    rw [hpage]
    exact not_not.mpr hi
  have hidem : ((s.setpage p { s.page p with daddr := d }).cachepage p i).page =
      Function.update s.page p { s.page p with image := some i, daddr := d } := by
    rw [State.cachepage, if_neg hno, hpage]
    exact Function.update_idem ..
  have hplaces : ((s.setpage p { s.page p with daddr := d }).cachepage p i).cached =
      Function.update s.cached p (some (pghash d)) := by
    rw [cached_update (s := s) (by rw [State.cachepage, if_neg hno]; rfl) hidem, if_pos ⟨hp, nofun⟩]
  refine ⟨⟨Function.update c (pghash d) (p :: c (pghash d)), ?_⟩, rfl, rfl, hidem, ?_, ?_, ?_, ?_, ?_, ?_, ?_, ?_⟩
  · rw [hplaces, State.cachepage, if_neg hno, hpage]
    exact hpush
  all_goals
    rw [State.cachepage, if_neg hno]
    rfl

theorem lookup [DecidableEq I] (h : s.Cached) (hs : s.lookup i d = some (a, some p)) :
    p ∈ s.live ∧ (s.page p).image = some i ∧ (s.page p).daddr = d ∧
      Recached s p { s.page p with image := none, daddr := 0 } ((s.unhash p a <| pghash d).forget p) := by
  obtain ⟨c, hc⟩ := h
  rw [State.lookup, hc.hd] at hs
  obtain ⟨m, l', hl, rfl, hb, hstop, -⟩ := (hc.next _).search_head? hs
  obtain ⟨hi, hd⟩ : (s.page p).image = some i ∧ (s.page p).daddr = d := by simpa using hstop p rfl
  obtain ⟨l', rfl⟩ := List.head?_eq_some_iff.mp hb.symm
  have hplace : s.cached p = some (pghash d) := hc.mem.mp (by rw [hl]; simp)
  have hlive : p ∈ s.live := by
    rw [cached] at hplace
    split at hplace
    case isTrue hp  => exact hp.left
    case isFalse    => contradiction
  refine ⟨hlive, hi, hd, ?_⟩
  rw [Option.or_none]
  exact .forget (unhash hc hl)

theorem pgalloc (h : s.Cached) (hs : s.pgalloc p si color = some s') : s'.Cached := by
  obtain ⟨hp, hs⟩ := Option.ite_none_left_eq_some.mp hs
  obtain rfl := Option.some.inj hs
  obtain ⟨c, hc⟩ := h
  have hplace : s.cached p = none := if_neg fun hn => hp hn.left
  refine ⟨c, ?_⟩
  convert hc.congr (n := Function.update s.hash p none) fun a ha => ?_ using 1
  · funext q
    by_cases hq : q = p
    case pos => simpa [hq, cached] using hplace.symm
    case neg => simp [hq, cached]
  · have hne : a ≠ p := fun he => ha (he ▸ hplace)
    exact (Function.update_of_ne hne ..).symm

end Cached

end State

end Port.Pgalloc
