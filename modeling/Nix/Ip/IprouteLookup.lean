import Nix.Ip.IprouteTrees

-- What is found in a tree, and what is left when something is taken out of it.
namespace Ip.Iproute

open Tree

section

variable {A G : Type} [LinearOrder A] {rt : Range A} {la : A} {n p q x y : Route A G} {t l m r : Tree A G} {k : Nat} {d : UInt8}

theorem looknode_spec (ht : t.Ordered) (hn : ∀ y ∈ t.routes, rt.Nested y.range) :
    (looknode rt t = none ∧ ∀ y ∈ t.routes, y.range ≠ rt) ∨ ∃ l m r d p put fits others,
      looknode rt t = some (node l m r d p, put) ∧ p.range = rt ∧ Place t (node l m r d p) put fits others := by
  induction t
  case nil                      => exact .inl ⟨rfl, by simp [routes]⟩
  case node l m r d p ihl ihm ihr =>
    have hall (y : Route A G) (hy : y ∈ l.routes ∨ y = p ∨ y ∈ m.routes ∨ y ∈ r.routes) := hn y (mem_node.mpr hy)
    rw [looknode]
    rcases hall p (.inr (.inl rfl)) with h | h | h | h | h
    · have hplace := Place.left ht
      rw [rangecompare_before h]
      rcases ihl hplace.ordered fun y hy => hall y (.inl hy) with
        ⟨hnone, hne⟩ | ⟨l', m', r', d', p', put, fits, others, hsome, hp', hplace'⟩
      · exact .inl ⟨by rw [hnone]; rfl, hplace.ne h hne⟩
      · exact .inr ⟨l', m', r', d', p', _, _, _, by rw [hsome]; rfl, hp', hplace.trans hplace'⟩
    · have hplace := Place.right ht
      rw [rangecompare_after h]
      rcases ihr hplace.ordered fun y hy => hall y (.inr (.inr (.inr hy))) with
        ⟨hnone, hne⟩ | ⟨l', m', r', d', p', put, fits, others, hsome, hp', hplace'⟩
      · exact .inl ⟨by rw [hnone]; rfl, hplace.ne h hne⟩
      · exact .inr ⟨l', m', r', d', p', _, _, _, by rw [hsome]; rfl, hp', hplace.trans hplace'⟩
    · rw [h, rangecompare_self]
      exact .inr ⟨l, m, r, d, p, id, fun _ => True, fun _ => False, rfl, rfl, .self ht⟩
    · have hplace := Place.mid ht
      rw [rangecompare_within h]
      rcases ihm hplace.ordered fun y hy => hall y (.inr (.inr (.inl hy))) with
        ⟨hnone, hne⟩ | ⟨l', m', r', d', p', put, fits, others, hsome, hp', hplace'⟩
      · exact .inl ⟨by rw [hnone]; rfl, hplace.ne h hne⟩
      · exact .inr ⟨l', m', r', d', p', _, _, _, by rw [hsome]; rfl, hp', hplace.trans hplace'⟩
    · rw [rangecompare_contains h]
      exact .inl ⟨rfl, ne_of_within ht h⟩

-- What there is when one is taken away from what is there.
def Removed (rt : Range A) (there : Route A G → Prop) (x : Route A G) : Prop :=
  (there x ∧ x.range ≠ rt) ∨ ∃ y, there y ∧ y.range = rt ∧ y.ref ≠ 1 ∧ x = { y with ref := y.ref - 1 }

theorem addqueue_mem {queue : List (Tree A G)} {u v : Tree A G} (h : u ∈ addqueue queue v) : u ∈ queue ∨ u = v := by
  cases v
  case nil  => exact .inl h
  case node =>
    rcases List.mem_cons.mp h with h | h
    · exact .inr h
    · exact .inl h

theorem addqueue_routes {queue : List (Tree A G)} {v : Tree A G} :
    (∃ u ∈ addqueue queue v, x ∈ u.routes) ↔ x ∈ v.routes ∨ ∃ u ∈ queue, x ∈ u.routes := by
  cases v
  case nil  => simp [addqueue, routes]
  case node => rw [addqueue, List.exists_mem_cons_iff]

theorem delroute_spec (ht : t.Ordered) (hn : ∀ y ∈ t.routes, rt.Nested y.range) (hk : 3 ≤ k) :
    ∃ t', delroute k rt t = some t' ∧ t'.Ordered ∧ ∀ x, x ∈ t'.routes ↔ Removed rt (· ∈ t.routes) x := by
  rcases looknode_spec ht hn with ⟨hnone, hne⟩ | ⟨l, m, r, d, p, put, fits, others, hsome, hp, hf⟩
  · refine ⟨t, by rw [delroute, hnone]; rfl, ht, fun x => ?_⟩
    constructor
    · exact fun hx => .inl ⟨hx, hne x hx⟩
    · rintro (⟨hx, -⟩ | ⟨y, hy, heq, -⟩)
      · exact hx
      · exact absurd heq (hne y hy)
  · have hord := hf.ordered
    obtain ⟨hl, hm, hr, hol, hom, hor⟩ := hord
    have hpfits := hf.room p (mem_node.mpr (.inr (.inl rfl)))
    -- the range is that of no other node
    have hother (x : Route A G) (hx : others x ∨ x ∈ l.routes ∨ x ∈ m.routes ∨ x ∈ r.routes) : x.range ≠ rt := by
      rw [← hp]
      rcases hx with hx | hx | hx | hx
      · exact (hf.slot.below p.range x hpfits hx).ne.symm
      · exact (hl x hx).ne
      · exact (hm x hx).right.right
      · exact (hr x hx).ne.symm
    have hmem (x : Route A G) : x ∈ t.routes ↔ x = p ∨ (others x ∨ x ∈ l.routes ∨ x ∈ m.routes ∨ x ∈ r.routes) := by
      rw [hf.mem, mem_node]
      tauto
    have hremoved (x : Route A G) : Removed rt (· ∈ t.routes) x ↔
        (others x ∨ x ∈ l.routes ∨ x ∈ m.routes ∨ x ∈ r.routes) ∨ p.ref ≠ 1 ∧ x = { p with ref := p.ref - 1 } := by
      constructor
      · rintro (⟨hx, hne⟩ | ⟨y, hy, heq, hx⟩)
        · rcases (hmem x).mp hx with rfl | hx
          · exact absurd hp hne
          · exact .inl hx
        · rcases (hmem y).mp hy with rfl | hy
          · exact .inr hx
          · exact absurd heq (hother y hy)
      · rintro (hx | hx)
        · exact .inl ⟨(hmem x).mpr (.inr hx), hother x hx⟩
        · exact .inr ⟨p, (hmem p).mpr (.inl rfl), hp, hx⟩
    rw [delroute, hsome]
    dsimp only
    split
    case isTrue hlast =>
      obtain ⟨hput, hputmem⟩ := hf.slot.put nil trivial (by simp [routes])
      have hothers (x : Route A G) : x ∈ (put nil).routes ↔ others x := by simp [hputmem, routes]
      have hfits (s : Route A G) (hs : s ∈ l.routes ∨ s ∈ m.routes ∨ s ∈ r.routes) : fits s.range :=
        hf.room s (mem_node.mpr (hs.elim .inl fun hs => .inr (.inr hs)))
      have hapart (u : Tree A G) (hu : u = l ∨ u = m ∨ u = r) : u.Ordered ∧ Apart (put nil) u := by
        refine ⟨by rcases hu with rfl | rfl | rfl <;> assumption, fun s hs y hy => ?_⟩
        refine hf.slot.below s.range y (hfits s ?_) ((hothers y).mp hy)
        have hs := mem_of_spine hs
        rcases hu with rfl | rfl | rfl
        · exact .inl hs
        · exact .inr (.inl hs)
        · exact .inr (.inr hs)
      have hrl : Apart r l := fun s hs y hy => .inl ((hl s (mem_of_spine hs)).trans (hr y hy))
      have hrm : Apart r m := fun s hs y hy => .inl ((hr y hy).of_within (hm s (mem_of_spine hs)))
      have hml : Apart m l := fun s hs y hy => .inl ((hl s (mem_of_spine hs)).to_within (hm y hy))
      have hqueue (u : Tree A G) (hu : u ∈ addqueue (addqueue (addqueue [] l) m) r) : u = l ∨ u = m ∨ u = r := by
        rcases addqueue_mem hu with hu | hu
        · rcases addqueue_mem hu with hu | hu
          · exact .inl ((addqueue_mem hu).resolve_left List.not_mem_nil)
          · exact .inr (.inl hu)
        · exact .inr (.inr hu)
      have hpair : (addqueue (addqueue (addqueue [] l) m) r).Pairwise Apart := by
        cases l <;> cases m <;> cases r <;> simp [addqueue, hrl, hrm, hml]
      have hlen : (addqueue (addqueue (addqueue [] l) m) r).length ≤ k := by
        refine le_trans ?_ hk
        cases l <;> cases m <;> cases r <;> simp [addqueue]
      obtain ⟨t', ht', hord, hmem'⟩ := merge_apart hput (fun u hu => hapart u (hqueue u hu)) hpair hlen
      refine ⟨t', ht', hord, fun x => ?_⟩
      rw [hmem', hremoved, hothers, addqueue_routes, addqueue_routes, addqueue_routes]
      have hone : p.ref = 1 := by omega
      simp only [hone, ne_eq, not_true_eq_false, false_and, or_false, List.not_mem_nil, exists_false]
      tauto
    case isFalse hmore =>
      obtain ⟨hput, hputmem⟩ := hf.slot.put (node l m r d { p with ref := p.ref - 1 }) ⟨hl, hm, hr, hol, hom, hor⟩ (by
        intro x hx
        rcases mem_node.mp hx with hx | rfl | hx
        · exact hf.room x (mem_node.mpr (.inl hx))
        · exact hpfits
        · exact hf.room x (mem_node.mpr (.inr (.inr hx))))
      refine ⟨_, rfl, hput, fun x => ?_⟩
      have hne : p.ref ≠ 1 := by omega
      rw [hputmem, hremoved, mem_node]
      simp only [ne_eq, hne, not_false_eq_true, true_and]
      tauto

-- The most specific of the routes to an address.
def Longest (la : A) (there : Route A G → Prop) (x : Route A G) : Prop :=
  there x ∧ la ∈ x.range ∧ ∀ y, there y → la ∈ y.range → y = x ∨ x.range.Within y.range

-- What a search from `q` on comes to.
def Finds (la : A) (q : Option (Route A G)) (t : Tree A G) (res : Option (Route A G)) : Prop :=
  (res = q ∧ ∀ y ∈ t.routes, la ∉ y.range) ∨ ∃ x, res = some x ∧ Longest la (· ∈ t.routes) x

theorem Finds.place {u : Tree A G} {q res : Option (Route A G)} (h : Finds la q u res) (hu : Place t u put fits others)
    (hothers : ∀ y, others y → la ∉ y.range) : Finds la q t res := by
  rcases h with ⟨hres, hnone⟩ | ⟨x, hres, hx, hla, hmost⟩
  · exact .inl ⟨hres, fun y hy => ((hu.mem y).mp hy).elim (hothers y) (hnone y)⟩
  · exact .inr ⟨x, hres, (hu.mem x).mpr (.inr hx), hla, fun y hy hla =>
      ((hu.mem y).mp hy).elim (fun hy => absurd hla (hothers y hy)) fun hy => hmost y hy hla⟩

theorem search_spec (ht : t.Ordered) (q : Option (Route A G)) : Finds la q t (search la q t) := by
  induction t generalizing q
  case nil                      => exact .inl ⟨rfl, by simp [routes]⟩
  case node l m r d p ihl ihm ihr =>
    have hl := Place.left ht
    have hm := Place.mid ht
    have hr := Place.right ht
    rw [search]
    split
    case isTrue hlo  =>
      split
      case isTrue hhi  =>
        have hmem : la ∈ p.range := ⟨hlo, hhi⟩
        have hother (y : Route A G) (hy : y ∈ l.routes ∨ y = p ∨ y ∈ r.routes) (hla : la ∈ y.range) : y = p := by
          rcases hy with hy | rfl | hy
          · exact absurd hmem ((hl.room y hy).not_mem hla)
          · rfl
          · exact absurd hla (Range.Before.not_mem (hr.room y hy) hmem)
        rcases ihm hm.ordered (some p) with ⟨hsearch, hnone⟩ | ⟨x, hsearch, hx, hla, hmost⟩
        · refine .inr ⟨p, hsearch, mem_node.mpr (.inr (.inl rfl)), hmem, fun y hy hla => .inl ?_⟩
          exact ((hm.mem y).mp hy).elim (hother y · hla) fun hy => absurd hla (hnone y hy)
        · refine .inr ⟨x, hsearch, (hm.mem x).mpr (.inr hx), hla, fun y hy hla => ?_⟩
          rcases (hm.mem y).mp hy with hy | hy
          · exact .inr (hother y hy hla ▸ hm.room x hx)
          · exact hmost y hy hla
      case isFalse hhi =>
        refine (ihr hr.ordered q).place hr ?_
        rintro y (hy | rfl | hy) hla
        · exact hhi (hla.right.trans ((hl.room y hy).le.trans p.range.le))
        · exact hhi hla.right
        · exact hhi ((hm.room y hy).mem hla).right
    case isFalse hlo =>
      refine (ihl hl.ordered q).place hl ?_
      rintro y (rfl | hy | hy) hla
      · exact hlo hla.left
      · exact hlo ((hm.room y hy).mem hla).left
      · exact hlo (p.range.le.trans ((hr.room y hy).le.trans hla.left))

-- Writing a node changes nothing else.
theorem routes_set (t : Tree A G) (q : Route A G) :
    (t.set q).routes = t.routes.map fun x => if x.range = q.range then q else x := by
  induction t
  case nil                      => rfl
  case node l m r d p ihl ihm ihr =>
    rw [Tree.set, routes, routes, ihl, ihm, ihr, List.map_append, List.map_cons, List.map_append]

theorem Tree.Ordered.set (h : t.Ordered) (q : Route A G) : (t.set q).Ordered := by
  have hkey (p : Route A G) : (if p.range = q.range then q else p).range = p.range := by
    split
    case isTrue heq => exact heq.symm
    case isFalse    => rfl
  have hall {u : Tree A G} (P : Range A → Prop) (hu : ∀ x ∈ u.routes, P x.range) : ∀ x ∈ (u.set q).routes, P x.range := by
    intro x hx
    rw [routes_set, List.mem_map] at hx
    obtain ⟨y, hy, rfl⟩ := hx
    rw [hkey]
    exact hu y hy
  induction t
  case nil                      => trivial
  case node l m r d p ihl ihm ihr =>
    obtain ⟨hl, hm, hr, hol, hom, hor⟩ := h
    rw [Tree.set]
    refine ⟨?_, ?_, ?_, ihl hol, ihm hom, ihr hor⟩
    · rw [hkey]
      exact hall (·.Before p.range) hl
    · rw [hkey]
      exact hall (·.Within p.range) hm
    · rw [hkey]
      exact hall p.range.Before hr

-- No range is that of two nodes.
theorem Tree.Ordered.nodup (h : t.Ordered) : (t.routes.map Route.range).Nodup := by
  induction t
  case nil                      => exact List.nodup_nil
  case node l m r d p ihl ihm ihr =>
    obtain ⟨hl, hm, hr, hol, hom, hor⟩ := h
    have hmr : (m.routes.map Route.range ++ r.routes.map Route.range).Nodup := by
      refine (ihm hom).append (ihr hor) fun s hs hs' => ?_
      obtain ⟨x, hx, rfl⟩ := List.mem_map.mp hs
      obtain ⟨y, hy, hxy⟩ := List.mem_map.mp hs'
      exact ((hr y hy).of_within (hm x hx)).ne hxy.symm
    have hp : p.range ∉ m.routes.map Route.range ++ r.routes.map Route.range := by
      rw [List.mem_append, List.mem_map, List.mem_map]
      rintro (⟨x, hx, heq⟩ | ⟨x, hx, heq⟩)
      · exact (hm x hx).right.right heq
      · exact (hr x hx).ne heq.symm
    rw [routes, List.map_append, List.map_cons, List.map_append]
    refine (ihl hol).append (List.nodup_cons.mpr ⟨hp, hmr⟩) fun s hs hs' => ?_
    obtain ⟨x, hx, rfl⟩ := List.mem_map.mp hs
    have hxp := hl x hx
    rcases List.mem_cons.mp hs' with heq | hs'
    · exact hxp.ne heq
    · rcases List.mem_append.mp hs' with hs' | hs'
      · obtain ⟨y, hy, hxy⟩ := List.mem_map.mp hs'
        exact (hxp.to_within (hm y hy)).ne hxy.symm
      · obtain ⟨y, hy, hxy⟩ := List.mem_map.mp hs'
        exact (hxp.trans (hr y hy)).ne hxy.symm

theorem rr_eq (H : A → Nat) (h : Nat) (t : Tree A G) : rr H h t = t.routes.filter fun x => H x.range.lo = h := by
  induction t
  case nil                      => rfl
  case node l m r d p ihl ihm ihr =>
    rw [rr, routes, ihl, ihm, ihr, List.filter_append, List.filter_cons, List.filter_append]
    split <;> simp [*]

theorem routeflush_spec (tag : Option (List UInt8)) (t : Tree A G) :
    (routeflush tag t = none ∧ ∀ x ∈ t.routes, flushed tag x = false) ∨
      ∃ x ∈ t.routes, routeflush tag t = some x ∧ flushed tag x = true := by
  induction t
  case nil                      => exact .inl ⟨rfl, by simp [routes]⟩
  case node l m r d p ihl ihm ihr =>
    rw [routeflush]
    rcases ihm with ⟨hm, hmnone⟩ | ⟨x, hx, hm, hflushed⟩
    · rw [hm]
      rcases ihl with ⟨hl, hlnone⟩ | ⟨x, hx, hl, hflushed⟩
      · rw [hl]
        rcases ihr with ⟨hr, hrnone⟩ | ⟨x, hx, hr, hflushed⟩
        · rw [hr]
          by_cases hp : flushed tag p = true
          · exact .inr ⟨p, mem_node.mpr (.inr (.inl rfl)), if_pos hp, hp⟩
          · refine .inl ⟨if_neg hp, fun y hy => ?_⟩
            rcases mem_node.mp hy with hy | rfl | hy | hy
            · exact hlnone y hy
            · exact Bool.eq_false_of_not_eq_true hp
            · exact hmnone y hy
            · exact hrnone y hy
        · rw [hr]
          exact .inr ⟨x, mem_node.mpr (.inr (.inr (.inr hx))), rfl, hflushed⟩
      · rw [hl]
        exact .inr ⟨x, mem_node.mpr (.inl hx), rfl, hflushed⟩
    · rw [hm]
      exact .inr ⟨x, mem_node.mpr (.inr (.inr (.inl hx))), rfl, hflushed⟩

end

end Ip.Iproute
