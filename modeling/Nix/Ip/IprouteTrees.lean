import Nix.Ip.Iproute

-- What is in a tree, and in what order.
namespace Ip.Iproute

section

variable {A G : Type} [LinearOrder A] {a b rt : Range A} {la : A} {n p x y : Route A G} {t l m r : Tree A G} {k : Nat}

namespace Tree

-- On the left, the node, in the middle, and on the right.
def routes : Tree A G → List (Route A G)
  | nil            => []
  | node l m r _ p => l.routes ++ p :: (m.routes ++ r.routes)

-- Without what is in the middle.
def spine : Tree A G → List (Route A G)
  | nil            => []
  | node l _ r _ p => l.spine ++ p :: r.spine

-- What is on the left is before a node, what is in the middle is in it, and what is on the right is after it.
def Ordered : Tree A G → Prop
  | nil            => True
  | node l m r _ p =>
    (∀ x ∈ l.routes, x.range.Before p.range) ∧ (∀ x ∈ m.routes, x.range.Within p.range) ∧
      (∀ x ∈ r.routes, p.range.Before x.range) ∧ l.Ordered ∧ m.Ordered ∧ r.Ordered

theorem mem_node {d : UInt8} :
    x ∈ (node l m r d p).routes ↔ x ∈ l.routes ∨ x = p ∨ x ∈ m.routes ∨ x ∈ r.routes := by
  rw [routes, List.mem_append, List.mem_cons, List.mem_append]

theorem mem_of_spine (h : x ∈ t.spine) : x ∈ t.routes := by
  induction t
  case nil => exact h
  case node l m r d p ihl _ ihr =>
    rw [spine, List.mem_append, List.mem_cons] at h
    rw [mem_node]
    rcases h with h | h | h
    · exact .inl (ihl h)
    · exact .inr (.inl h)
    · exact .inr (.inr (.inr (ihr h)))

end Tree

open Tree

-- Comparisons

theorem rangecompare_before (h : a.Before b) : rangecompare a b = .Rpreceeds :=
  if_pos h

theorem rangecompare_after (h : b.Before a) : rangecompare a b = .Rfollows :=
  (if_neg h.asymm).trans (if_pos h)

theorem rangecompare_overlap (h : ¬a.Before b) (h' : ¬b.Before a) : rangecompare a b =
    if a.lo ≤ b.lo ∧ b.hi ≤ a.hi then if a.lo = b.lo ∧ a.hi = b.hi then .Requals else .Rcontains else .Rcontained :=
  (if_neg h).trans (if_neg h')

theorem rangecompare_self (a : Range A) : rangecompare a a = .Requals := by
  rw [rangecompare_overlap (fun h => h.ne rfl) (fun h => h.ne rfl), if_pos ⟨le_rfl, le_rfl⟩, if_pos ⟨rfl, rfl⟩]

theorem rangecompare_contains (h : b.Within a) : rangecompare a b = .Rcontains := by
  rw [rangecompare_overlap (fun h' => h'.not_within.right h) (fun h' => h'.not_within.left h), if_pos ⟨h.left, h.right.left⟩,
    if_neg fun heq => h.right.right (Range.ext heq.left heq.right).symm]

theorem rangecompare_within (h : a.Within b) : rangecompare a b = .Rcontained := by
  rw [rangecompare_overlap (fun h' => h'.not_within.left h) (fun h' => h'.not_within.right h), if_neg]
  exact fun h' => h.right.right (Range.ext (le_antisymm h'.left h.left) (le_antisymm h.right.left h'.right))

-- Balancing

theorem routes_calcd (t : Tree A G) : t.calcd.routes = t.routes := by
  cases t <;> rfl

theorem ordered_calcd (t : Tree A G) : t.calcd.Ordered ↔ t.Ordered := by
  cases t <;> rfl

theorem routes_balancetree (t : Tree A G) : (balancetree t).routes = t.routes := by
  cases t
  case nil            => rfl
  case node l m r d p =>
    rw [balancetree.eq_def]
    dsimp only
    split
    case isTrue h  =>
      cases l
      case nil  => exact absurd h (Nat.not_lt_zero _)
      case node =>
        simp only [routes_calcd, routes]
        simp only [List.append_assoc, List.cons_append]
    case isFalse   =>
      split
      case isTrue h =>
        cases r
        case nil  => exact absurd h (Nat.not_lt_zero _)
        case node =>
          simp only [routes_calcd, routes]
          simp only [List.append_assoc, List.cons_append]
      case isFalse  => exact routes_calcd _

theorem Tree.Ordered.balancetree (h : t.Ordered) : (balancetree t).Ordered := by
  cases t
  case nil            => exact h
  case node l m r d p =>
    rw [balancetree.eq_def]
    dsimp only
    split
    case isTrue hdepth =>
      cases l
      case nil                 => exact absurd hdepth (Nat.not_lt_zero _)
      case node ll lm lr ld lp =>
        obtain ⟨hl, hm, hr, ⟨hll, hlm, hlr, holl, holm, holr⟩, hom, hor⟩ := h
        have hlp : lp.range.Before p.range := hl lp (mem_node.mpr (.inr (.inl rfl)))
        rw [ordered_calcd]
        refine ⟨hll, hlm, fun x hx => ?_, holl, holm, (ordered_calcd _).mpr ⟨fun x hx => ?_, hm, hr, holr, hom, hor⟩⟩
        · rw [routes_calcd, mem_node] at hx
          rcases hx with hx | rfl | hx | hx
          · exact hlr x hx
          · exact hlp
          · exact hlp.to_within (hm x hx)
          · exact hlp.trans (hr x hx)
        · exact hl x (mem_node.mpr (.inr (.inr (.inr hx))))
    case isFalse hle   =>
      split
      case isTrue hdepth =>
        cases r
        case nil                 => exact absurd hdepth (Nat.not_lt_zero _)
        case node rl rm rr rd rp =>
          obtain ⟨hl, hm, hr, hol, hom, hrl, hrm, hrr, horl, horm, horr⟩ := h
          have hrp : p.range.Before rp.range := hr rp (mem_node.mpr (.inr (.inl rfl)))
          rw [ordered_calcd]
          refine ⟨fun x hx => ?_, hrm, hrr, (ordered_calcd _).mpr ⟨hl, hm, fun x hx => ?_, hol, hom, horl⟩, horm, horr⟩
          · rw [routes_calcd, mem_node] at hx
            rcases hx with hx | rfl | hx | hx
            · exact (hl x hx).trans hrp
            · exact hrp
            · exact hrp.of_within (hm x hx)
            · exact hrl x hx
          · exact hr x (mem_node.mpr (.inl hx))
      case isFalse       => exact (ordered_calcd _).mpr h

theorem mem_balancetree : x ∈ (balancetree t).routes ↔ x ∈ t.routes := by
  rw [routes_balancetree]

-- Places

-- A place in a tree. What fits there keeps the order, and does not have in it anything of what is elsewhere.
structure Slot (put : Tree A G → Tree A G) (fits : Range A → Prop) (others : Route A G → Prop) : Prop where
  put   : ∀ u : Tree A G, u.Ordered → (∀ x ∈ u.routes, fits x.range) →
    (put u).Ordered ∧ ∀ x, x ∈ (put u).routes ↔ others x ∨ x ∈ u.routes
  below : ∀ s y, fits s → others y → s.Below y.range

-- The tree that is in a place of another one.
structure Place (t u : Tree A G) (put : Tree A G → Tree A G) (fits : Range A → Prop) (others : Route A G → Prop) : Prop where
  slot    : Slot put fits others
  ordered : u.Ordered
  room    : ∀ x ∈ u.routes, fits x.range
  mem     : ∀ x, x ∈ t.routes ↔ others x ∨ x ∈ u.routes

variable {put put' : Tree A G → Tree A G} {fits fits' : Range A → Prop} {others others' : Route A G → Prop} {u : Tree A G}
  {d : UInt8}

theorem Place.left (ho : (node l m r d p).Ordered) : Place (node l m r d p) l (fun u => node u m r d p) (·.Before p.range)
    fun x => x = p ∨ x ∈ m.routes ∨ x ∈ r.routes := by
  obtain ⟨hl, hm, hr, hol, hom, hor⟩ := ho
  refine ⟨⟨fun u hu hfits => ⟨⟨hfits, hm, hr, hu, hom, hor⟩, fun x => mem_node.trans or_comm⟩, ?_⟩, hol, hl,
    fun x => mem_node.trans or_comm⟩
  rintro s y hs (rfl | hy | hy)
  · exact .inl hs
  · exact .inl (hs.to_within (hm y hy))
  · exact .inl (hs.trans (hr y hy))

theorem Place.mid (ho : (node l m r d p).Ordered) : Place (node l m r d p) m (fun u => node l u r d p) (·.Within p.range)
    fun x => x ∈ l.routes ∨ x = p ∨ x ∈ r.routes := by
  obtain ⟨hl, hm, hr, hol, hom, hor⟩ := ho
  have hmem (u : Tree A G) (x : Route A G) :
      x ∈ (node l u r d p).routes ↔ (x ∈ l.routes ∨ x = p ∨ x ∈ r.routes) ∨ x ∈ u.routes := by
    rw [mem_node]
    tauto
  refine ⟨⟨fun u hu hfits => ⟨⟨hl, hfits, hr, hol, hu, hor⟩, hmem u⟩, ?_⟩, hom, hm, hmem m⟩
  rintro s y hs (hy | rfl | hy)
  · exact .inr (.inl ((hl y hy).to_within hs))
  · exact .inr (.inr hs)
  · exact .inl ((hr y hy).of_within hs)

theorem Place.right (ho : (node l m r d p).Ordered) : Place (node l m r d p) r (fun u => node l m u d p) p.range.Before
    fun x => x ∈ l.routes ∨ x = p ∨ x ∈ m.routes := by
  obtain ⟨hl, hm, hr, hol, hom, hor⟩ := ho
  have hmem (u : Tree A G) (x : Route A G) :
      x ∈ (node l m u d p).routes ↔ (x ∈ l.routes ∨ x = p ∨ x ∈ m.routes) ∨ x ∈ u.routes := by
    rw [mem_node]
    tauto
  refine ⟨⟨fun u hu hfits => ⟨⟨hl, hm, hfits, hol, hom, hu⟩, hmem u⟩, ?_⟩, hor, hr, hmem r⟩
  rintro s y hs (hy | rfl | hy)
  · exact .inr (.inl ((hl y hy).trans hs))
  · exact .inr (.inl hs)
  · exact .inr (.inl (hs.of_within (hm y hy)))

theorem Place.self (ht : t.Ordered) : Place t t id (fun _ => True) fun _ => False :=
  ⟨⟨fun _ hu _ => ⟨hu, fun _ => by rw [false_or, id]⟩, fun _ _ _ hy => hy.elim⟩, ht, fun _ _ => trivial,
    fun _ => by rw [false_or]⟩

theorem Place.balancetree (h : Place t u put fits others) : Place t u (fun u => balancetree (put u)) fits others := by
  refine { h with slot := ⟨fun u hu hfits => ?_, h.slot.below⟩ }
  obtain ⟨hord, hmem⟩ := h.slot.put u hu hfits
  exact ⟨hord.balancetree, fun x => mem_balancetree.trans (hmem x)⟩

theorem Place.trans {v : Tree A G} (h : Place t u put fits others) (h' : Place u v put' fits' others') :
    Place t v (fun v => put (put' v)) (fun s => fits s ∧ fits' s) (fun x => others x ∨ others' x) := by
  refine ⟨⟨fun w hw hfits => ?_, ?_⟩, h'.ordered, fun x hx => ?_, fun x => ?_⟩
  · obtain ⟨hord', hmem'⟩ := h'.slot.put w hw fun x hx => (hfits x hx).right
    obtain ⟨hord, hmem⟩ := h.slot.put (put' w) hord' fun x hx => ((hmem' x).mp hx).elim
      (fun hx => h.room x ((h'.mem x).mpr (.inl hx))) fun hx => (hfits x hx).left
    exact ⟨hord, fun x => by rw [hmem, hmem', or_assoc]⟩
  · rintro s y ⟨hs, hs'⟩ (hy | hy)
    · exact h.slot.below s y hs hy
    · exact h'.slot.below s y hs' hy
  · exact ⟨h.room x ((h'.mem x).mpr (.inr hx)), h'.room x hx⟩
  · rw [h.mem, h'.mem, or_assoc]

theorem Place.ne (h : Place t u put fits others) (hrt : fits rt) (hne : ∀ y ∈ u.routes, y.range ≠ rt) :
    ∀ y ∈ t.routes, y.range ≠ rt := by
  intro y hy
  rcases (h.mem y).mp hy with hy | hy
  · exact (h.slot.below rt y hrt hy).ne.symm
  · exact hne y hy

theorem Place.add (h : Place t u put fits others) {u' : Tree A G} {P : Route A G → Prop} (hu' : u'.Ordered)
    (hmem : ∀ x, x ∈ u'.routes ↔ x ∈ u.routes ∨ P x) (hP : ∀ x, P x → fits x.range) :
    (put u').Ordered ∧ ∀ x, x ∈ (put u').routes ↔ x ∈ t.routes ∨ P x := by
  obtain ⟨hord, hput⟩ := h.slot.put u' hu' fun x hx => ((hmem x).mp hx).elim (h.room x) (hP x)
  exact ⟨hord, fun x => by rw [hput, hmem, h.mem, or_assoc]⟩

-- Adding nodes

theorem addnode_below (ht : t.Ordered) (hm : m.Ordered) (hin : ∀ x ∈ m.routes, x.range.Within n.range)
    (hbelow : ∀ y ∈ t.routes, n.range.Below y.range) : ∃ t', addnode n m t = (t', none) ∧ t'.Ordered ∧
      ∀ x, x ∈ t'.routes ↔ x ∈ t.routes ∨ (x = n ∨ x ∈ m.routes) := by
  induction t
  case nil                       =>
    refine ⟨node nil m nil 1 n, rfl, ⟨by simp [routes], hin, by simp [routes], trivial, hm, trivial⟩, fun x => ?_⟩
    rw [mem_node]
    simp [routes]
  case node tl tm tr d p ihl ihm ihr =>
    have hsub {s : Tree A G} (hs : ∀ y ∈ s.routes, y ∈ (node tl tm tr d p).routes) : ∀ y ∈ s.routes, n.range.Below y.range :=
      fun y hy => hbelow y (hs y hy)
    rw [addnode]
    rcases hbelow p (mem_node.mpr (.inr (.inl rfl))) with h | h | h
    · have hplace := Place.left ht
      obtain ⟨t', ht', hord, hmem⟩ := ihl hplace.ordered (hsub fun y hy => mem_node.mpr (.inl hy))
      rw [rangecompare_before h]
      dsimp only
      rw [ht']
      refine ⟨_, rfl, hplace.balancetree.add hord hmem ?_⟩
      rintro x (rfl | hx)
      · exact h
      · exact h.of_within (hin x hx)
    · have hplace := Place.right ht
      obtain ⟨t', ht', hord, hmem⟩ := ihr hplace.ordered (hsub fun y hy => mem_node.mpr (.inr (.inr (.inr hy))))
      rw [rangecompare_after h]
      dsimp only
      rw [ht']
      refine ⟨_, rfl, hplace.balancetree.add hord hmem ?_⟩
      rintro x (rfl | hx)
      · exact h
      · exact h.to_within (hin x hx)
    · have hplace := Place.mid ht
      obtain ⟨t', ht', hord, hmem⟩ := ihm hplace.ordered (hsub fun y hy => mem_node.mpr (.inr (.inr (.inl hy))))
      rw [rangecompare_within h]
      dsimp only
      rw [ht']
      refine ⟨_, rfl, hplace.balancetree.add hord hmem ?_⟩
      rintro x (rfl | hx)
      · exact h
      · exact (hin x hx).trans h

-- A tree none of whose nodes has something of the other tree in it.
def Apart (t p : Tree A G) : Prop :=
  ∀ s ∈ p.spine, ∀ y ∈ t.routes, s.range.Below y.range

theorem walkadd_apart (ht : t.Ordered) {p : Tree A G} (hp : p.Ordered) (hapart : Apart t p) (queue : List (Tree A G)) :
    ∃ t', walkadd p t queue = (t', queue) ∧ t'.Ordered ∧ ∀ x, x ∈ t'.routes ↔ x ∈ t.routes ∨ x ∈ p.routes := by
  induction p generalizing t
  case nil                    => exact ⟨t, rfl, ht, fun x => by simp [routes]⟩
  case node l m r d p ihl _ ihr =>
    obtain ⟨hl, hm, hr, hol, hom, hor⟩ := hp
    have hspine {s : Route A G} (hs : s ∈ l.spine ∨ s = p ∨ s ∈ r.spine) : ∀ y ∈ t.routes, s.range.Below y.range :=
      hapart s (by rw [spine, List.mem_append, List.mem_cons]; exact hs)
    obtain ⟨t1, h1, ho1, hmem1⟩ := addnode_below ht hom hm (hspine (.inr (.inl rfl)))
    obtain ⟨t2, h2, ho2, hmem2⟩ := ihl ho1 hol (by
      intro s hs y hy
      have hsp := hl s (mem_of_spine hs)
      rcases (hmem1 y).mp hy with hy | rfl | hy
      · exact hspine (.inl hs) y hy
      · exact .inl hsp
      · exact .inl (hsp.to_within (hm y hy)))
    obtain ⟨t3, h3, ho3, hmem3⟩ := ihr ho2 hor (by
      intro s hs y hy
      have hsp := hr s (mem_of_spine hs)
      rcases (hmem2 y).mp hy with hy | hy
      · rcases (hmem1 y).mp hy with hy | rfl | hy
        · exact hspine (.inr (.inr hs)) y hy
        · exact .inr (.inl hsp)
        · exact .inr (.inl (hsp.of_within (hm y hy)))
      · exact .inr (.inl ((hl y hy).trans hsp)))
    refine ⟨t3, ?_, ho3, fun x => ?_⟩
    · rw [walkadd, h1]
      dsimp only
      rw [Option.toList_none, List.nil_append, h2]
      exact h3
    · rw [hmem3, hmem2, hmem1, mem_node]
      tauto

theorem merge_apart {queue : List (Tree A G)} (ht : t.Ordered) (hqueue : ∀ p ∈ queue, p.Ordered ∧ Apart t p)
    (hpair : queue.Pairwise Apart) (hk : queue.length ≤ k) : ∃ t', merge k t queue = some t' ∧ t'.Ordered ∧
      ∀ x, x ∈ t'.routes ↔ x ∈ t.routes ∨ ∃ p ∈ queue, x ∈ p.routes := by
  induction queue generalizing t k
  case nil             => exact ⟨t, by rw [merge]; rfl, ht, fun x => by simp⟩
  case cons p queue ih =>
    obtain ⟨k, rfl⟩ := Nat.exists_eq_succ_of_ne_zero (Nat.ne_of_gt (Nat.lt_of_lt_of_le (Nat.succ_pos _) hk))
    obtain ⟨hp, hapart⟩ := hqueue p List.mem_cons_self
    obtain ⟨t1, h1, ho1, hmem1⟩ := walkadd_apart ht hp hapart queue
    rw [List.pairwise_cons] at hpair
    obtain ⟨t2, h2, ho2, hmem2⟩ := @ih t1 k ho1 (by
      intro p' hp'
      obtain ⟨hord, hapart'⟩ := hqueue p' (List.mem_cons_of_mem p hp')
      refine ⟨hord, fun s hs y hy => ?_⟩
      rcases (hmem1 y).mp hy with hy | hy
      · exact hapart' s hs y hy
      · exact hpair.left p' hp' s hs y hy) hpair.right (Nat.le_of_succ_le_succ hk)
    refine ⟨t2, by rw [merge, h1]; exact h2, ho2, fun x => ?_⟩
    rw [hmem2, hmem1]
    simp only [List.exists_mem_cons_iff, or_assoc]

-- What there is when `n` is added to what is there.
def Added (n : Route A G) (there : Route A G → Prop) (x : Route A G) : Prop :=
  (there x ∧ x.range ≠ n.range) ∨ (x = n ∧ ∀ y, there y → y.range ≠ n.range) ∨
    ∃ y, there y ∧ y.range = n.range ∧ x = supercede y n

theorem supercede_range (p n : Route A G) : (supercede p n).range = p.range := by
  rw [supercede]
  split_ifs <;> rfl

theorem Added.range {there : Route A G → Prop} (h : Added n there x) : there x ∨ x.range = n.range := by
  rcases h with h | h | ⟨y, -, hy, rfl⟩
  · exact .inl h.left
  · exact .inr (by rw [h.left])
  · exact .inr (by rw [supercede_range, hy])

-- What is elsewhere stays.
theorem added_or {there rest : Route A G → Prop} (h : ∀ y, rest y → y.range ≠ n.range) :
    Added n (fun y => there y ∨ rest y) x ↔ Added n there x ∨ rest x := by
  constructor
  case mp  =>
    rintro (⟨hx | hx, hne⟩ | ⟨rfl, hne⟩ | ⟨y, hy | hy, heq, rfl⟩)
    · exact .inl (.inl ⟨hx, hne⟩)
    · exact .inr hx
    · exact .inl (.inr (.inl ⟨rfl, fun y hy => hne y (.inl hy)⟩))
    · exact .inl (.inr (.inr ⟨y, hy, heq, rfl⟩))
    · exact absurd heq (h y hy)
  case mpr =>
    rintro ((⟨hx, hne⟩ | ⟨rfl, hne⟩ | ⟨y, hy, heq, rfl⟩) | hx)
    · exact .inl ⟨.inl hx, hne⟩
    · exact .inr (.inl ⟨rfl, fun y hy => hy.elim (hne y) (h y)⟩)
    · exact .inr (.inr ⟨y, .inl hy, heq, rfl⟩)
    · exact .inl ⟨.inr hx, h x hx⟩

theorem added_congr {there there' : Route A G → Prop} (h : ∀ y, there y ↔ there' y) : Added n there x ↔ Added n there' x := by
  rw [show there = there' from funext fun y => propext (h y)]

-- What `addnode` leaves, with what it puts into the queue.
structure Placed (n : Route A G) (t : Tree A G) (s : Tree A G × Option (Tree A G)) : Prop where
  ordered : s.fst.Ordered
  queue   : ∀ q ∈ s.snd, q.Ordered ∧ Apart s.fst q
  mem     : ∀ x, (x ∈ s.fst.routes ∨ ∃ q ∈ s.snd, x ∈ q.routes) ↔ Added n (· ∈ t.routes) x

theorem Placed.place {s : Tree A G × Option (Tree A G)} (h : Placed n u s) (hu : Place t u put fits others)
    (hn : fits n.range) : Placed n t (put s.fst, s.snd) := by
  have hfits (x : Route A G) (hx : x ∈ s.fst.routes ∨ ∃ q ∈ s.snd, x ∈ q.routes) : fits x.range := by
    rcases ((h.mem x).mp hx).range with hx | hx
    · exact hu.room x hx
    · rw [hx]
      exact hn
  obtain ⟨hord, hmem⟩ := hu.slot.put s.fst h.ordered fun x hx => hfits x (.inl hx)
  refine ⟨hord, fun q hq => ⟨(h.queue q hq).left, fun x hx y hy => ?_⟩, fun x => ?_⟩
  · rcases (hmem y).mp hy with hy | hy
    · exact hu.slot.below x.range y (hfits x (.inr ⟨q, hq, mem_of_spine hx⟩)) hy
    · exact (h.queue q hq).right x hx y hy
  · have hrest (y : Route A G) (hy : others y) : y.range ≠ n.range := (hu.slot.below n.range y hn hy).ne.symm
    have hsplit (y : Route A G) : y ∈ t.routes ↔ y ∈ u.routes ∨ others y := (hu.mem y).trans or_comm
    rw [hmem, added_congr hsplit, added_or hrest, ← h.mem, or_assoc, or_comm]

-- The node that has the range already.
theorem Placed.equal (ho : (node l m r d p).Ordered) (hn : n.range = p.range) :
    Placed n (node l m r d p) (balancetree (node l m r d (supercede p n)), none) := by
  obtain ⟨hl, hm, hr, hol, hom, hor⟩ := ho
  have hkey := supercede_range p n
  have hord : (node l m r d (supercede p n)).Ordered := ⟨by rwa [hkey], by rwa [hkey], by rwa [hkey], hol, hom, hor⟩
  refine ⟨hord.balancetree, by simp, fun x => ?_⟩
  have hrest (y : Route A G) (hy : y ∈ l.routes ∨ y ∈ m.routes ∨ y ∈ r.routes) : y.range ≠ n.range := by
    rw [hn]
    rcases hy with hy | hy | hy
    · exact (hl y hy).ne
    · exact (hm y hy).right.right
    · exact (hr y hy).ne.symm
  have hsplit (y : Route A G) : y ∈ (node l m r d p).routes ↔ y = p ∨ (y ∈ l.routes ∨ y ∈ m.routes ∨ y ∈ r.routes) := by
    rw [mem_node]
    tauto
  have hone : Added n (· = p) x ↔ x = supercede p n := by
    constructor
    · rintro (⟨rfl, hne⟩ | ⟨-, hne⟩ | ⟨y, rfl, -, hx⟩)
      · exact absurd hn.symm hne
      · exact absurd hn.symm (hne p rfl)
      · exact hx
    · exact fun hx => .inr (.inr ⟨p, rfl, hn.symm, hx⟩)
  rw [mem_balancetree, mem_node, added_congr hsplit, added_or hrest, hone]
  simp only [Option.not_mem_none, false_and, exists_false, or_false]
  exact or_left_comm

theorem ne_of_within (ho : (node l m r d p).Ordered) (h : p.range.Within rt) :
    ∀ y ∈ (node l m r d p).routes, y.range ≠ rt := by
  obtain ⟨hl, hm, hr, -⟩ := ho
  rintro y hy rfl
  rcases mem_node.mp hy with hy | rfl | hy | hy
  · exact (hl y hy).not_within.right h
  · exact h.right.right rfl
  · exact (hm y hy).asymm h
  · exact (hr y hy).not_within.left h

-- The tree that is in the range goes to the queue. None of its nodes has the new one in it.
theorem Placed.contains (ho : (node l m r d p).Ordered) (hn : p.range.Within n.range)
    (hall : ∀ y ∈ (node l m r d p).routes, n.range.Nested y.range) :
    Placed n (node l m r d p) (balancetree (node nil nil nil 1 n), some (node l m r d p)) := by
  have hother := ne_of_within ho hn
  obtain ⟨hl, hm, hr, hol, hom, hor⟩ := ho
  have hsingle (x : Route A G) : x ∈ (balancetree (node nil nil nil 1 n)).routes ↔ x = n := by
    simp [mem_balancetree, routes]
  have hord : (node nil nil nil 1 n).Ordered :=
    ⟨by simp [routes], by simp [routes], by simp [routes], trivial, trivial, trivial⟩
  refine ⟨hord.balancetree, fun q hq => ?_, fun x => ?_⟩
  · obtain rfl := Option.mem_some_iff.mp hq
    refine ⟨⟨hl, hm, hr, hol, hom, hor⟩, fun x hx y hy => ?_⟩
    obtain rfl := (hsingle y).mp hy
    have hmem := mem_of_spine hx
    rcases (hall x hmem).symm with hxn | hxn | hxn | hxn | hxn
    · exact .inl hxn
    · exact .inr (.inl hxn)
    · exact absurd hxn (hother x hmem)
    · exact .inr (.inr hxn)
    · have hpx := hn.trans hxn
      rw [spine, List.mem_append, List.mem_cons] at hx
      rcases hx with hx | rfl | hx
      · exact absurd hpx (hl x (mem_of_spine hx)).not_within.right
      · exact absurd rfl hpx.right.right
      · exact absurd hpx (hr x (mem_of_spine hx)).not_within.left
  · rw [hsingle]
    simp only [Option.mem_some_iff, exists_eq_left']
    constructor
    · rintro (rfl | hx)
      · exact .inr (.inl ⟨rfl, hother⟩)
      · exact .inl ⟨hx, hother x hx⟩
    · rintro (⟨hx, -⟩ | ⟨rfl, -⟩ | ⟨y, hy, heq, -⟩)
      · exact .inr hx
      · exact .inl rfl
      · exact absurd heq (hother y hy)

theorem addnode_placed (ht : t.Ordered) (hn : ∀ y ∈ t.routes, n.range.Nested y.range) : Placed n t (addnode n nil t) := by
  induction t
  case nil                      =>
    refine ⟨⟨by simp [routes], by simp [routes], by simp [routes], trivial, trivial, trivial⟩, by simp [addnode], ?_⟩
    simp [addnode, routes, Added]
  case node l m r d p ihl ihm ihr =>
    have hall (y : Route A G) (hy : y ∈ l.routes ∨ y = p ∨ y ∈ m.routes ∨ y ∈ r.routes) := hn y (mem_node.mpr hy)
    have hord := ht
    obtain ⟨-, -, -, hol, hom, hor⟩ := hord
    rw [addnode]
    rcases hall p (.inr (.inl rfl)) with h | h | h | h | h
    · rw [rangecompare_before h]
      exact (ihl hol fun y hy => hall y (.inl hy)).place (Place.left ht).balancetree h
    · rw [rangecompare_after h]
      exact (ihr hor fun y hy => hall y (.inr (.inr (.inr hy)))).place (Place.right ht).balancetree h
    · rw [h, rangecompare_self]
      exact .equal ht h
    · rw [rangecompare_within h]
      exact (ihm hom fun y hy => hall y (.inr (.inr (.inl hy)))).place (Place.mid ht).balancetree h
    · rw [rangecompare_contains h]
      exact .contains ht h hn

theorem addroute_spec (ht : t.Ordered) (hn : ∀ y ∈ t.routes, n.range.Nested y.range) (hk : 1 ≤ k) :
    ∃ t', addroute k n t = some t' ∧ t'.Ordered ∧ ∀ x, x ∈ t'.routes ↔ Added n (· ∈ t.routes) x := by
  have hplaced := addnode_placed ht hn
  rw [addroute]
  generalize addnode n nil t = s at hplaced
  obtain ⟨root, q⟩ := s
  obtain ⟨hord, hqueue, hmem⟩ := hplaced
  obtain ⟨t', ht', hord', hmem'⟩ := @merge_apart _ _ _ root k q.toList hord (fun p hp => hqueue p (Option.mem_toList.mp hp))
    (by cases q <;> simp) (by cases q <;> simp; exact hk)
  refine ⟨t', ht', hord', fun x => ?_⟩
  rw [hmem', ← hmem]
  simp only [Option.mem_toList, Option.mem_def]

end

end Ip.Iproute
