import Nix.Lib.Sorted
import Nix.Libavl.Avl

namespace Libavl.Avl

variable {A : Type*} {p q : Option A} {a c : A} {b : Int} {l r t u : Avl A}

-- The nodes in order.
def toList : Avl A → List A
  | nil            => []
  | node a _ _ l r => l.toList ++ a :: r.toList

def height : Avl A → Int
  | nil            => 0
  | node _ _ _ l r => max l.height r.height + 1

-- The parents of a tree below the parent `p` are right, and so are the differences of the heights.
def Measured : Option A → Avl A → Prop
  | _, nil            => True
  | p, node a q b l r => q = p ∧ b = r.height - l.height ∧ Measured (some a) l ∧ Measured (some a) r

def Small : Avl A → Prop
  | nil            => True
  | node _ _ b l r => -1 ≤ b ∧ b ≤ 1 ∧ Small l ∧ Small r

@[simp]
theorem bal_node : (node a q b l r).bal = b := rfl

@[simp]
theorem toList_setp : (t.setp p).toList = t.toList := by
  cases t <;> rfl

@[simp]
theorem height_setp : (t.setp p).height = t.height := by
  cases t <;> rfl

@[simp]
theorem bal_setp : (t.setp p).bal = t.bal := by
  cases t <;> rfl

theorem height_nonneg : 0 ≤ t.height := by
  induction t
  case nil => exact le_rfl
  case node _ _ _ _ _ hl hr => rw [height]; omega

theorem Measured.setp (h : Measured p t) : Measured q (t.setp q) := by
  cases t
  case nil => trivial
  case node => exact ⟨rfl, h.right⟩

theorem Small.setp (h : Small t) : Small (t.setp q) := by
  cases t
  case nil => trivial
  case node => exact h

theorem Measured.singleleft {c : A} {qc : Option A} {bc : Int} {cl cr : Avl A}
    (h : Measured q (node a q b l (node c qc bc cl cr))) :
    ∃ u, singleleft p (node a q b l (node c qc bc cl cr)) = some u ∧ Measured p u ∧
      u = node c p (cr.height - (max l.height cl.height + 1))
        (node a (some c) (cl.height - l.height) l (cl.setp (some a))) cr := by
  obtain ⟨-, hb, hl, rfl, hbc, hcl, hcr⟩ := h
  simp only [height] at hb
  have hl' : max bc 0 + 1 - b = l.height - cl.height := by omega
  have hc : bc - (max (l.height - cl.height) 0 + 1) = cr.height - (max l.height cl.height + 1) := by omega
  refine ⟨_, rfl, ⟨rfl, ?_, ⟨rfl, ?_, hl, hcl.setp⟩, hcr⟩, ?_⟩
  · simp only [height, height_setp, hl', hc]
  · simp only [height_setp, hl']; omega
  · rw [hl', hc, Int.neg_sub]

theorem Measured.singleright {c : A} {qc : Option A} {bc : Int} {cl cr : Avl A}
    (h : Measured q (node a q b (node c qc bc cl cr) r)) :
    ∃ u, singleright p (node a q b (node c qc bc cl cr) r) = some u ∧ Measured p u ∧
      u = node c p (max cr.height r.height + 1 - cl.height) cl
        (node a (some c) (r.height - cr.height) (cr.setp (some a)) r) := by
  obtain ⟨-, hb, ⟨rfl, hbc, hcl, hcr⟩, hr⟩ := h
  simp only [height] at hb
  have hr' : b + (max (-bc) 0 + 1) = r.height - cr.height := by omega
  have hc : max (r.height - cr.height) 0 + 1 - -bc = max cr.height r.height + 1 - cl.height := by omega
  refine ⟨_, rfl, ⟨rfl, ?_, hcl, ⟨rfl, ?_, hcr.setp, hr⟩⟩, ?_⟩
  · simp only [height, height_setp, hr', hc]
  · simp only [height_setp, hr']
  · rw [hr', hc]

theorem doubleleftright_eq (h : singleleft (some a) l = some u) :
    doubleleftright p (node a q b l r) = singleright p (node a q b u r) := by
  rw [doubleleftright, h]
  rfl

theorem doublerightleft_eq (h : singleright (some a) r = some u) :
    doublerightleft p (node a q b l r) = singleleft p (node a q b l u) := by
  rw [doublerightleft, h]
  rfl

-- What the rotations make of a tree whose higher subtree has the height `x`: it has become lower by one, or it has not and
-- leans to a side.
def Rotated (x : Int) (u : Avl A) : Prop :=
  u.height = x + 1 ∧ u.bal ≠ 0 ∨ u.height = x ∧ u.bal = 0

theorem balance_left (h : Measured q (node a q b l r)) (hl : l.Small) (hr : r.Small) (hb : b = -2) :
    ∃ u, balance p (node a q b l r) = some u ∧ Measured p u ∧ u.Small ∧ u.toList = l.toList ++ a :: r.toList ∧
      Rotated l.height u ∧ (l.bal ≠ 0 → u.bal = 0) := by
  have hrn := r.height_nonneg
  cases l
  case nil =>
    obtain ⟨-, h, -⟩ := h
    simp only [height] at h
    omega
  case node c qc bc cl cr =>
    obtain ⟨hlo, hhi, hcl, hcr⟩ := hl
    have hm := h
    obtain ⟨-, hh, ⟨hqc, hbc, hmcl, hmcr⟩, hmr⟩ := h
    simp only [height] at hh
    rw [balance, if_pos hb]
    by_cases hle : bc ≤ 0
    case pos =>
      obtain ⟨u, hu, hmu, rfl⟩ := hm.singleright (p := p)
      rw [bal_node, if_pos hle]
      refine ⟨_, hu, hmu, ⟨by omega, by omega, hcl, by omega, by omega, hcr.setp, hr⟩, by simp [toList], ?_, ?_⟩
      · simp only [Rotated, height, height_setp, bal_node]; omega
      · simp only [bal_node]; omega
    case neg =>
      rw [bal_node, if_neg hle, if_pos (by omega)]
      cases cr
      case nil =>
        have := cl.height_nonneg
        simp only [height] at hbc
        omega
      case node d qd bd dl dr =>
        obtain ⟨hdlo, hdhi, hdl, hdr⟩ := hcr
        obtain ⟨rfl, hbd, hmdl, hmdr⟩ := hmcr
        simp only [height] at hbc hh
        have hml : Measured qc (node c qc bc cl (node d (some c) bd dl dr)) :=
          ⟨rfl, by simp only [height]; omega, hmcl, rfl, hbd, hmdl, hmdr⟩
        obtain ⟨v, hv, hmv, rfl⟩ := hml.singleleft (p := some a)
        have hmw : Measured q (node a q b _ r) := ⟨rfl, by simp only [height, height_setp]; omega, hmv, hmr⟩
        obtain ⟨u, hu, hmu, rfl⟩ := hmw.singleright (p := p)
        refine ⟨_, (doubleleftright_eq hv).trans hu, hmu,
          ⟨?_, ?_, ⟨?_, ?_, hcl, hdl.setp⟩, ?_, ?_, hdr.setp, hr⟩, by simp [toList], ?_, ?_⟩
        all_goals simp -failIfUnchanged only [Rotated, height, height_setp, bal_node]
        all_goals omega

theorem balance_right (h : Measured q (node a q b l r)) (hl : l.Small) (hr : r.Small) (hb : b = 2) :
    ∃ u, balance p (node a q b l r) = some u ∧ Measured p u ∧ u.Small ∧ u.toList = l.toList ++ a :: r.toList ∧
      Rotated r.height u ∧ (r.bal ≠ 0 → u.bal = 0) := by
  have hln := l.height_nonneg
  cases r
  case nil =>
    obtain ⟨-, h, -⟩ := h
    simp only [height] at h
    omega
  case node c qc bc cl cr =>
    obtain ⟨hlo, hhi, hcl, hcr⟩ := hr
    have hm := h
    obtain ⟨-, hh, hml, hqc, hbc, hmcl, hmcr⟩ := h
    simp only [height] at hh
    rw [balance, if_neg (by omega), if_pos hb]
    by_cases hle : 0 ≤ bc
    case pos =>
      obtain ⟨u, hu, hmu, rfl⟩ := hm.singleleft (p := p)
      rw [bal_node, if_pos hle]
      refine ⟨_, hu, hmu, ⟨by omega, by omega, ⟨by omega, by omega, hl, hcl.setp⟩, hcr⟩, by simp [toList], ?_, ?_⟩
      · simp only [Rotated, height, height_setp, bal_node]; omega
      · simp only [bal_node]; omega
    case neg =>
      rw [bal_node, if_neg hle, if_pos (by omega)]
      cases cl
      case nil =>
        have := cr.height_nonneg
        simp only [height] at hbc
        omega
      case node d qd bd dl dr =>
        obtain ⟨hdlo, hdhi, hdl, hdr⟩ := hcl
        obtain ⟨rfl, hbd, hmdl, hmdr⟩ := hmcl
        simp only [height] at hbc hh
        have hmr : Measured qc (node c qc bc (node d (some c) bd dl dr) cr) :=
          ⟨rfl, by simp only [height]; omega, ⟨rfl, hbd, hmdl, hmdr⟩, hmcr⟩
        obtain ⟨v, hv, hmv, rfl⟩ := hmr.singleright (p := some a)
        have hmw : Measured q (node a q b l _) := ⟨rfl, by simp only [height, height_setp]; omega, hml, hmv⟩
        obtain ⟨u, hu, hmu, rfl⟩ := hmw.singleleft (p := p)
        refine ⟨_, (doublerightleft_eq hv).trans hu, hmu,
          ⟨?_, ?_, ⟨?_, ?_, hl, hdl.setp⟩, ?_, ?_, hdr.setp, hcr⟩, by simp [toList], ?_, ?_⟩
        all_goals simp -failIfUnchanged only [Rotated, height, height_setp, bal_node]
        all_goals omega

-- A tree below the parent `p` that is in balance.
structure Balanced (p : Option A) (t : Avl A) : Prop where
  measured : Measured p t
  small    : t.Small

theorem Balanced.nil : Balanced p (nil : Avl A) :=
  ⟨trivial, trivial⟩

theorem Balanced.setp (h : Balanced p t) : Balanced q (t.setp q) :=
  ⟨h.measured.setp, h.small.setp⟩

theorem balanced_node : Balanced p (node a q b l r) ↔
    q = p ∧ b = r.height - l.height ∧ -1 ≤ b ∧ b ≤ 1 ∧ Balanced (some a) l ∧ Balanced (some a) r := by
  constructor
  · rintro ⟨⟨hq, hb, hl, hr⟩, hlo, hhi, hls, hrs⟩
    exact ⟨hq, hb, hlo, hhi, ⟨hl, hls⟩, hr, hrs⟩
  · rintro ⟨hq, hb, hlo, hhi, hl, hr⟩
    exact ⟨⟨hq, hb, hl.measured, hr.measured⟩, hlo, hhi, hl.small, hr.small⟩

-- Heights after a subtree of height `x`, beside one of height `y`, has become one of height `z`.
def Heights (z y v vb : Int) (zb : Int) : Prop :=
  y ≤ z + 1 ∧ z ≤ y + 1 ∧ v = max z y + 1 ∧ (vb = 0 ↔ z = y) ∨
    z = y + 2 ∧ (v = z + 1 ∧ vb ≠ 0 ∨ v = z ∧ vb = 0) ∧ (zb ≠ 0 → vb = 0) ∨
    y = z + 2 ∧ (v = y + 1 ∧ vb ≠ 0 ∨ v = y ∧ vb = 0)

theorem Heights.insert {x y z s v vb zb : Int} (h : Heights z y v vb zb) (hs : s = 0 ↔ x = y) (hlo : -1 ≤ y - x) (hhi : y - x ≤ 1)
    (hy : 0 ≤ y) (hz : z = x ∨ z = x + 1 ∧ (zb = 0 → z = 1)) : v = max x y + 1 + if s = 0 ∧ vb ≠ 0 then 1 else 0 := by
  rcases hz with rfl | ⟨rfl, hzb⟩
  · obtain ⟨-, -, hv, hvb⟩ := h.resolve_right (by omega)
    rw [if_neg fun h => h.right (hvb.mpr (hs.mp h.left))]
    omega
  · rcases h with ⟨hlo', hhi', hv, hvb⟩ | ⟨h2, hv, hvb⟩ | ⟨h2, -⟩
    · by_cases hxy : x = y
      · rw [if_pos ⟨hs.mpr hxy, by omega⟩]
        omega
      · rw [if_neg fun h => hxy (hs.mp h.left)]
        omega
    · have hvb := hvb fun h => by have := hzb h; omega
      rw [if_neg fun h => h.right hvb]
      omega
    · omega

theorem Heights.delete {x y z s v vb zb : Int} (h : Heights z y v vb zb) (hs : s = 0 ↔ x = y) (hlo : -1 ≤ y - x) (hhi : y - x ≤ 1)
    (hz : z = x ∨ z = x - 1) : v = max x y + 1 + if s ≠ 0 ∧ vb = 0 then -1 else 0 := by
  rcases h with ⟨hlo', hhi', hv, hvb⟩ | ⟨h2, -⟩ | ⟨h2, hv⟩
  · by_cases hxy : x = y
    · rw [if_neg fun h => h.left (hs.mpr hxy)]
      omega
    · by_cases hzy : z = y
      · rw [if_pos ⟨fun h => hxy (hs.mp h), hvb.mpr hzy⟩]
        omega
      · rw [if_neg fun h => hzy (hvb.mp h.right)]
        omega
  · omega
  · have hsne : s ≠ 0 := fun h => by omega
    rcases hv with ⟨hv, hvb⟩ | ⟨hv, hvb⟩
    · rw [if_neg fun h => hvb h.right]
      omega
    · rw [if_pos ⟨hsne, hvb⟩]
      omega

-- A tree is put in balance whose subtrees are in balance and differ by two at most.
theorem balance_spec (hb : b = r.height - l.height) (hlo : -2 ≤ b) (hhi : b ≤ 2) (hl : Balanced (some a) l)
    (hr : Balanced (some a) r) :
    ∃ u, balance p (node a p b l r) = some u ∧ Balanced p u ∧ u.toList = l.toList ++ a :: r.toList ∧
      Heights l.height r.height u.height u.bal l.bal ∧ Heights r.height l.height u.height u.bal r.bal := by
  have hm : Measured p (node a p b l r) := ⟨rfl, hb, hl.measured, hr.measured⟩
  by_cases h2 : b = -2
  case pos =>
    obtain ⟨u, hu, hmu, hs, hlist, hrot, hbal⟩ := balance_left (p := p) hm hl.small hr.small h2
    have htall : l.height = r.height + 2 := by omega
    exact ⟨u, hu, ⟨hmu, hs⟩, hlist, .inr <| .inl ⟨htall, hrot, hbal⟩,
      .inr <| .inr ⟨htall, hrot⟩⟩
  case neg =>
    by_cases h2' : b = 2
    case pos =>
      obtain ⟨u, hu, hmu, hs, hlist, hrot, hbal⟩ := balance_right (p := p) hm hl.small hr.small h2'
      have htall : r.height = l.height + 2 := by omega
      exact ⟨u, hu, ⟨hmu, hs⟩, hlist, .inr <| .inr ⟨htall, hrot⟩,
        .inr <| .inl ⟨htall, hrot, hbal⟩⟩
    case neg =>
      have heq : b = 0 ↔ l.height = r.height := by omega
      refine ⟨_, ?_, ⟨hm, by omega, by omega, hl.small, hr.small⟩, rfl, .inl ⟨by omega, by omega, rfl, heq⟩,
        .inl ⟨by omega, by omega, ?_, heq.trans eq_comm⟩⟩
      · rw [balance, if_neg h2, if_neg h2']
      · rw [height, max_comm]

section
variable {cmp : A → A → Int} {r : A}

open Comparison

theorem cut_left {left right : Avl A} (h : Comparison cmp) (hs : Sorted cmp (left.toList ++ a :: right.toList))
    (hlt : cmp r a < 0) : ∀ x ∈ a :: right.toList, cmp r x < 0 := by
  have hright := (List.pairwise_cons.mp (List.pairwise_append.mp hs).right.left).left
  exact List.forall_mem_cons.mpr ⟨hlt, fun x hx => h.lt_trans hlt (hright x hx)⟩

theorem cut_right {left right : Avl A} (h : Comparison cmp) (hs : Sorted cmp (left.toList ++ a :: right.toList))
    (hlt : 0 < cmp r a) : ∀ x ∈ left.toList ++ [a], 0 < cmp r x := by
  have hleft := (List.pairwise_append.mp hs).right.right
  refine List.forall_mem_append.mpr ⟨fun x hx => ?_, by simpa using hlt⟩
  exact h.swap.mp <| h.lt_trans (hleft x hx a List.mem_cons_self) (h.swap.mpr hlt)

theorem cut_root {left right : Avl A} (h : Comparison cmp) (hs : Sorted cmp (left.toList ++ a :: right.toList))
    (heq : cmp r a = 0) : Cut cmp r (left.toList ++ a :: right.toList) left.toList (some a) right.toList where
  eq   := rfl
  gt x hx := by
    have hlt := (List.pairwise_append.mp hs).right.right x hx a List.mem_cons_self
    exact h.swap.mp <| h.lt_of_lt_of_le hlt (h.le_swap.mpr heq.ge)
  same x hx := Option.some.inj hx ▸ heq
  lt x hx := by
    have hlt := (List.pairwise_cons.mp (List.pairwise_append.mp hs).right.left).left x hx
    exact h.lt_of_le_of_lt heq.le hlt

theorem insertavl_spec {t : Avl A} (h : Comparison cmp) (ht : Balanced p t) (hs : Sorted cmp t.toList) :
    ∃ u grown old left right, t.insertavl cmp r p = some (u, grown, old) ∧ Balanced p u ∧
      u.toList = left ++ r :: right ∧ Cut cmp r t.toList left old right ∧
      (grown = 0 ∨ grown = 1) ∧ u.height = t.height + grown ∧ (grown = 1 → u.bal = 0 → u.height = 1) := by
  induction t generalizing p
  case nil =>
    refine ⟨_, _, _, [], [], rfl, ?_, rfl, .nil, .inr rfl, by simp [height], fun _ _ => by simp [height]⟩
    exact balanced_node.mpr ⟨rfl, by simp [height], by decide, by decide, .nil, .nil⟩
  case node a q ob left right ihl ihr =>
    obtain ⟨rfl, hb, hlo, hhi, hl, hr⟩ := balanced_node.mp ht
    have hsl : Sorted cmp left.toList := (List.pairwise_append.mp hs).left
    have hsr : Sorted cmp right.toList := (List.pairwise_cons.mp (List.pairwise_append.mp hs).right.left).right
    rcases Int.lt_trichotomy (cmp r a) 0 with hlt | heq | hgt
    · obtain ⟨u, grown, old, x, y, hu, hbu, hul, hc, hg, hh, hg1⟩ := ihl hl hsl
      obtain ⟨v, hv, hbv, hvl, hrot⟩ := balance_spec (p := q) (a := a) (b := ob - grown) (l := u) (r := right)
        (by omega) (by omega) (by omega) hbu hr
      have hrn := right.height_nonneg
      refine ⟨v, if ob = 0 ∧ v.bal ≠ 0 then 1 else 0, old, x, y ++ a :: right.toList, ?_, hbv, ?_,
        hc.append_right (cut_left h hs hlt), ?_, ?_, ?_⟩
      · rw [insertavl, if_pos hlt, hu]
        simp only [Option.bind_eq_bind, Option.bind_some, hv]
        rfl
      · rw [hvl, hul, List.append_assoc, List.cons_append]
      · split <;> simp
      · rw [height]
        exact hrot.left.insert (by omega) (by omega) (by omega) hrn (hg.imp (fun h => by omega) fun h => ⟨by omega, hg1 h⟩)
      · intro h hzero
        rw [if_neg fun h => h.right hzero] at h
        contradiction
    · refine ⟨node r q ob (left.setp (some r)) (right.setp (some r)), 0, some a, left.toList, right.toList, ?_, ?_, ?_,
        cut_root h hs heq, .inl rfl, ?_, nofun⟩
      · rw [insertavl, if_neg (by omega), if_neg (by omega)]
        rfl
      · exact balanced_node.mpr ⟨rfl, by simpa using hb, hlo, hhi, hl.setp, hr.setp⟩
      · simp [toList]
      · simp [height]
    · obtain ⟨u, grown, old, x, y, hu, hbu, hul, hc, hg, hh, hg1⟩ := ihr hr hsr
      obtain ⟨v, hv, hbv, hvl, hrot⟩ := balance_spec (p := q) (a := a) (b := ob + grown) (l := left) (r := u)
        (by omega) (by omega) (by omega) hl hbu
      have hln := left.height_nonneg
      have hcut := hc.append_left (cut_right h hs hgt)
      rw [List.append_assoc, List.singleton_append] at hcut
      refine ⟨v, if ob = 0 ∧ v.bal ≠ 0 then 1 else 0, old, left.toList ++ [a] ++ x, y, ?_, hbv, ?_, hcut, ?_, ?_, ?_⟩
      · rw [insertavl, if_neg (by omega), if_pos hgt, hu]
        simp only [Option.bind_eq_bind, Option.bind_some, hv]
        rfl
      · rw [hvl, hul, List.append_assoc, List.append_assoc, List.singleton_append]
      · split <;> simp
      · rw [height, max_comm]
        exact hrot.right.insert (by omega) (by omega) (by omega) hln (hg.imp (fun h => by omega) fun h => ⟨by omega, hg1 h⟩)
      · intro h hzero
        rw [if_neg fun h => h.right hzero] at h
        contradiction

theorem successor_spec {t : Avl A} (ht : Balanced p t) (hn : t ≠ nil) :
    ∃ u grown x, t.successor p = some (u, grown, x) ∧ Balanced p u ∧ t.toList = x :: u.toList ∧
      (grown = 0 ∨ grown = -1) ∧ u.height = t.height + grown := by
  induction t generalizing p
  case nil => contradiction
  case node a q ob left right ihl _ =>
    obtain ⟨rfl, hb, hlo, hhi, hl, hr⟩ := balanced_node.mp ht
    have hrn := right.height_nonneg
    cases left
    case nil =>
      refine ⟨right.setp q, -1, a, rfl, hr.setp, by simp [toList], .inr rfl, ?_⟩
      simp only [height, height_setp]
      omega
    case node c qc bc cl cr =>
      obtain ⟨u, grown, x, hu, hbu, hul, hg, hh⟩ := ihl hl (by simp)
      obtain ⟨v, hv, hbv, hvl, hrot⟩ := balance_spec (p := q) (a := a) (b := ob - grown) (l := u) (r := right)
        (by omega) (by omega) (by omega) hbu hr
      refine ⟨v, if ob ≠ 0 ∧ v.bal = 0 then -1 else 0, x, ?_, hbv, ?_, ?_, ?_⟩
      · simp only [successor, hu, Option.bind_eq_bind, Option.bind_some, hv]
        rfl
      · rw [hvl, toList, hul, List.cons_append]
      · split <;> simp
      · rw [height]
        exact hrot.left.delete (by omega) (by omega) (by omega) (hg.imp (fun h => by omega) fun h => by omega)

theorem deleteavl_spec {t : Avl A} (h : Comparison cmp) (ht : Balanced p t) (hs : Sorted cmp t.toList) :
    ∃ u grown old left right, t.deleteavl cmp r p = some (u, grown, old) ∧ Balanced p u ∧
      u.toList = left ++ right ∧ Cut cmp r t.toList left old right ∧
      (grown = 0 ∨ grown = -1) ∧ u.height = t.height + grown := by
  induction t generalizing p
  case nil => exact ⟨nil, 0, none, [], [], rfl, .nil, rfl, .nil, .inl rfl, rfl⟩
  case node a q ob left right ihl ihr =>
    obtain ⟨rfl, hb, hlo, hhi, hl, hr⟩ := balanced_node.mp ht
    have hsl : Sorted cmp left.toList := (List.pairwise_append.mp hs).left
    have hsr : Sorted cmp right.toList := (List.pairwise_cons.mp (List.pairwise_append.mp hs).right.left).right
    have hln := left.height_nonneg
    have hrn := right.height_nonneg
    rcases Int.lt_trichotomy (cmp r a) 0 with hlt | heq | hgt
    · obtain ⟨u, grown, old, x, y, hu, hbu, hul, hc, hg, hh⟩ := ihl hl hsl
      obtain ⟨v, hv, hbv, hvl, hrot⟩ := balance_spec (p := q) (a := a) (b := ob - grown) (l := u) (r := right)
        (by omega) (by omega) (by omega) hbu hr
      refine ⟨v, if ob ≠ 0 ∧ v.bal = 0 then -1 else 0, old, x, y ++ a :: right.toList, ?_, hbv, ?_,
        hc.append_right (cut_left h hs hlt), ?_, ?_⟩
      · rw [deleteavl, if_pos hlt, hu]
        simp only [Option.bind_eq_bind, Option.bind_some, hv]
        rfl
      · rw [hvl, hul, List.append_assoc]
      · split <;> simp
      · rw [height]
        exact hrot.left.delete (by omega) (by omega) (by omega) (hg.imp (fun h => by omega) fun h => by omega)
    · rw [deleteavl, if_neg (by omega), if_neg (by omega)]
      clear ihl ihr
      have hcut := cut_root h hs heq
      cases left
      case nil =>
        refine ⟨right.setp q, -1, some a, [], right.toList, rfl, hr.setp, by simp, hcut, .inr rfl, ?_⟩
        simp only [height, height_setp]
        omega
      case node c qc bc cl cr =>
        cases right
        case nil =>
          refine ⟨(node c qc bc cl cr).setp q, -1, some a, _, [], rfl, hl.setp, by simp, hcut, .inr rfl, ?_⟩
          simp only [height_setp, height] at hln ⊢
          have := cl.height_nonneg
          omega
        case node d qd bd dl dr =>
          obtain ⟨u, grown, x, hu, hbu, hul, hg, hh⟩ := successor_spec hr (by simp)
          obtain ⟨v, hv, hbv, hvl, hrot⟩ := balance_spec (p := q) (a := x) (b := ob + grown)
            (l := (node c qc bc cl cr).setp (some x)) (r := u.setp (some x))
            (by simp only [height_setp]; omega) (by omega) (by omega) hl.setp hbu.setp
          refine ⟨v, if ob ≠ 0 ∧ v.bal = 0 then -1 else 0, some a, _, _, ?_, hbv, ?_, hcut, ?_, ?_⟩
          · simp only [unlink, hu, Option.bind_eq_bind, Option.bind_some, hv]
            rfl
          · rw [hvl, hul, toList_setp, toList_setp]
          · split <;> simp
          · rw [height_setp, height_setp] at hrot
            rw [height, max_comm]
            exact hrot.right.delete (by omega) (by omega) (by omega) (hg.imp (fun h => by omega) fun h => by omega)
    · obtain ⟨u, grown, old, x, y, hu, hbu, hul, hc, hg, hh⟩ := ihr hr hsr
      obtain ⟨v, hv, hbv, hvl, hrot⟩ := balance_spec (p := q) (a := a) (b := ob + grown) (l := left) (r := u)
        (by omega) (by omega) (by omega) hl hbu
      have hcut := hc.append_left (cut_right h hs hgt)
      rw [List.append_assoc, List.singleton_append] at hcut
      refine ⟨v, if ob ≠ 0 ∧ v.bal = 0 then -1 else 0, old, left.toList ++ [a] ++ x, y, ?_, hbv, ?_, hcut, ?_, ?_⟩
      · rw [deleteavl, if_neg (by omega), if_pos hgt, hu]
        simp only [Option.bind_eq_bind, Option.bind_some, hv]
        rfl
      · rw [hvl, hul, List.append_assoc, List.append_assoc, List.singleton_append]
      · split <;> simp
      · rw [height, max_comm]
        exact hrot.right.delete (by omega) (by omega) (by omega) (hg.imp (fun h => by omega) fun h => by omega)

end

end Libavl.Avl

namespace Libavl

open Comparison

variable {A : Type*} {cmp : A → A → Int} {t u : Avltree A} {a : Op A}

-- What the calls have amounted to: the nodes that were inserted and have been neither replaced nor deleted since,
-- and those that the last call had to report.
structure Record (A : Type*) where
  live : A → Prop
  due  : A → Prop

def Op.node : Op A → A
  | .insertavl new => new
  | .deleteavl key => key

def Record.note (cmp : A → A → Int) (o : Op A) (r : Record A) : Record A where
  live x := (o = .insertavl x) ∨ r.live x ∧ cmp o.node x ≠ 0
  due x  := r.live x ∧ cmp o.node x = 0

def recorded (cmp : A → A → Int) : Machine (Avltree A × Record A) (Op A) :=
  (machine cmp).track (Record A) (fun _ => ⟨fun _ => False, fun _ => False⟩) fun _ => Record.note cmp

-- A search tree in balance of the nodes that are live.
structure Correct (cmp : A → A → Int) (t : Avltree A) (r : Record A) : Prop where
  balanced : t.root.Balanced none
  sorted   : Sorted cmp t.root.toList
  live     : ∀ x, x ∈ t.root.toList ↔ r.live x
  due      : ∀ x, x ∈ t.oldp ↔ r.due x

theorem Correct.step {r : Record A} (h : Comparison cmp) (hc : Correct cmp t r) (a : Op A) :
    ∃ u, t.step cmp a = some u ∧ Correct cmp u (r.note cmp a) := by
  cases a
  case insertavl new =>
    obtain ⟨u, _, old, left, right, hu, hb, hl, hcut, -⟩ := Avl.insertavl_spec (r := new) h hc.balanced hc.sorted
    refine ⟨⟨u, old⟩, by simp [Avltree.step, hu], hb, hl ▸ hcut.sorted_insert h hc.sorted, fun x => ?_, fun x => ?_⟩
    · have hmem : x ∈ left ++ new :: right ↔ x = new ∨ x ∈ left ++ right := by
        simp only [List.mem_append, List.mem_cons]
        exact or_left_comm
      rw [hl, hmem, hcut.mem_append_iff, hc.live]
      simp [Record.note, Op.node, eq_comm]
    · rw [hcut.old_iff, hc.live]
      rfl
  case deleteavl key =>
    obtain ⟨u, _, old, left, right, hu, hb, hl, hcut, -⟩ := Avl.deleteavl_spec (r := key) h hc.balanced hc.sorted
    refine ⟨⟨u, old⟩, by simp [Avltree.step, hu], hb, hl ▸ hcut.sorted_append hc.sorted, fun x => ?_, fun x => ?_⟩
    · rw [hl, hcut.mem_append_iff, hc.live, Record.note]
      simp [Op.node]
    · rw [hcut.old_iff, hc.live]
      rfl

theorem correct_invariant (h : Comparison cmp) :
    (recorded cmp).Invariant (fun _ _ => True) fun s => Correct cmp s.fst s.snd where
  init := by
    rintro ⟨t, r⟩ ⟨⟨hroot, hold⟩, hr⟩
    dsimp only at hroot hold hr
    subst hr
    refine ⟨hroot ▸ .nil, hroot ▸ .nil, fun x => ?_, fun x => ?_⟩
    · simp [hroot, Avl.toList]
    · simp [hold]
  step := by
    rintro ⟨t, r⟩ a ⟨u, r'⟩ hc - hs
    obtain ⟨hs, hr⟩ := Machine.track_step_eq.mp hs
    obtain ⟨v, hv, hcv⟩ := hc.step h a
    obtain rfl : v = u := Option.some.inj (hv.symm.trans hs)
    exact hr ▸ hcv

-- The tree is right in every state that a sequence of calls leads to, and the next call comes to an end.
theorem avl_correct (h : Comparison cmp) {r : Record A} (hr : (recorded cmp).Reachable (fun _ _ => True) (t, r)) :
    Correct cmp t r ∧ ∀ a, ∃ u, t.step cmp a = some u := by
  have hc : Correct cmp t r := (correct_invariant h).holds hr
  exact ⟨hc, fun a => (hc.step h a).imp fun _ => And.left⟩

theorem comparison_sub : Comparison fun x y : Int => x - y where
  swap {x y} := by omega
  trans {x y z} := by omega

theorem avl_correct_ints :
    ∃ t r, t.root.toList = [1, 2, 4, 5] ∧ t.oldp = some 3 ∧ Correct (fun x y : Int => x - y) t r := by
  have hrun : ((machine fun x y : Int => x - y).exec ⟨.nil, none⟩
      [.insertavl 1, .insertavl 2, .insertavl 3, .insertavl 4, .insertavl 5, .deleteavl 3]).map
      (fun t => (t.root.toList, t.oldp)) = some ([1, 2, 4, 5], some 3) := by decide
  obtain ⟨t, ht, he⟩ := Option.map_eq_some_iff.mp hrun
  obtain ⟨hl, hold⟩ := Prod.mk.inj he
  have hreach : (machine fun x y : Int => x - y).Reachable (fun _ _ => True) t :=
    .exec (.init ⟨rfl, rfl⟩) (fun _ _ _ => trivial) ht
  obtain ⟨r, hr⟩ := hreach.track _ _
  exact ⟨t, r, hl, hold, (avl_correct comparison_sub hr).left⟩

end Libavl
