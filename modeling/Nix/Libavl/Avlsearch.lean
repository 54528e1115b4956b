import Nix.Libavl.Avlwalk

-- The search for a key, or for the neighbor of one. There is no result where an assertion fails.
namespace Libavl

open Comparison

def canoncmp (cmp : Int) : Int :=
  if cmp < 0 then -1 else if 0 < cmp then 1 else 0

namespace Avl

section
variable {A : Type*} [DecidableEq A] (cmp : A → A → Int) (root : Avl A) (r : A) (neighbor : Int)

-- The answer when the search has come to the end of the tree below `p`, on the side that `i` tells.
def leave (p : A) (i : Int) : Option (Option A) :=
  if neighbor = 0 then some none
  else if neighbor < 0 then if 0 < i then some (some p) else root.findpredecessor p
  else if i < 0 then some (some p) else root.findsuccessor p

-- The loop of `_lookupavl`, with the node that it comes from and how the key compared there.
def descend : Option (A × Int) → Avl A → Option (Option A)
  | none, nil                  => some none
  | some (p, i), nil           => root.leave neighbor p i
  | last, node a p _ left right =>
    if p = last.map Prod.fst then
      let i := canoncmp (cmp r a)
      if i = 0 then some (some a)
      else if (i + 1) / 2 = 0 then descend (some (a, i)) left
      else descend (some (a, i)) right
    else none

def lookup : Option (Option A) :=
  root.descend cmp r neighbor none root

end

end Avl

namespace Avltree

variable {A : Type*} [DecidableEq A] (cmp : A → A → Int) (t : Avltree A) (key : A)

def searchavl (neighbor : Int) : Option (Option A) :=
  t.root.lookup cmp key neighbor

def lookupavl : Option (Option A) :=
  t.root.lookup cmp key 0

end Avltree

namespace Avl

variable {A : Type*} {cmp : A → A → Int} {root t : Avl A} {r p a : A} {q : Option A} {i neighbor : Int}
  {left right : List A} {old : Option A}

theorem canoncmp_neg {c : Int} (h : c < 0) : canoncmp c = -1 :=
  if_pos h

theorem canoncmp_pos {c : Int} (h : 0 < c) : canoncmp c = 1 := by
  rw [canoncmp, if_neg (by omega), if_pos h]

-- The end of a branch is between the node before the key and the node after it, and the node above is one of them.
def Ended (left right : List A) (p : A) (i : Int) : Prop :=
  i = 1 ∧ left.getLast? = some p ∨ i = -1 ∧ right.head? = some p

-- Which of the two is the answer.
def nearest (neighbor : Int) (left right : List A) : Option A :=
  if neighbor = 0 then none else if neighbor < 0 then left.getLast? else right.head?

section
variable [DecidableEq A]

theorem follower_last (hl : left.getLast? = some p) (hp : (left ++ right).Nodup) :
    (left ++ right).follower p = right.head? := by
  obtain ⟨l, rfl⟩ := List.getLast?_eq_some_iff.mp hl
  rw [List.append_assoc, List.singleton_append] at hp ⊢
  have hnot : p ∉ l := fun hm => (List.nodup_append.mp hp).right.right p hm p List.mem_cons_self rfl
  rw [List.follower_append_right hnot, List.follower_cons_self]

theorem leave_eq (hroot : Measured none root) (hnodup : root.toList.Nodup) (heq : root.toList = left ++ right)
    (hend : Ended left right p i) : root.leave neighbor p i = some (nearest neighbor left right) := by
  have hmem : p ∈ root.toList := by
    rw [heq, List.mem_append]
    rcases hend with ⟨-, hp⟩ | ⟨-, hp⟩
    · exact .inl (List.mem_of_getLast? hp)
    · exact .inr (List.mem_of_head? hp)
  rw [leave, nearest]
  split
  case isTrue => rfl
  case isFalse =>
    rw [heq] at hnodup
    split
    case isTrue =>
      rcases hend with ⟨rfl, hp⟩ | ⟨rfl, hp⟩
      · rw [if_pos (by decide), hp]
      · have hlast : right.reverse.getLast? = some p := by rw [List.getLast?_reverse, hp]
        have hrev : (right.reverse ++ left.reverse).Nodup := by
          rw [← List.reverse_append, List.nodup_reverse]
          exact hnodup
        rw [if_neg (by decide), findpredecessor, neighbor_eq (heq ▸ hnodup) hroot hmem, inorder_false, heq,
          List.reverse_append, follower_last hlast hrev, List.head?_reverse]
    case isFalse =>
      rcases hend with ⟨rfl, hp⟩ | ⟨rfl, hp⟩
      · rw [if_neg (by decide), findsuccessor, neighbor_eq (heq ▸ hnodup) hroot hmem, inorder_true, heq,
          follower_last hp hnodup]
      · rw [if_pos (by decide), hp]

-- The search below a node, with what is before the subtree in the whole tree and what is after it.
theorem descend_eq (h : Comparison cmp) (hroot : Measured none root) (hnodup : root.toList.Nodup)
    {last : Option (A × Int)} (ht : Measured (last.map Prod.fst) t) (hs : Sorted cmp t.toList)
    (heq : root.toList = left ++ (t.toList ++ right)) (hend : ∀ p i, last = some (p, i) → Ended left right p i)
    (hnone : last = none → left = [] ∧ right = []) :
    ∃ before old after, Cut cmp r t.toList before old after ∧ root.descend cmp r neighbor last t =
      some (old.or (nearest neighbor (left ++ before) (after ++ right))) := by
  induction t generalizing last left right
  case nil =>
    refine ⟨[], none, [], .nil, ?_⟩
    cases last
    case none =>
      obtain ⟨rfl, rfl⟩ := hnone rfl
      have hnil : nearest neighbor ([] : List A) [] = none := by simp [nearest]
      rw [descend, List.append_nil, hnil]
      rfl
    case some e =>
      obtain ⟨p, i⟩ := e
      rw [List.append_nil]
      exact leave_eq hroot hnodup heq (hend p i rfl)
  case node a q b l u hl hu =>
    obtain ⟨rfl, -, hml, hmu⟩ := ht
    rw [toList] at heq hs
    obtain ⟨hsl, hsu, -⟩ := List.pairwise_append.mp hs
    rw [descend, if_pos rfl]
    dsimp only
    by_cases hlt : cmp r a < 0
    case pos =>
      rw [canoncmp_neg hlt, if_neg (by decide), if_pos (by decide)]
      have heq' : root.toList = left ++ (l.toList ++ (a :: u.toList ++ right)) := by rw [heq, List.append_assoc]
      have hml' : Measured ((some (a, (-1 : Int))).map Prod.fst) l := hml
      obtain ⟨before, old, after, hcut, hd⟩ := hl hml' hsl heq' (fun p i he => by cases he; exact .inr ⟨rfl, rfl⟩) (by simp)
      refine ⟨before, old, after ++ a :: u.toList, hcut.append_right (cut_left h hs hlt), ?_⟩
      rw [hd, List.append_assoc]
    case neg =>
      by_cases hgt : 0 < cmp r a
      case pos =>
        rw [canoncmp_pos hgt, if_neg (by decide), if_neg (by decide)]
        have heq' : root.toList = (left ++ (l.toList ++ [a])) ++ (u.toList ++ right) := by rw [heq]; simp
        have hmu' : Measured ((some (a, (1 : Int))).map Prod.fst) u := hmu
        obtain ⟨before, old, after, hcut, hd⟩ := hu hmu' (List.pairwise_cons.mp hsu).right heq'
          (fun p i he => by cases he; exact .inl ⟨rfl, by simp⟩) (by simp)
        have hcut' := hcut.append_left (cut_right h hs hgt)
        rw [List.append_assoc] at hcut'
        refine ⟨l.toList ++ [a] ++ before, old, after, ?_, ?_⟩
        · rw [List.append_assoc]
          simpa [toList] using hcut'
        · rw [hd, List.append_assoc]
      case neg =>
        have hzero : cmp r a = 0 := by omega
        refine ⟨l.toList, some a, u.toList, cut_root h hs hzero, ?_⟩
        have hcanon : canoncmp 0 = 0 := rfl
        rw [hzero, hcanon, if_pos rfl, Option.some_or]

end

end Avl

variable {A : Type*} {cmp : A → A → Int} {key : A} {neighbor : Int} {l before after : List A} {old : Option A}

-- Nodes that answer a search: those with an equal key, and for a neighbor also those on that side.
def Sought (cmp : A → A → Int) (key : A) (neighbor : Int) (x : A) : Prop :=
  cmp key x = 0 ∨ neighbor < 0 ∧ 0 < cmp key x ∨ 0 < neighbor ∧ cmp key x < 0

-- A search finds such a node if there is one, and none is closer to the key.
structure Finds (cmp : A → A → Int) (l : List A) (key : A) (neighbor : Int) (res : Option A) : Prop where
  missing  : res = none ↔ ∀ x ∈ l, ¬Sought cmp key neighbor x
  found    : ∀ a, res = some a → a ∈ l ∧ Sought cmp key neighbor a
  least    : 0 < neighbor → ∀ a, res = some a → ∀ x ∈ l, Sought cmp key neighbor x → cmp a x ≤ 0
  greatest : neighbor < 0 → ∀ a, res = some a → ∀ x ∈ l, Sought cmp key neighbor x → cmp x a ≤ 0

theorem Sought.le {x : A} (h : Sought cmp key neighbor x) (hn : 0 < neighbor) : cmp key x ≤ 0 := by
  rcases h with h | ⟨h, -⟩ | ⟨-, h⟩ <;> omega

theorem Sought.ge {x : A} (h : Sought cmp key neighbor x) (hn : neighbor < 0) : 0 ≤ cmp key x := by
  rcases h with h | ⟨-, h⟩ | ⟨h, -⟩ <;> omega

theorem finds_nothing (h : ∀ x ∈ l, ¬Sought cmp key neighbor x) : Finds cmp l key neighbor none where
  missing    := iff_of_true rfl h
  found      := nofun
  least _    := nofun
  greatest _ := nofun

theorem finds_equal {a : A} (h : Comparison cmp) (ha : a ∈ l) (heq : cmp key a = 0) : Finds cmp l key neighbor (some a) where
  missing := iff_of_false nofun fun hall => hall a ha (.inl heq)
  found b hb := Option.some.inj hb ▸ ⟨ha, .inl heq⟩
  least hn b hb x _ hs := by
    obtain rfl := Option.some.inj hb
    exact h.trans (h.le_swap.mpr heq.ge) (hs.le hn)
  greatest hn b hb x _ hs := by
    obtain rfl := Option.some.inj hb
    exact h.trans (h.le_swap.mpr (hs.ge hn)) heq.le

theorem finds_before (h : Comparison cmp) (hcut : Cut cmp key l before none after) (hl : Sorted cmp l) (hn : neighbor < 0) :
    Finds cmp l key neighbor before.getLast? := by
  have hmem {x : A} (hx : x ∈ l) (hs : Sought cmp key neighbor x) : x ∈ before := by
    rcases hcut.mem_iff.mp hx with hb | hb | hb
    · exact hb
    · cases hb
    · have := hs.ge hn
      have := hcut.lt x hb
      omega
  rcases List.eq_nil_or_concat' before with rfl | ⟨m, a, rfl⟩
  case inl => exact finds_nothing fun x hx hs => List.not_mem_nil (hmem hx hs)
  case inr =>
    rw [List.getLast?_concat]
    have ha : a ∈ m ++ [a] := List.mem_concat_self
    have hmema : a ∈ l := hcut.mem_iff.mpr (.inl ha)
    have hsought : Sought cmp key neighbor a := .inr (.inl ⟨hn, hcut.gt a ha⟩)
    constructor
    case missing => exact iff_of_false nofun fun hall => hall a hmema hsought
    case found => exact fun b hb => Option.some.inj hb ▸ ⟨hmema, hsought⟩
    case least => exact fun hpos => absurd hpos (by omega)
    case greatest =>
      intro _ b hb x hx hs
      obtain rfl := Option.some.inj hb
      have hsorted := hcut.sorted_append hl
      rw [List.append_assoc, List.singleton_append, Sorted, List.pairwise_append] at hsorted
      rcases List.mem_append.mp (hmem hx hs) with hm | hm
      · exact (hsorted.right.right x hm a List.mem_cons_self).le
      · exact List.mem_singleton.mp hm ▸ h.refl.le

theorem finds_after (h : Comparison cmp) (hcut : Cut cmp key l before none after) (hl : Sorted cmp l) (hn : 0 < neighbor) :
    Finds cmp l key neighbor after.head? := by
  have hmem {x : A} (hx : x ∈ l) (hs : Sought cmp key neighbor x) : x ∈ after := by
    rcases hcut.mem_iff.mp hx with hb | hb | hb
    · have := hs.le hn
      have := hcut.gt x hb
      omega
    · cases hb
    · exact hb
  cases after
  case nil => exact finds_nothing fun x hx hs => List.not_mem_nil (hmem hx hs)
  case cons a m =>
    have ha : a ∈ a :: m := List.mem_cons_self
    have hmema : a ∈ l := hcut.mem_iff.mpr (.inr (.inr ha))
    have hsought : Sought cmp key neighbor a := .inr (.inr ⟨hn, hcut.lt a ha⟩)
    constructor
    case missing => exact iff_of_false nofun fun hall => hall a hmema hsought
    case found => exact fun b hb => Option.some.inj hb ▸ ⟨hmema, hsought⟩
    case greatest => exact fun hneg => absurd hneg (by omega)
    case least =>
      intro _ b hb x hx hs
      obtain rfl := Option.some.inj hb
      have hsorted := (List.pairwise_append.mp (hcut.sorted_append hl)).right.left
      rcases List.mem_cons.mp (hmem hx hs) with rfl | hm
      · exact h.refl.le
      · exact ((List.pairwise_cons.mp hsorted).left x hm).le

-- In every tree the search finds the node that is asked for, and comes to an end.
theorem searchavl_finds [DecidableEq A] (h : Comparison cmp) {t : Avltree A} (hb : t.root.Balanced none)
    (hs : Sorted cmp t.root.toList) (key : A) (neighbor : Int) :
    ∃ res, t.searchavl cmp key neighbor = some res ∧ Finds cmp t.root.toList key neighbor res := by
  have hnodup : t.root.toList.Nodup := hs.imp fun hlt he => by
    rw [he, h.refl] at hlt
    exact lt_irrefl 0 hlt
  have hend : ∀ p i, (none : Option (A × Int)) = some (p, i) → Avl.Ended [] [] p i := by simp
  have hnone : (none : Option (A × Int)) = none → ([] : List A) = [] ∧ ([] : List A) = [] := fun _ => ⟨rfl, rfl⟩
  obtain ⟨before, old, after, hcut, hd⟩ : ∃ before old after, Cut cmp key t.root.toList before old after ∧
      t.root.descend cmp key neighbor none t.root = some (old.or (Avl.nearest neighbor ([] ++ before) (after ++ []))) :=
    Avl.descend_eq h hb.measured hnodup hb.measured hs (List.append_nil _).symm hend hnone
  refine ⟨_, hd, ?_⟩
  cases old
  case some a =>
    have ⟨ha, heq⟩ := hcut.old_iff.mp rfl
    exact finds_equal h ha heq
  case none =>
    rw [Option.none_or, List.nil_append, List.append_nil, Avl.nearest]
    split
    case isTrue hzero =>
      have hnot : ∀ x ∈ t.root.toList, ¬Sought cmp key neighbor x := by
        rintro x hx (he | ⟨hn, -⟩ | ⟨hn, -⟩)
        · cases hcut.old_iff.mpr ⟨hx, he⟩
        · omega
        · omega
      exact finds_nothing hnot
    case isFalse hne =>
      split
      case isTrue hneg => exact finds_before h hcut hs hneg
      case isFalse hpos => exact finds_after h hcut hs (by omega)

def small : Avltree Int where
  root := .node 2 none 0 (.node 1 (some 2) 0 .nil .nil) (.node 4 (some 2) 0 .nil .nil)
  oldp := none

theorem searchavl_finds_small :
    small.searchavl (fun x y => x - y) 3 (-1) = some (some 2) ∧
      Finds (fun x y => x - y) small.root.toList 3 (-1) (some 2) := by
  have hb : small.root.Balanced none :=
    ⟨by simp [small, Avl.Measured, Avl.height], by simp [small, Avl.Small]⟩
  have hs : Sorted (fun x y => x - y) small.root.toList := by simp [small, Avl.toList]
  have hres : small.searchavl (fun x y => x - y) 3 (-1) = some (some 2) := by decide
  obtain ⟨res, hsearch, hfinds⟩ := searchavl_finds comparison_sub hb hs 3 (-1)
  obtain rfl : some 2 = res := Option.some.inj (hres.symm.trans hsearch)
  exact ⟨hres, hfinds⟩

end Libavl
