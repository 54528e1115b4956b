import Nix.Libavl.AvlBalance

-- The walkers over a tree. There is no result where the library aborts, or where it would look at a node that has
-- left the tree.
namespace Libavl

namespace Avl

variable {A : Type*} [DecidableEq A]

-- `a->n[i]`
def n (i : Bool) : Avl A → Avl A
  | nil            => nil
  | node _ _ _ l r => if i then r else l

def p : Avl A → Option A
  | nil            => none
  | node _ p _ _ _ => p

-- The pointer to the tree.
def ptr : Avl A → Option A
  | nil            => none
  | node a _ _ _ _ => some a

-- What a pointer to a node points to.
def deref (a : A) : Avl A → Option (Avl A)
  | nil            => none
  | node c p b l r => if c = a then some (node c p b l r) else (l.deref a).or (r.deref a)

-- `for(; a && a->n[i]; a = a->n[i]);`
def outermost (i : Bool) : Avl A → Option A
  | nil            => none
  | node a _ _ l r => (if i then r.outermost i else l.outermost i).or (some a)

-- `while(a->p && a->p->n[i] == a) a = a->p;`, and the result is the parent then.
def climb (i : Bool) (t : Avl A) : Nat → A → Option (Option A)
  | 0, _ => none
  | fuel + 1, a => do
    match (← t.deref a).p with
    | none   => return none
    | some q => if ((← t.deref q).n i).ptr = some a then t.climb i fuel q else return some q

def size : Avl A → Nat
  | nil            => 0
  | node _ _ _ l r => l.size + r.size + 1

-- The node next to `a` on a side.
def neighbor (i : Bool) (t : Avl A) (a : A) : Option (Option A) := do
  match (← t.deref a).n i with
  | nil => t.climb i t.size a
  | c   => return c.outermost !i

def findpredecessor (t : Avl A) (a : A) : Option (Option A) :=
  t.neighbor false a

def findsuccessor (t : Avl A) (a : A) : Option (Option A) :=
  t.neighbor true a

end Avl

structure Avlwalk (A : Type*) where
  started : Bool
  moved   : Bool
  node    : Option A
deriving DecidableEq

-- A tree with its walkers, and what the last call returned.
structure Walked (A W : Type*) where
  root  : Avl A
  walks : List W
  walk  : W → Avlwalk A
  ret   : Option A

inductive Call (A W : Type*)
  | insertavl (new : A)
  | deleteavl (key : A)
  | avlwalk (w : W)
  | avlnext (w : W)
  | avlprev (w : W)
  | endwalk (w : W)
deriving DecidableEq

namespace Walked

variable {A W : Type*} [DecidableEq A] [DecidableEq W] (cmp : A → A → Int) (s : Walked A W)

-- A walker goes to a neighbor of its node, or to an end of the tree if it has not started.
def go (i : Bool) (w : Avlwalk A) : Option (Avlwalk A) :=
  if !w.started then some { w with node := s.root.outermost !i, started := true }
  else do
    let a ← w.node
    return { w with node := ← s.root.neighbor i a }

def next (w : Avlwalk A) : Option (Avlwalk A) :=
  s.go true w

def prev (w : Avlwalk A) : Option (Avlwalk A) :=
  if w.started ∧ w.moved then some { w with moved := false } else s.go false w

-- The walkers that are at `a` are moved to the node before it.
def walkdel (a : A) : Option (Walked A W) :=
  (s.root.findpredecessor a).map fun p =>
    { s with
      walk := fun w =>
        if w ∈ s.walks ∧ (s.walk w).node = some a then
          { (s.walk w) with moved := true, node := p, started := if p = none then false else (s.walk w).started }
        else s.walk w }

def setwalk (w : W) (x : Avlwalk A) : Walked A W :=
  { s with walk := Function.update s.walk w x, ret := x.node }

-- The node that is to be deleted is told to the walkers before anything changes.
def deleteavl (key : A) : Option (Walked A W) :=
  (s.root.deleteavl cmp key none).bind fun (root, _, oldp) =>
    match oldp with
    | none   => some { s with root, ret := none }
    | some a => (s.walkdel a).map fun s => { s with root, ret := some a }

def step : Call A W → Option (Walked A W)
  | .insertavl new => (s.root.insertavl cmp new none).map fun (root, _, oldp) => { s with root, ret := oldp }
  | .deleteavl key => s.deleteavl cmp key
  | .avlwalk w     =>
    if w ∈ s.walks then none
    else some { s with
      walks := w :: s.walks
      walk  := Function.update s.walk w { started := false, moved := false, node := none } }
  | .avlnext w     => if w ∈ s.walks then (s.next (s.walk w)).map (s.setwalk w) else none
  | .avlprev w     => if w ∈ s.walks then (s.prev (s.walk w)).map (s.setwalk w) else none
  | .endwalk w     => if w ∈ s.walks then some { s with walks := s.walks.erase w } else none

end Walked

def walkers {A : Type*} (W : Type*) [DecidableEq A] [DecidableEq W] (cmp : A → A → Int) :
    Machine (Walked A W) (Call A W) where
  init s := s.root = .nil ∧ s.walks = [] ∧ s.ret = none
  step   := Walked.step cmp

end Libavl

namespace Libavl.Avl

variable {A : Type*} {p q : Option A} {a c : A} {b : Int} {l r t u : Avl A} {i : Bool}

-- The nodes in order, from the left to the right or the other way.
def inorder (i : Bool) : Avl A → List A
  | nil            => []
  | node a _ _ l r => if i then l.inorder i ++ a :: r.inorder i else r.inorder i ++ a :: l.inorder i

theorem inorder_node : (node a p b l r).inorder i =
    ((node a p b l r).n !i).inorder i ++ a :: ((node a p b l r).n i).inorder i := by
  cases i <;> rfl

theorem inorder_true : t.inorder true = t.toList := by
  induction t
  case nil => rfl
  case node _ _ _ _ _ hl hr => simp [inorder, toList, hl, hr]

theorem inorder_false : t.inorder false = t.toList.reverse := by
  induction t
  case nil => rfl
  case node _ _ _ _ _ hl hr => simp [inorder, toList, hl, hr]

theorem mem_inorder : a ∈ t.inorder i ↔ a ∈ t.toList := by
  cases i
  · rw [inorder_false, List.mem_reverse]
  · rw [inorder_true]

theorem nodup_inorder : (t.inorder i).Nodup ↔ t.toList.Nodup := by
  cases i
  · rw [inorder_false, List.nodup_reverse]
  · rw [inorder_true]

theorem outermost_eq : t.outermost (!i) = (t.inorder i).head? := by
  induction t
  case nil => rfl
  case node _ _ _ _ _ hl hr =>
    cases i <;> simp only [Bool.not_false, Bool.not_true] at hl hr ⊢
    · simp [outermost, inorder, hr, List.head?_append]
    · simp [outermost, inorder, hl, List.head?_append]

theorem mem_of_ptr (h : t.ptr = some a) : a ∈ t.toList := by
  cases t
  case nil => contradiction
  case node => simp [toList, Option.some.inj h]

theorem Measured.n (h : Measured p (node a q b l r)) : Measured (some a) ((node a q b l r).n i) := by
  cases i
  · exact h.right.right.left
  · exact h.right.right.right

theorem size_n : ((node a p b l r).n i).size < (node a p b l r).size := by
  cases i <;> simp [Avl.n, size] <;> omega

-- The subtrees of a tree.
inductive Below (u : Avl A) : Avl A → Prop
  | refl : Below u u
  | n {a : A} {p : Option A} {b : Int} {l r : Avl A} (i : Bool) :
    Below u ((node a p b l r).n i) → Below u (node a p b l r)

theorem Below.trans (h : Below t u) {v : Avl A} (hu : Below u v) : Below t v := by
  induction hu
  case refl => exact h
  case n j _ ih => exact .n j ih

theorem Below.mem (h : Below u t) (ha : a ∈ u.toList) : a ∈ t.toList := by
  induction h
  case refl => exact ha
  case n j _ ih => cases j <;> simp_all [Avl.n, toList]

theorem exists_below (h : a ∈ t.toList) : ∃ p b l r, Below (node a p b l r) t := by
  induction t
  case nil => contradiction
  case node c q b l r hl hr =>
    simp only [toList, List.mem_append, List.mem_cons] at h
    rcases h with h | rfl | h
    · obtain ⟨p, b, l, r, hb⟩ := hl h
      exact ⟨p, b, l, r, .n false hb⟩
    · exact ⟨q, b, l, r, .refl⟩
    · obtain ⟨p, b, l, r, hb⟩ := hr h
      exact ⟨p, b, l, r, .n true hb⟩

theorem Below.nodup (h : Below u t) (ht : t.toList.Nodup) : u.toList.Nodup := by
  induction h
  case refl => exact ht
  case n j _ ih =>
    refine ih ?_
    simp only [toList, List.nodup_append, List.nodup_cons] at ht
    cases j
    · exact ht.left
    · exact ht.right.left.right

section
variable [DecidableEq A]

theorem deref_eq_none (h : a ∉ t.toList) : t.deref a = none := by
  induction t
  case nil => rfl
  case node c _ _ _ _ hl hr =>
    simp only [toList, List.mem_append, List.mem_cons, not_or] at h
    rw [deref, if_neg (Ne.symm h.right.left), hl h.left, hr h.right.right, Option.or_none]

theorem Below.deref (h : Below (node a p b l r) t) (ht : t.toList.Nodup) : t.deref a = some (node a p b l r) := by
  induction h
  case refl => simp [Avl.deref]
  case n c _ _ cl cr j hu ih =>
    have hmem := hu.mem (a := a) (by simp [toList])
    simp only [toList, List.nodup_append, List.nodup_cons] at ht
    obtain ⟨hl, ⟨hc, hr⟩, hdisj⟩ := ht
    cases j
    case false =>
      have hne : c ≠ a := (hdisj a hmem c List.mem_cons_self).symm
      have hrest : cl.deref a = some _ := ih hl
      rw [Avl.deref, if_neg hne, hrest, Option.some_or]
    case true =>
      have hne : c ≠ a := fun he => hc (he ▸ hmem)
      have hnot : a ∉ cl.toList := fun ha => hdisj a ha a (List.mem_cons_of_mem _ hmem) rfl
      have hrest : cr.deref a = some _ := ih hr
      rw [Avl.deref, if_neg hne, deref_eq_none hnot, Option.none_or, hrest]

theorem follower_self (ht : (node c q b l r).toList.Nodup) :
    ((node c q b l r).inorder i).follower c = (((node c q b l r).n i).inorder i).head? := by
  rw [← nodup_inorder (i := i), inorder_node, List.nodup_append] at ht
  have hnot : c ∉ ((node c q b l r).n !i).inorder i := fun hm => ht.right.right c hm c List.mem_cons_self rfl
  rw [inorder_node, List.follower_append_right hnot, List.follower_cons_self]

theorem follower_inner (ht : (node c q b l r).toList.Nodup) (ha : a ∈ ((node c q b l r).n i).inorder i) :
    ((node c q b l r).inorder i).follower a = (((node c q b l r).n i).inorder i).follower a := by
  rw [← nodup_inorder (i := i), inorder_node, List.nodup_append, List.nodup_cons] at ht
  have hnot : a ∉ ((node c q b l r).n !i).inorder i :=
    fun hm => ht.right.right a hm a (List.mem_cons_of_mem c ha) rfl
  have hne : c ≠ a := fun he => ht.right.left.left (he ▸ ha)
  rw [inorder_node, List.follower_append_right hnot, List.follower, if_neg hne]

theorem follower_outer (ha : a ∈ ((node c q b l r).n !i).inorder i) :
    ((node c q b l r).inorder i).follower a = ((((node c q b l r).n !i).inorder i).follower a).or (some c) := by
  rw [inorder_node, List.follower_append_left ha]
  rfl

theorem climb_turn {j : Bool} {fuel : Nat} {d : A} (ht : t.toList.Nodup) (hb : Below (node c q b l r) t)
    (hp : Measured q (node c q b l r)) (hd : ((node c q b l r).n j).ptr = some d) :
    t.climb i (fuel + 1) d =
      if ((node c q b l r).n i).ptr = some d then t.climb i fuel c else some (some c) := by
  have hchild : Below ((node c q b l r).n j) t := (Below.n j .refl).trans hb
  have hm : Measured (some c) ((node c q b l r).n j) := hp.n
  cases hn : (node c q b l r).n j
  case nil => simp [hn, ptr] at hd
  case node e pe be le re =>
    rw [hn] at hchild hm hd
    obtain rfl : e = d := Option.some.inj hd
    obtain ⟨rfl, -⟩ := hm
    simp only [climb, hchild.deref ht, hb.deref ht, Option.bind_eq_bind, Option.bind_some, Avl.p]
    rfl

theorem climb_root {fuel : Nat} {d : A} (ht : t.toList.Nodup) (hb : Below (node c q b l r) t)
    (hp : Measured q (node c q b l r)) (hd : ((node c q b l r).n i).ptr = some d) :
    t.climb i (fuel + 1) d = t.climb i fuel c := by
  rw [climb_turn ht hb hp hd, if_pos hd]

theorem climb_stop {fuel : Nat} {d : A} (ht : t.toList.Nodup) (hb : Below (node c q b l r) t)
    (hp : Measured q (node c q b l r)) (hd : ((node c q b l r).n !i).ptr = some d) :
    t.climb i (fuel + 1) d = some (some c) := by
  have hnodup := nodup_inorder (i := i).mpr (hb.nodup ht)
  rw [inorder_node, List.nodup_append] at hnodup
  have hne : ((node c q b l r).n i).ptr ≠ some d := fun hi =>
    hnodup.right.right d (mem_inorder.mpr (mem_of_ptr hd)) d
      (List.mem_cons_of_mem c (mem_inorder.mpr (mem_of_ptr hi))) rfl
  rw [climb_turn ht hb hp hd, if_neg hne]

-- From a node that has no subtree on the side the search comes to what follows it in the subtree that it has come
-- through, or to the root of that when nothing follows.
theorem climb_eq (ht : t.toList.Nodup) (hu : Below u t) (hp : Measured p u) (hc : u.ptr = some c)
    (ha : Below (node a q b l r) u) (hn : (node a q b l r).n i = nil) :
    ∃ k < u.size, ∀ fuel, t.climb i (k + fuel + 1) a =
      ((u.inorder i).follower a).elim (t.climb i (fuel + 1) c) fun x => some (some x) := by
  induction ha generalizing p c
  case refl =>
    obtain rfl : a = c := Option.some.inj hc
    refine ⟨0, by simp [size], fun fuel => ?_⟩
    rw [follower_self (hu.nodup ht), hn, Nat.zero_add]
    rfl
  case n e pe be le re j hsub ih =>
    obtain rfl : e = c := Option.some.inj hc
    obtain rfl : pe = p := hp.left
    have hchild : Below ((node e pe be le re).n j) t := (Below.n j .refl).trans hu
    have hmem : a ∈ ((node e pe be le re).n j).inorder i := mem_inorder.mpr <| hsub.mem (by simp [toList])
    obtain ⟨d, hd⟩ : ∃ d, ((node e pe be le re).n j).ptr = some d := by
      cases h : (node e pe be le re).n j
      case nil => simp [h, inorder] at hmem
      case node d _ _ _ _ => exact ⟨d, rfl⟩
    obtain ⟨k, hk, hclimb⟩ := ih hchild hp.n hd
    by_cases hj : j = i
    case pos =>
      subst hj
      refine ⟨k + 1, Nat.lt_of_le_of_lt hk size_n, fun fuel => ?_⟩
      have hfuel : k + 1 + fuel + 1 = k + (fuel + 1) + 1 := by omega
      rw [hfuel, hclimb, climb_root ht hu hp hd, follower_inner (hu.nodup ht) hmem]
    case neg =>
      obtain rfl : j = !i := Bool.eq_not.mpr hj
      refine ⟨k, hk.trans size_n, fun fuel => ?_⟩
      rw [hclimb, climb_stop ht hu hp hd, follower_outer hmem]
      cases ((node e pe be le re).n !i).inorder i |>.follower a <;> rfl

-- A node that has a subtree on the side is followed by the outermost of that.
theorem Below.follower_eq (hb : Below (node a q b l r) t) (ht : t.toList.Nodup)
    (hn : (node a q b l r).n i ≠ nil) :
    (t.inorder i).follower a = (((node a q b l r).n i).inorder i).head? := by
  induction hb
  case refl => exact follower_self ht
  case n e pe be le re j hsub ih =>
    have hchild : ((node e pe be le re).n j).toList.Nodup := (Below.n j .refl).nodup ht
    have hmem : a ∈ ((node e pe be le re).n j).inorder i := mem_inorder.mpr <| hsub.mem (by simp [toList])
    by_cases hj : j = i
    case pos =>
      subst hj
      rw [follower_inner ht hmem, ih hchild]
    case neg =>
      obtain rfl : j = !i := Bool.eq_not.mpr hj
      rw [follower_outer hmem, ih hchild]
      cases h : (node a q b l r).n i
      case nil => contradiction
      case node => cases i <;> simp [inorder, List.head?_append]

theorem neighbor_eq_none (ha : a ∉ t.toList) : t.neighbor i a = none := by
  rw [neighbor, deref_eq_none ha]
  rfl

theorem neighbor_eq (ht : t.toList.Nodup) (hp : Measured none t) (ha : a ∈ t.toList) :
    t.neighbor i a = some ((t.inorder i).follower a) := by
  obtain ⟨q, b, l, r, hb⟩ := exists_below ha
  rw [neighbor, hb.deref ht]
  simp only [Option.bind_eq_bind, Option.bind_some]
  cases hn : (node a q b l r).n i
  case nil =>
    cases t
    case nil => contradiction
    case node c pc bc lc rc =>
      obtain ⟨k, hk, hclimb⟩ := climb_eq ht .refl hp rfl hb hn
      obtain ⟨fuel, hfuel⟩ := Nat.exists_eq_add_of_le (Nat.succ_le_of_lt hk)
      obtain rfl : pc = none := hp.left
      have htop : (node c none bc lc rc).climb i (fuel + 1) c = some none := by simp [climb, deref, Avl.p]
      dsimp only
      rw [hfuel, Nat.succ_add, ← Nat.add_succ, Nat.add_succ, hclimb, htop]
      cases ((node c none bc lc rc).inorder i).follower a <;> rfl
  case node =>
    rw [hb.follower_eq (i := i) ht (by rw [hn]; nofun), hn, ← outermost_eq]
    rfl

end

end Libavl.Avl
