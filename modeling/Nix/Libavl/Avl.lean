import Nix.Lib.Machine

-- The trees of the library. A node has its parent and the difference of the heights of its subtrees in it. A
-- function that gets the address of a pointer to a node returns what it stores there. There is no result where a
-- nil pointer is used or an assertion fails.
namespace Libavl

inductive Avl (A : Type*)
  | nil
  | node (a : A) (p : Option A) (bal : Int) (l r : Avl A)
deriving DecidableEq, Repr

namespace Avl

variable {A : Type*}

-- `a->p = p`
def setp (p : Option A) : Avl A → Avl A
  | nil            => nil
  | node a _ b l r => node a p b l r

def bal : Avl A → Int
  | nil            => 0
  | node _ _ b _ _ => b

def singleleft (p : Option A) : Avl A → Option (Avl A)
  | node a _ abal al (node c _ cbal cl cr) =>
    let r2 := cbal
    let l := max r2 0 + 1 - abal
    some (node c p (r2 - (max l 0 + 1)) (node a (some c) (-l) al (cl.setp (some a))) cr)
  | _ => none

def singleright (p : Option A) : Avl A → Option (Avl A)
  | node a _ abal (node c _ cbal cl cr) ar =>
    let l2 := -cbal
    let r := abal + (max l2 0 + 1)
    some (node c p ((max r 0 + 1) - l2) cl (node a (some c) r (cr.setp (some a)) ar))
  | _ => none

def doublerightleft (p : Option A) : Avl A → Option (Avl A)
  | nil            => none
  | node a q b l r => do singleleft p (node a q b l (← singleright (some a) r))

def doubleleftright (p : Option A) : Avl A → Option (Avl A)
  | nil            => none
  | node a q b l r => do singleright p (node a q b (← singleleft (some a) l) r)

-- There is nothing to rotate where the child is nil.
def balance (p : Option A) : Avl A → Option (Avl A)
  | nil            => none
  | node a q b l r =>
    if b = -2 then
      if l.bal ≤ 0 then singleright p (node a q b l r)
      else if l.bal = 1 then doubleleftright p (node a q b l r)
      else none
    else if b = 2 then
      if 0 ≤ r.bal then singleleft p (node a q b l r)
      else if r.bal = -1 then doublerightleft p (node a q b l r)
      else none
    else some (node a q b l r)

section
variable (cmp : A → A → Int)

-- What the insertion leaves, whether the tree has become higher, and the node that it replaced.
def insertavl (r : A) : Option A → Avl A → Option (Avl A × Int × Option A)
  | p, nil => some (node r p 0 nil nil, 1, none)
  | p, node a q ob left right =>
    if cmp r a < 0 then do
      let (left, grown, rfree) ← insertavl r (some a) left
      let t ← balance p (node a q (ob - grown) left right)
      return (t, if ob = 0 ∧ t.bal ≠ 0 then 1 else 0, rfree)
    else if 0 < cmp r a then do
      let (right, grown, rfree) ← insertavl r (some a) right
      let t ← balance p (node a q (ob + grown) left right)
      return (t, if ob = 0 ∧ t.bal ≠ 0 then 1 else 0, rfree)
    else
      return (node r q ob (left.setp (some r)) (right.setp (some r)), 0, some a)

-- What is left without the first node, how much the height has changed, and the first node.
def successor : Option A → Avl A → Option (Avl A × Int × A)
  | _, nil                  => none
  | p, node a _ _ nil right => some (right.setp p, -1, a)
  | p, node a q ob left right => do
    let (left, grown, r) ← successor (some a) left
    let t ← balance p (node a q (ob - grown) left right)
    return (t, if ob ≠ 0 ∧ t.bal = 0 then -1 else 0, r)

-- The node `a` is taken out from between its subtrees. One that has both is replaced by its successor.
def unlink (p : Option A) (a : A) (ob : Int) (left right : Avl A) : Option (Avl A × Int × Option A) :=
  match left, right with
  | nil, _ => some (right.setp p, -1, some a)
  | _, nil => some (left.setp p, -1, some a)
  | _, _   => do
    let (right, grown, r) ← successor (some a) right
    let t ← balance p (node r p (ob + grown) (left.setp (some r)) (right.setp (some r)))
    return (t, if ob ≠ 0 ∧ t.bal = 0 then -1 else 0, some a)

-- What the deletion leaves, how much the height has changed, and the node that is deleted.
def deleteavl (rx : A) : Option A → Avl A → Option (Avl A × Int × Option A)
  | _, nil => some (nil, 0, none)
  | p, node a q ob left right =>
    if cmp rx a < 0 then do
      let (left, grown, del) ← deleteavl rx (some a) left
      let t ← balance p (node a q (ob - grown) left right)
      return (t, if ob ≠ 0 ∧ t.bal = 0 then -1 else 0, del)
    else if 0 < cmp rx a then do
      let (right, grown, del) ← deleteavl rx (some a) right
      let t ← balance p (node a q (ob + grown) left right)
      return (t, if ob ≠ 0 ∧ t.bal = 0 then -1 else 0, del)
    else unlink p a ob left right

end

end Avl

-- A tree, and the node that the last call reported.
structure Avltree (A : Type*) where
  root : Avl A
  oldp : Option A

inductive Op (A : Type*)
  | insertavl (new : A)
  | deleteavl (key : A)
deriving DecidableEq

namespace Avltree

variable {A : Type*} (cmp : A → A → Int) (t : Avltree A)

def step : Op A → Option (Avltree A)
  | .insertavl new => (t.root.insertavl cmp new none).map fun (root, _, oldp) => { root, oldp }
  | .deleteavl key => (t.root.deleteavl cmp key none).map fun (root, _, oldp) => { root, oldp }

end Avltree

-- The tree of `mkavltree` is empty.
def machine {A : Type*} (cmp : A → A → Int) : Machine (Avltree A) (Op A) where
  init t := t.root = .nil ∧ t.oldp = none
  step   := Avltree.step cmp

end Libavl
