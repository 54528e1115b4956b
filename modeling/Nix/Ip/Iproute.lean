import Nix.Ip.Arp
import Nix.Lib.Ranges

-- Routes to ranges of addresses. They are in trees, which are found by some bits of the addresses.
namespace Ip.Iproute

open Arp (IPaddr v4tov6)

abbrev Lroot : Nat := 10

-- type bits
abbrev Rv4 : UInt8 := 0x01
abbrev Rifc : UInt8 := 0x02

abbrev Tag := Fin 4 → UInt8

-- A route in `A`, with gates of `G`. `ifc` is where the interface is in memory.
structure Route (A G : Type) [LinearOrder A] where
  type  : UInt8
  ifcid : UInt8
  ifc   : Option Nat
  tag   : Tag
  ref   : Int
  range : Range A
  gate  : G

inductive Tree (A G : Type) [LinearOrder A]
  | nil
  | node (left mid right : Tree A G) (depth : UInt8) (r : Route A G)

inductive Compare
  | Rpreceeds
  | Rfollows
  | Requals
  | Rcontains
  | Rcontained

section

variable {A G : Type} [LinearOrder A]

def rangecompare (a b : Range A) : Compare :=
  if a.hi < b.lo then .Rpreceeds
  else if b.hi < a.lo then .Rfollows
  else if a.lo ≤ b.lo ∧ b.hi ≤ a.hi then
    if a.lo = b.lo ∧ a.hi = b.hi then .Requals else .Rcontains
  else .Rcontained

namespace Tree

def depth : Tree A G → UInt8
  | nil            => 0
  | node _ _ _ d _ => d

-- calculate depth
def calcd : Tree A G → Tree A G
  | nil            => nil
  | node l m r _ p =>
    let d := l.depth
    let d := if d < r.depth then r.depth else d
    let d := if d < m.depth then m.depth else d
    node l m r (d + 1) p

end Tree

open Tree

-- balance the tree at the current node
def balancetree : Tree A G → Tree A G
  | nil            => nil
  | node l m r d p =>
    if r.depth.toNat + 1 < l.depth.toNat then
      match l with
      | nil                 => nil
      | node ll lm lr ld lp => calcd (node ll lm (calcd (node lr m r d p)) ld lp)
    else if l.depth.toNat + 1 < r.depth.toNat then
      match r with
      | nil                 => nil
      | node rl rm rr rd rp => calcd (node (calcd (node l m rl d p)) rm rr rd rp)
    else
      calcd (node l m r d p)

-- supercede the old entry if the old one isn't a local interface.
def supercede (p new : Route A G) : Route A G :=
  if p.type &&& Rifc = 0 then { p with type := new.type, ifcid := 0xff, gate := new.gate }
  else if new.type &&& Rifc ≠ 0 then { p with ref := p.ref + 1 }
  else p

-- The new node, with what is below it, and what is queued to be merged into root.
def addnode (new : Route A G) (mid : Tree A G) : Tree A G → Tree A G × Option (Tree A G)
  | nil            => (node nil mid nil 1 new, none)
  | node l m r d p =>
    match rangecompare new.range p.range with
    | .Rpreceeds  =>
      let (l, q) := addnode new mid l
      (balancetree (node l m r d p), q)
    | .Rfollows   =>
      let (r, q) := addnode new mid r
      (balancetree (node l m r d p), q)
    | .Rcontains  => (balancetree (node nil mid nil 1 new), some (node l m r d p))
    | .Requals    => (balancetree (node l m r d (supercede p new)), none)
    | .Rcontained =>
      let (m, q) := addnode new mid m
      (balancetree (node l m r d p), q)

-- walk down a tree adding nodes back in
def walkadd : Tree A G → Tree A G → List (Tree A G) → Tree A G × List (Tree A G)
  | nil,            root, queue => (root, queue)
  | node l m r _ p, root, queue =>
    let (root, q) := addnode p m root
    let (root, queue) := walkadd l root (q.toList ++ queue)
    walkadd r root queue

-- While there is something in the queue.
def merge : Nat → Tree A G → List (Tree A G) → Option (Tree A G)
  | _,     root, []         => return root
  | 0,     _,    _ :: _     => none
  | k + 1, root, p :: queue =>
    let (root, queue) := walkadd p root queue
    merge k root queue

def addroute (k : Nat) (p : Route A G) (root : Tree A G) : Option (Tree A G) :=
  let (root, q) := addnode p nil root
  merge k root q.toList

-- The node, and what the tree is with another one there.
def looknode (rt : Range A) : Tree A G → Option (Tree A G × (Tree A G → Tree A G))
  | nil            => none
  | node l m r d p =>
    match rangecompare rt p.range with
    | .Rcontains  => none
    | .Rpreceeds  => (looknode rt l).map fun (q, put) => (q, fun l => node (put l) m r d p)
    | .Rfollows   => (looknode rt r).map fun (q, put) => (q, fun r => node l m (put r) d p)
    | .Rcontained => (looknode rt m).map fun (q, put) => (q, fun m => node l (put m) r d p)
    | .Requals    => some (node l m r d p, id)

def addqueue (q : List (Tree A G)) : Tree A G → List (Tree A G)
  | nil            => q
  | node l m r d p => node l m r d p :: q

def delroute (k : Nat) (rt : Range A) (root : Tree A G) : Option (Tree A G) :=
  match looknode rt root with
  | some (node l m r d p, put) =>
    let ref := p.ref - 1
    if ref = 0 then
      merge k (put nil) (addqueue (addqueue (addqueue [] l) m) r)
    else
      return put (node l m r d { p with ref })
  | _ => return root

-- The trees from `h` on, `n` of them.
def buckets (g : Tree A G → Option (Tree A G)) : Nat → Nat → (Nat → Tree A G) → Option (Nat → Tree A G)
  | 0,     _, root => return root
  | n + 1, h, root => do
    let t ← g (root h)
    buckets g n (h + 1) (Function.update root h t)

-- The trees of a range.
def eachbucket (H : A → Nat) (rt : Range A) (g : Tree A G → Option (Tree A G)) (root : Nat → Tree A G) :
    Option (Nat → Tree A G) :=
  buckets g (H rt.hi + 1 - H rt.lo) (H rt.lo) root

def search (la : A) (q : Option (Route A G)) : Tree A G → Option (Route A G)
  | nil            => q
  | node l m r _ p =>
    if p.range.lo ≤ la then
      if la ≤ p.range.hi then search la (some p) m else search la q r
    else
      search la q l

-- The node of `q` as it is now.
def Tree.set (q : Route A G) : Tree A G → Tree A G
  | nil            => nil
  | node l m r d p => node (l.set q) (m.set q) (r.set q) d (if p.range = q.range then q else p)

-- The interfaces: which is found for an address, and the number that is on it now.
structure Ifcs where
  findipifc : IPaddr → UInt8 → Option Nat
  ifcid     : Nat → UInt8

-- The interface of a route, where it is the same still, or the one for its gate.
def Ifcs.resolve (ifcs : Ifcs) (gate : Route A G → IPaddr) (q : Route A G) : Option (Route A G) :=
  if q.ifc.any fun ifc => q.ifcid = ifcs.ifcid ifc then
    return q
  else do
    let ifc ← ifcs.findipifc (gate q) q.type
    return { q with ifc, ifcid := ifcs.ifcid ifc }

def lookup (ifcs : Ifcs) (gate : Route A G → IPaddr) (la : A) (root : Tree A G) : Option (Route A G) × Tree A G :=
  match search la none root with
  | none   => (none, root)
  | some q =>
    match ifcs.resolve gate q with
    | none   => (none, root)
    | some q => (some q, root.set q)

-- The nodes that begin in bucket `h`.
def rr (H : A → Nat) (h : Nat) : Tree A G → List (Route A G)
  | nil            => []
  | node l m r _ p => rr H h l ++ (if H p.range.lo = h then [p] else []) ++ rr H h m ++ rr H h r

def ipwalkroutes (H : A → Nat) (root : Nat → Tree A G) : List (Route A G) :=
  (List.range (1 <<< Lroot)).flatMap fun h => rr H h (root h)

-- Whether the first bytes are the same, up to a zero.
def strncmp (tag : List UInt8) (r : Tag) : List (Fin 4) → Bool
  | []      => true
  | i :: is =>
    if tag.getD i 0 ≠ r i then false
    else if tag.getD i 0 = 0 then true
    else strncmp tag r is

-- Where there is no tag, any is right.
def flushed (tag : Option (List UInt8)) (r : Route A G) : Bool :=
  r.type &&& Rifc = 0 ∧ tag.all (strncmp · r.tag (List.finRange 4))

-- The route that is deleted, if there is one.
def routeflush (tag : Option (List UInt8)) : Tree A G → Option (Route A G)
  | nil            => none
  | node l m r _ p =>
    match routeflush tag m with
    | some q => some q
    | none   =>
      match routeflush tag l with
      | some q => some q
      | none   =>
        match routeflush tag r with
        | some q => some q
        | none   => if flushed tag p then some p else none

-- While the tree of `h` changes.
def flushbucket (del : Range A → (Nat → Tree A G) → Option (Nat → Tree A G)) (tag : Option (List UInt8)) (h : Nat) :
    Nat → (Nat → Tree A G) → Option (Nat → Tree A G)
  | 0,     _    => none
  | j + 1, root =>
    match routeflush tag (root h) with
    | none   => return root
    | some q => del q.range root >>= flushbucket del tag h j

def flush (del : Range A → (Nat → Tree A G) → Option (Nat → Tree A G)) (tag : Option (List UInt8)) (j : Nat)
    (root : Nat → Tree A G) : Option (Nat → Tree A G) :=
  (List.range (1 <<< Lroot)).foldlM (fun root h => flushbucket del tag h j root) root

end

-- The addresses of version 4.
@[ext]
structure V4 where
  word : BitVec 32

-- Four words, the first the highest.
@[ext]
structure V6 where
  word : Fin 4 → BitVec 32

def lcmp.loop (a b : V6) : List (Fin 4) → Int
  | []      => 0
  | i :: is =>
    if b.word i < a.word i then 1
    else if a.word i < b.word i then -1
    else loop a b is

-- compare 2 v6 addresses
def lcmp (a b : V6) : Int :=
  lcmp.loop a b (List.finRange 4)

def V4.toNat (a : V4) : Nat :=
  a.word.toNat

def V6.toNat (a : V6) : Nat :=
  (((a.word 0).toNat * 2 ^ 32 + (a.word 1).toNat) * 2 ^ 32 + (a.word 2).toNat) * 2 ^ 32 + (a.word 3).toNat

theorem V4.toNat_inj : Function.Injective V4.toNat :=
  fun _ _ h => V4.ext (BitVec.eq_of_toNat_eq h)

instance : LinearOrder V4 :=
  LinearOrder.lift' V4.toNat V4.toNat_inj

theorem V6.toNat_inj : Function.Injective V6.toNat := by
  intro a b h
  have ha := fun i => (a.word i).isLt
  have hb := fun i => (b.word i).isLt
  have h0 := ha 0; have h1 := ha 1; have h2 := ha 2; have h3 := ha 3
  have h0' := hb 0; have h1' := hb 1; have h2' := hb 2; have h3' := hb 3
  rw [V6.toNat, V6.toNat] at h
  have hword : ∀ i, a.word i = b.word i := by
    rw [Fin.forall_fin_succ, Fin.forall_fin_succ, Fin.forall_fin_succ, Fin.forall_fin_succ]
    refine ⟨?_, ?_, ?_, ?_, fun i => i.elim0⟩ <;> refine BitVec.eq_of_toNat_eq ?_
    · change (a.word 0).toNat = (b.word 0).toNat
      omega
    · change (a.word 1).toNat = (b.word 1).toNat
      omega
    · change (a.word 2).toNat = (b.word 2).toNat
      omega
    · change (a.word 3).toNat = (b.word 3).toNat
      omega
  exact V6.ext (funext hword)

theorem lcmp_spec (a b : V6) : (lcmp a b < 0 ↔ a.toNat < b.toNat) ∧ (lcmp a b ≤ 0 ↔ a.toNat ≤ b.toNat) := by
  have hall : List.finRange 4 = [0, 1, 2, 3] := rfl
  have ha := fun i => (a.word i).isLt
  have hb := fun i => (b.word i).isLt
  have h1 := ha 1; have h2 := ha 2; have h3 := ha 3
  have h1' := hb 1; have h2' := hb 2; have h3' := hb 3
  rw [lcmp, hall, V6.toNat, V6.toNat]
  simp only [lcmp.loop, BitVec.lt_def]
  split_ifs <;> omega

instance : LinearOrder V6 where
  le a b                := lcmp a b ≤ 0
  lt a b                := lcmp a b < 0
  le_refl a             := (lcmp_spec a a).right.mpr le_rfl
  le_trans a b c h h'   := (lcmp_spec a c).right.mpr (((lcmp_spec a b).right.mp h).trans ((lcmp_spec b c).right.mp h'))
  le_antisymm a b h h'  := V6.toNat_inj (le_antisymm ((lcmp_spec a b).right.mp h) ((lcmp_spec b a).right.mp h'))
  lt_iff_le_not_ge a b  := by
    rw [(lcmp_spec a b).left, (lcmp_spec a b).right, (lcmp_spec b a).right]
    omega
  le_total a b          := by
    rw [(lcmp_spec a b).right, (lcmp_spec b a).right]
    exact Nat.le_total ..
  toDecidableLE a b     := inferInstanceAs (Decidable (lcmp a b ≤ 0))

theorem V4.le_or (a mask : V4) : (⟨a.word &&& mask.word⟩ : V4) ≤ ⟨a.word &&& mask.word ||| ~~~mask.word⟩ := by
  change (a.word &&& mask.word).toNat ≤ (a.word &&& mask.word ||| ~~~mask.word).toNat
  rw [BitVec.toNat_or]
  exact Nat.left_le_or

theorem V6.le_or (a mask : V6) :
    (⟨fun i => a.word i &&& mask.word i⟩ : V6) ≤ ⟨fun i => a.word i ||| ~~~mask.word i⟩ := by
  have hword (i : Fin 4) : (a.word i &&& mask.word i).toNat ≤ (a.word i ||| ~~~mask.word i).toNat := by
    rw [BitVec.toNat_and, BitVec.toNat_or]
    exact Nat.and_le_left.trans Nat.left_le_or
  have h0 := hword 0; have h1 := hword 1; have h2 := hword 2; have h3 := hword 3
  refine (lcmp_spec _ _).right.mpr ?_
  rw [V6.toNat, V6.toNat]
  dsimp only
  omega

-- The addresses that agree with one in the bits of a mask, where these are the first bits.
def v4range (a mask : V4) : Range V4 :=
  ⟨⟨a.word &&& mask.word⟩, ⟨a.word &&& mask.word ||| ~~~mask.word⟩, V4.le_or a mask⟩

def v6range (a mask : V6) : Range V6 :=
  ⟨⟨fun i => a.word i &&& mask.word i⟩, ⟨fun i => a.word i ||| ~~~mask.word i⟩, V6.le_or a mask⟩

def V4H (a : V4) : Nat :=
  ((a.word &&& 0x07ffffff) >>> (32 - Lroot - 5)).toNat

def V6H (a : V6) : Nat :=
  ((a.word 3 &&& 0x07ffffff) >>> (32 - Lroot - 5)).toNat

abbrev V4gate := Fin 4 → UInt8

structure Fs where
  v4root : Nat → Tree V4 V4gate
  v6root : Nat → Tree V6 IPaddr

def Fs.init : Fs :=
  ⟨fun _ => .nil, fun _ => .nil⟩

-- `k` is how many turns there are for the queue.
def v4addroute (k : Nat) (tag : Tag) (a mask : V4) (gate : V4gate) (type : UInt8) (f : Fs) : Option Fs := do
  let rt := v4range a mask
  let p : Route V4 V4gate := ⟨Rv4 ||| type, 0, none, tag, 1, rt, gate⟩
  let v4root ← eachbucket V4H rt (addroute k p) f.v4root
  return { f with v4root }

def v6addroute (k : Nat) (tag : Tag) (a mask : V6) (gate : IPaddr) (type : UInt8) (f : Fs) : Option Fs := do
  let rt := v6range a mask
  let p : Route V6 IPaddr := ⟨type, 0, none, tag, 1, rt, gate⟩
  let v6root ← eachbucket V6H rt (addroute k p) f.v6root
  return { f with v6root }

def v4delroute (k : Nat) (a mask : V4) (f : Fs) : Option Fs := do
  let rt := v4range a mask
  let v4root ← eachbucket V4H rt (delroute k rt) f.v4root
  return { f with v4root }

def v6delroute (k : Nat) (a mask : V6) (f : Fs) : Option Fs := do
  let rt := v6range a mask
  let v6root ← eachbucket V6H rt (delroute k rt) f.v6root
  return { f with v6root }

def hnputl (w : BitVec 32) : Fin 4 → UInt8 :=
  fun i => .ofBitVec ((w >>> (24 - 8 * i.val)).setWidth 8)

-- Where the interface of a route is looked for.
def v4gate (q : Route V4 V4gate) : IPaddr :=
  if q.type &&& Rifc ≠ 0 then v4tov6 (hnputl q.range.lo.word) else v4tov6 q.gate

def v6gate (q : Route V6 IPaddr) : IPaddr :=
  if q.type &&& Rifc ≠ 0 then fun i => hnputl (q.range.lo.word ⟨i.val / 4, by omega⟩) ⟨i.val % 4, by omega⟩ else q.gate

def v4lookup (ifcs : Ifcs) (a : V4) (f : Fs) : Option (Route V4 V4gate) × Fs :=
  let (q, t) := lookup ifcs v4gate a (f.v4root (V4H a))
  (q, { f with v4root := Function.update f.v4root (V4H a) t })

-- An address of version 4 as one of version 6.
def V6.isv4 (a : V6) : Bool :=
  a.word 0 = 0 ∧ a.word 1 = 0 ∧ a.word 2 = 0xffff

def v6lookup (ifcs : Ifcs) (a : V6) (f : Fs) : Option (Route V4 V4gate ⊕ Route V6 IPaddr) × Fs :=
  match if a.isv4 then v4lookup ifcs ⟨a.word 3⟩ f else (none, f) with
  | (some q, f) => (some (.inl q), f)
  | (none, f)   =>
    let (q, t) := lookup ifcs v6gate a (f.v6root (V6H a))
    (q.map .inr, { f with v6root := Function.update f.v6root (V6H a) t })

-- The address and the mask of a route.
def V4.conv (rt : Range V4) : V4 × V4 :=
  (rt.lo, ⟨~~~(rt.hi.word ^^^ rt.lo.word)⟩)

def V6.conv (rt : Range V6) : V6 × V6 :=
  (rt.lo, ⟨fun i => ~~~(rt.hi.word i ^^^ rt.lo.word i)⟩)

-- The routes of each version that have the tag, or any.
def routeflushes (k j : Nat) (tag : Option (List UInt8)) (f : Fs) : Option Fs := do
  let v4root ← flush (fun rt root => do
    let f ← v4delroute k (V4.conv rt).fst (V4.conv rt).snd { f with v4root := root }
    return f.v4root) tag j f.v4root
  let v6root ← flush (fun rt root => do
    let f ← v6delroute k (V6.conv rt).fst (V6.conv rt).snd { f with v6root := root }
    return f.v6root) tag j f.v6root
  return { v4root, v6root }

end Ip.Iproute
