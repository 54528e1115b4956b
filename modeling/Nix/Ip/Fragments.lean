import Mathlib.Data.List.Basic
import Mathlib.Algebra.Order.Ring.Int

namespace Ip

section

-- Numbers in network order.

def nhgets (p : List UInt8) (i : Nat) : Nat :=
  256 * (p.getD i 0).toNat + (p.getD (i + 1) 0).toNat

def nhgetl (p : List UInt8) (i : Nat) : Nat :=
  65536 * nhgets p i + nhgets p (i + 2)

def hnputs (p : List UInt8) (i v : Nat) : List UInt8 :=
  (p.set i <| .ofNat (v / 256)).set (i + 1) <| .ofNat v

section Bytes

variable {p l : List UInt8} {i j n v : Nat} {x : UInt8}

theorem nhgets_lt (p : List UInt8) (i : Nat) : nhgets p i < 65536 := by
  have h := (p.getD i 0).toNat_lt
  have h' := (p.getD (i + 1) 0).toNat_lt
  simp only [nhgets]
  omega

theorem nhgets_set (h : j ≠ i) (h' : j ≠ i + 1) : nhgets (p.set j x) i = nhgets p i := by
  simp only [nhgets, List.getD_eq_getElem?_getD, List.getElem?_set_ne h, List.getElem?_set_ne h']

theorem nhgets_take (h : i + 1 < n) : nhgets (p.take n) i = nhgets p i := by
  simp only [nhgets, List.getD_eq_getElem?_getD, List.getElem?_take_of_lt h,
    List.getElem?_take_of_lt (Nat.lt_of_succ_lt h)]

theorem drop_hnputs (h : i + 1 < n) : (hnputs p i v).drop n = p.drop n := by
  rw [hnputs, List.drop_set_of_lt (by omega), List.drop_set_of_lt (by omega)]

theorem hnputs_append_left (h : i + 1 < p.length) : hnputs (p ++ l) i v = hnputs p i v ++ l := by
  rw [hnputs, hnputs, List.set_append_left _ _ (by omega), List.set_append_left _ _ (by rw [List.length_set]; exact h)]

theorem hnputs_append_right (p l : List UInt8) (i v : Nat) : hnputs (p ++ l) (p.length + i) v = p ++ hnputs l i v := by
  have hsub : p.length + i + 1 - p.length = i + 1 := by omega
  rw [hnputs, hnputs, List.set_append_right _ _ (by omega), List.set_append_right _ _ (by omega), Nat.add_sub_cancel_left,
    hsub]

@[simp]
theorem hnputs_length (p : List UInt8) (i v : Nat) : (hnputs p i v).length = p.length := by
  rw [hnputs, List.length_set, List.length_set]

theorem nhgets_append_left (h : i + 1 < p.length) : nhgets (p ++ l) i = nhgets p i := by
  simp only [nhgets, List.getD_eq_getElem?_getD]
  rw [List.getElem?_append_left (by omega), List.getElem?_append_left h]

theorem nhgets_append_right (p l : List UInt8) (i : Nat) : nhgets (p ++ l) (p.length + i) = nhgets l i := by
  have hsub : p.length + i + 1 - p.length = i + 1 := by omega
  simp only [nhgets, List.getD_eq_getElem?_getD]
  rw [List.getElem?_append_right (by omega), List.getElem?_append_right (by omega), Nat.add_sub_cancel_left, hsub]

theorem nhgetl_append_right (p l : List UInt8) (i : Nat) : nhgetl (p ++ l) (p.length + i) = nhgetl l i := by
  rw [nhgetl, nhgetl, nhgets_append_right, Nat.add_assoc, nhgets_append_right]

theorem nhgets_hnputs (h : i + 1 < p.length) : nhgets (hnputs p i v) i = v % 65536 := by
  simp only [nhgets, hnputs, List.getD_eq_getElem?_getD]
  rw [List.getElem?_set_ne (by omega), List.getElem?_set_self (by omega),
    List.getElem?_set_self (by rw [List.length_set]; exact h)]
  simp only [Option.getD_some, UInt8.toNat_ofNat']
  omega

end Bytes

-- A block: what was received into its buffer from `rp` on, and how far behind `rp` its `wp` stands, which is
-- beyond the bytes received if it was set from a length that the packet itself gave. `foff` and `flen` are the
-- `Ipfrag` at the block's base.
structure Block where
  rp   : List UInt8
  wp   : Nat
  foff : Nat := 0
  flen : Nat := 0
deriving DecidableEq, Repr

-- A reassembly queue. The two versions of IP tell the queues of different packets apart by different keys.
structure Fragment (κ : Type*) where
  blist : List Block
  key   : κ
  age   : Nat
deriving DecidableEq

-- The reassembly queues in use, and how many are free.
structure Frags (κ : Type*) where
  flisthead : List (Fragment κ)
  fragfree  : Nat
deriving DecidableEq

variable {κ : Type*} [DecidableEq κ]

-- The search for the queue of a packet: the queues before it, without those that are too old, then the queue
-- and what is behind it.
def scan (now : Nat) (key : κ) : List (Fragment κ) → List (Fragment κ) × Option (Fragment κ × List (Fragment κ))
  | []      => ([], none)
  | f :: fs =>
    if f.key = key then
      ([], some (f, fs))
    else
      let (before, rest) := scan now key fs
      (if f.age < now then before else f :: before, rest)

-- The first fragment allocates a queue, if need be the last one on the list.
def ipfragallo (now : Nat) (key : κ) (blist : List Block) (ip : Frags κ) : Frags κ :=
  let f := { blist, key, age := (now + 30000) % 2 ^ 32 }
  if ip.fragfree = 0 then
    { ip with flisthead := f :: ip.flisthead.dropLast }
  else
    { flisthead := f :: ip.flisthead, fragfree := ip.fragfree - 1 }

-- What is left of a block behind its first `ovlap` bytes of data, with the `hdr` bytes in front of it moved up.
def Block.moveup (hdr ovlap : Nat) (l : Block) : Block where
  rp   := l.rp.take hdr ++ l.rp.drop (hdr + ovlap)
  wp   := l.wp - ovlap
  foff := (l.foff + ovlap) % 65536
  flen := l.flen - ovlap

-- Completely covered successors are taken out.
def takeout (hdr fend : Nat) : List Block → List Block
  | []      => []
  | l :: ls =>
    let ovlap := fend - l.foff
    if ovlap = 0 then
      l :: ls
    else if ovlap < l.flen then
      l.moveup hdr ovlap :: ls
    else
      takeout hdr fend ls

-- The block at its position in the queue, `none` if the one before it has all of its bytes.
def enqueue (hdr : Nat) (bp : Block) (blist : List Block) : Option (List Block) :=
  let before := blist.takeWhile (·.foff < bp.foff)
  let rest := bp :: takeout hdr (bp.foff + bp.flen) (blist.dropWhile (·.foff < bp.foff))
  match before.getLast? with
  | none      => some rest
  | some prev =>
    let ovlap := prev.foff + prev.flen - bp.foff
    if ovlap = 0 then
      some (before ++ rest)
    else if ovlap ≥ bp.flen then
      none
    else
      some (before.dropLast ++ { prev with flen := prev.flen - ovlap } :: rest)

-- Whether there is no gap before a fragment that no more are to follow.
def complete (more : Block → Bool) (pktposn : Nat) : List Block → Bool
  | []        => false
  | bl :: bls => bl.foff = pktposn && (!more bl || complete more (pktposn + bl.flen) bls)

-- What the functions `ip4reassemble` and `ip6reassemble` share. They differ in the key, in what a packet that
-- is not `fragmented` looks like, in the `foff` and `flen` of a fragment, in how many bytes of header are moved
-- and in where the flag of `more` fragments is, and in how the `packet` is made of its blocks.
def reassemble
    (hdr : Nat) (more : Block → Bool) (packet : List Block → List Block) (now : Nat) (key : κ)
    (fragmented : Bool) (foff flen : Nat) (ip : Frags κ) (bp : Block) : Option (List Block) × Frags κ :=
  match scan now key ip.flisthead with
  | (before, none) =>
    let ip := { flisthead := before, fragfree := ip.fragfree + (ip.flisthead.length - before.length) }
    if fragmented then
      (none, ipfragallo now key [{ bp with foff, flen }] ip)
    else
      (some [bp], ip)
  | (before, some (f, fs)) =>
    let others := before ++ fs
    let ipfragfree : Frags κ :=
      { flisthead := others, fragfree := ip.fragfree + (ip.flisthead.length - others.length) }
    if fragmented then
      let ip : Frags κ :=
        { flisthead := before ++ f :: fs
          fragfree  := ip.fragfree + (ip.flisthead.length - (before ++ f :: fs).length) }
      match enqueue hdr { bp with foff, flen } f.blist with
      | none       => (none, ip)
      | some blist =>
        if complete more 0 blist then
          (some (packet blist), ipfragfree)
        else
          (none, { ip with flisthead := before ++ { f with blist } :: fs })
    else
      (some [bp], ipfragfree)

end

abbrev IP4HDR : Nat := 20

abbrev IP_DF : Nat := 0x4000
abbrev IP_MF : Nat := 0x2000

structure Key4 where
  src : Nat
  dst : Nat
  id  : Nat
deriving DecidableEq, Repr

namespace Block

-- The fields of the header in front of a block.

def tos (bp : Block) : UInt8 := bp.rp.getD 1 0

def length (bp : Block) : Nat := nhgets bp.rp 2

def frag (bp : Block) : Nat := nhgets bp.rp 6

def key4 (bp : Block) : Key4 where
  src := nhgetl bp.rp 12
  dst := nhgetl bp.rp 16
  id  := nhgets bp.rp 4

-- IP_MF, as it is tested in the queue.
def more4 (bp : Block) : Bool :=
  (bp.rp.getD 6 0).toNat &&& (IP_MF >>> 8) ≠ 0

end Block

-- The packet that the blocks of a complete queue make. The first one keeps its header, and what its header
-- says is the length; of the others the headers are left out.
def packet4 : List Block → List Block
  | []        => []
  | bl :: bls =>
    let len := bl.length + (bls.map Block.flen).sum
    { bl with rp := hnputs bl.rp 2 len, wp := bl.length } ::
      bls.map fun bl => { bl with rp := bl.rp.drop IP4HDR, wp := bl.flen }

def ip4reassemble (now : Nat) (ip : Frags Key4) (offset : Nat) (bp : Block) : Option (List Block) × Frags Key4 :=
  let fragmented := bp.tos ≠ 0 || offset &&& 0xffff &&& (0xffff ^^^ (IP_MF ||| IP_DF)) ≠ 0
  let foff := (offset <<< 3) % 65536
  let flen := (bp.length + (65536 - IP4HDR)) % 65536
  reassemble IP4HDR Block.more4 packet4 now bp.key4 fragmented foff flen ip bp

-- What `ipiput4` does about fragments: it marks those that more are to follow in the field `tos`.
def ipiput4 (now : Nat) (ip : Frags Key4) (bp : Block) : Option (List Block) × Frags Key4 :=
  let frag := bp.frag
  if frag = 0 then
    (some [bp], ip)
  else
    let tos : UInt8 := if frag &&& IP_MF ≠ 0 then 1 else 0
    ip4reassemble now ip frag { bp with rp := bp.rp.set 1 tos }

end Ip
