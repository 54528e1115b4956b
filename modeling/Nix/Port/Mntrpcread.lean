import Nix.Libc.Fcall
import Nix.Port.QioRuns

-- Reading replies off the connection of a mount driver.
namespace Port.Devmnt

section

open LittleEndian (decode)
open Libc (convM2S Fcall Mtype BIT8SZ BIT16SZ BIT32SZ)
open Qio (Addr Block Queue BLOCKALIGN Hdrspc roundup blocklen)

-- Where `allocb` finds space. There is always some, as it waits for it.
structure Allocator where
  alloc : List Addr → Nat → Addr
  new   : ∀ used size, alloc used size ∉ used
  room  : ∀ used size, BLOCKALIGN + roundup (size + Hdrspc) ≤ alloc used size

-- A block has what its driver has put into it.
abbrev Filled := { b : Block // b.Ok }

def chunklen (bs : List Filled) : Nat :=
  (bs.map (·.val.blen)).sum

-- What is used of a mount. `c` is what the reads of the channel return from now on.
structure Mnt where
  q     : Queue
  msize : Int
  c     : List (List Filled)

variable (A : Allocator)

def place (used : List Addr) : List Filled → List (Addr × Block)
  | []      => []
  | b :: bs =>
    let a := A.alloc used 0
    (a, b.val) :: place (a :: used) bs

-- The result says if there are as many bytes in the queue as there are to be. A read that returns no block is like one
-- that returns empty ones.
def doread (len : Int) : Queue → List (List Filled) → Option (Queue × List (List Filled) × Bool)
  | q, c =>
    if q.dlen ≥ len then
      some (q, c, true)
    else
      match c with
      | []      => some (q, [], false)
      | bs :: c =>
        if chunklen bs = 0 then
          some (q, c, false)
        else do
          let q ← q.qaddlist (place A q.live bs)
          doread len q c

-- The loop that hangs the data off of the message. What is behind the end of the message in the last block is put back.
def hang : Nat → Queue → Int → Int → Option (Queue × List (Addr × Block))
  | 0, _, _, _ => none
  | fuel + 1, q, hlen, len => do
    let (q, x) ← q.qremove
    let (a, b) ← x
    let (b, len) := if hlen > 0 then ({ b with rp := b.rp + hlen.toNat }, len - hlen) else (b, len)
    let i : Int := b.wp - b.rp
    if i ≤ len then
      let len := len - i
      if len > 0 then
        let (q, r) ← hang fuel q 0 len
        some (q, (a, b) :: r)
      else
        some (q, [(a, b)])
    else
      let wp := (b.rp + len).toNat
      let n := (i - len).toNat
      let new := A.alloc (a :: q.live) n
      let nb ← q.allocb new n
      some ((q.came new).qputback new (nb.fill <| (List.range' wp n).map b.mem), [(a, { b with wp }) ])

-- If `convM2S` is called, `nap` is the length that it is passed. The blocks are `r->b`.
inductive Outcome
  | failed (nap : Option Nat)
  | read (nap : Nat) (reply : Fcall Nat (Nat × Nat)) (b : List (Addr × Block))

-- There is no result where a pointer is nil that is used. Here there are `len` bytes in the queue, and its block `a` has
-- the length, the type and the tag of a message.
def readreply (mnt : Mnt) (a : Addr) (len : Int) : Option (Mnt × Outcome) := do
  let b ← mnt.q.get a
  let t := b.mem (b.rp + BIT32SZ)
  let hlen : Int := if t = Mtype.Rread.byte then (BIT32SZ + BIT8SZ + BIT16SZ + BIT32SZ : Nat) else len
  let (q, nb) ← mnt.q.pullupqueue hlen.toNat (A.alloc mnt.q.live hlen.toNat)
  let a ← nb
  let b ← q.get a
  let nap := (len % 2 ^ 32).toNat
  match convM2S ⟨b.rp, nap⟩ b.mem with
  | .error _               => none
  | .ok (mem, none)        =>
    let (q, _) ← (q.set a { b with mem }).qdiscard len.toNat
    some ({ mnt with q }, .failed nap)
  | .ok (mem, some (_, f)) =>
    let (q, r) ← hang A (q.live.length + 1) (q.set a { b with mem }) hlen len
    some ({ mnt with q }, .read nap f r)

-- The rest of a message is read. Messages that are too large are not for now.
def readrest (mnt : Mnt) (a : Addr) : Option (Mnt × Outcome) := do
  let b ← mnt.q.get a
  let len := int32 (decode ((List.range' b.rp 4).map b.mem))
  if len > mnt.msize then
    let (q, _) ← mnt.q.qdiscard mnt.q.dlen.toNat
    some ({ mnt with q }, .failed none)
  else
    let (q, c, ok) ← doread A len mnt.q mnt.c
    if !ok then some ({ mnt with q, c }, .failed none) else readreply A { mnt with q, c } a len

def mntrpcread (mnt : Mnt) : Option (Mnt × Outcome) := do
  let (q, c, ok) ← doread A (BIT32SZ + BIT8SZ + BIT16SZ : Nat) mnt.q mnt.c
  if !ok then
    some ({ mnt with q, c }, .failed none)
  else
    let (q, nb) ← q.pullupqueue (BIT32SZ + BIT8SZ + BIT16SZ) (A.alloc q.live (BIT32SZ + BIT8SZ + BIT16SZ))
    let a ← nb
    readrest A { mnt with q, c } a

end

open Qio

-- A queue whose blocks are `l`, in which the bytes are counted right.
structure Counted (q : Queue) (l : List (Addr × Block)) : Prop extends Queued q l where
  dlen  : q.dlen = blocklen l
  small : blocklen l < 2 ^ 31

-- What is still to come on the connection, which ends at a read that returns nothing.
def pending : List (List Filled) → List Byte
  | []      => []
  | bs :: c => if chunklen bs = 0 then [] else bs.flatMap (·.val.bytes) ++ pending c

-- How many bytes are in the queue when there are to be `n`, of which there are `k`, and what is still to come then.
def receive (n : Nat) : Nat → List (List Filled) → Nat × List (List Filled)
  | k, []      => (k, [])
  | k, bs :: c =>
    if n ≤ k then (k, bs :: c) else if chunklen bs = 0 then (k, c) else receive n (k + chunklen bs) c

variable {A : Allocator} {q q' : Queue} {l l' : List (Addr × Block)} {c c' : List (List Filled)} {a : Addr} {b : Block}
variable {n len hdr bound : Nat}

theorem place_spec (A : Allocator) (used : List Addr) (bs : List Filled) :
    ((place A used bs).map Prod.fst).Nodup ∧ (∀ x ∈ place A used bs, x.fst ∉ used ∧ x.snd.Ok) ∧
      (place A used bs).map Prod.snd = bs.map Subtype.val := by
  induction bs generalizing used
  case nil => exact ⟨.nil, nofun, rfl⟩
  case cons b bs ih =>
    obtain ⟨hn, hok, hmap⟩ := ih (A.alloc used 0 :: used)
    refine ⟨List.nodup_cons.mpr ⟨fun hm => ?_, hn⟩, List.forall_mem_cons.mpr ⟨⟨A.new used 0, b.property⟩, fun x hx => ?_⟩, ?_⟩
    · obtain ⟨x, hx, he⟩ := List.mem_map.mp hm
      exact (hok x hx).left <| List.mem_cons.mpr <| .inl he
    · exact ⟨fun hu => (hok x hx).left <| List.mem_cons_of_mem _ hu, (hok x hx).right⟩
    · rw [place, List.map_cons, List.map_cons, hmap]

theorem blocklen_place (A : Allocator) (used : List Addr) (bs : List Filled) :
    blocklen (place A used bs) = chunklen bs := by
  have h := congrArg (fun l => (l.map Block.blen).sum) (place_spec A used bs).right.right
  simp only [List.map_map, Function.comp_def] at h
  exact h

theorem bytes_place (A : Allocator) (used : List Addr) (bs : List Filled) :
    bytes (place A used bs) = bs.flatMap (·.val.bytes) := by
  have h := congrArg (List.flatMap Block.bytes) (place_spec A used bs).right.right
  simp only [List.flatMap_map] at h
  exact h

theorem allocb_isSome (A : Allocator) (q : Queue) (used : List Addr) (n : Nat) (h : ∀ a ∈ q.live, a ∈ used) :
    (q.allocb (A.alloc used n) n).isSome := by
  rw [Queue.allocb, if_pos ⟨fun hm => A.new used n (h _ hm), A.room used n⟩]
  rfl

theorem pullup_none {fuel : Nat} (h : Chained q ((a, b) :: l)) (hroom : b.wp + n ≤ b.lim) (hlen : blocklen l < n)
    (hfuel : l.length < fuel) : ∃ q', Queue.pullup fuel q a n = some (q', none) := by
  induction fuel generalizing q b l n
  case zero => contradiction
  case succ fuel ih =>
    rw [Queue.pullup, h.get List.mem_cons_self]
    rcases l with _ | ⟨⟨c, d⟩, l⟩
    · have hnext : q.next a = none := h.links.left
      rw [hnext]
      exact ⟨_, rfl⟩
    · have hnext : q.next a = some c := h.links.left
      have hok : b.Ok := (h.blks (a, b) List.mem_cons_self).right
      have hd : d.bytes.length = d.blen := d.length_bytes
      rw [blocklen_cons] at hlen
      rw [hnext]
      simp only [Option.bind_eq_bind, Option.bind_some, h.get (List.mem_cons_of_mem _ List.mem_cons_self)]
      rw [if_neg (by omega), if_neg (by omega)]
      have hfill : (b.fill d.bytes).Ok := hok.fill (by omega)
      have h₁ : Chained ((((q.set a (b.fill d.bytes)).setnext a (q.next c)).leave c).freeb c) ((a, b.fill d.bytes) :: l) :=
        (h.set (l := []) hfill).leave_second.same rfl rfl rfl
      refine ih h₁ ?_ (by omega) (Nat.lt_of_succ_lt_succ hfuel)
      simp only [Block.fill]
      omega

theorem pullupblock_none (A : Allocator) (h : Chained q ((a, b) :: l)) (hlen : blocklen ((a, b) :: l) < n) :
    ∃ q', q.pullupblock a n (A.alloc q.live n) = some (q', none) := by
  have hok : b.Ok := (h.blks (a, b) List.mem_cons_self).right
  have hn : ¬n ≤ b.blen := by
    rw [blocklen_cons] at hlen
    omega
  simp only [Queue.pullupblock, h.get List.mem_cons_self, Option.bind_eq_bind, Option.bind_some, if_neg hn]
  split
  case isTrue hlt =>
    obtain ⟨nb, hnb⟩ := Option.isSome_iff_exists.mp <| allocb_isSome A q _ n fun _ h => h
    obtain ⟨hif, he⟩ := Option.ite_none_right_eq_some.mp hnb
    obtain rfl := Option.some.inj he
    obtain ⟨hnew, -, hroom⟩ := Block.allocb_ok hif.right
    have hf : q.Fresh [(A.alloc q.live n, .allocb (A.alloc q.live n) n)] := by
      refine ⟨List.nodup_singleton _, fun x hx => ?_⟩
      obtain rfl := List.mem_singleton.mp hx
      exact ⟨hif.left, hnew⟩
    rw [hnb, Option.bind_some]
    exact pullup_none ((h.same rfl rfl rfl : Chained (q.came _) _).enter hf) hroom hlen
      (show _ < q.live.length + 1 by rw [h.length]; omega)
  case isFalse hge =>
    have hroom : b.wp + (n - b.blen) ≤ b.lim := by
      simp only [Block.Ok, Block.blen] at *
      omega
    rw [blocklen_cons] at hlen
    exact pullup_none h hroom (by omega) (show _ < q.live.length by rw [h.length]; simp)

namespace Counted

theorem qaddlist {bs : List Filled} (h : Counted q l) (hbs : chunklen bs ≠ 0) (hs : blocklen l + chunklen bs < 2 ^ 31) :
    ∃ q', q.qaddlist (place A q.live bs) = some q' ∧ Counted q' (l ++ place A q.live bs) := by
  obtain ⟨hn, hok, -⟩ := place_spec A q.live bs
  have hlen := blocklen_place A q.live bs
  have hne : place A q.live bs ≠ [] := fun he => hbs <| by rw [← hlen, he, blocklen_nil]
  obtain ⟨q', hq, h', -, hdlen, -⟩ := h.addlist ⟨hn, hok⟩ hne
  refine ⟨q', hq, h', ?_, by rwa [blocklen_append, hlen]⟩
  rw [hdlen, h.dlen, blocklen_append, ← Int.natCast_add]
  exact int32_eq_self <| hlen ▸ hs

theorem doread (h : Counted q l) (hl : blocklen l ≤ 2 * bound) (hc : ∀ bs ∈ c, chunklen bs ≤ bound)
    (hb : 2 * bound < 2 ^ 31) (hlen : len ≤ bound) :
    ∃ q' l' c' ok, Devmnt.doread A len q c = some (q', c', ok) ∧ Counted q' (l ++ l') ∧
      blocklen (l ++ l') ≤ 2 * bound ∧ c' <:+ c ∧ receive len (blocklen l) c = (blocklen (l ++ l'), c') ∧
      (ok = true → len ≤ blocklen (l ++ l') ∧ bytes (l ++ l') ++ pending c' = bytes l ++ pending c) ∧
      (ok = false → (bytes l ++ pending c).length < len) := by
  induction c generalizing q l
  case nil =>
    rw [Devmnt.doread]
    split
    case isTrue hge =>
      rw [h.dlen] at hge
      refine ⟨q, [], [], true, rfl, ?_⟩
      rw [List.append_nil]
      exact ⟨h, hl, List.suffix_rfl, rfl, fun _ => ⟨by omega, rfl⟩, nofun⟩
    case isFalse hlt =>
      rw [h.dlen] at hlt
      refine ⟨q, [], [], false, rfl, ?_⟩
      rw [List.append_nil, pending, List.append_nil, length_bytes]
      exact ⟨h, hl, List.suffix_rfl, rfl, nofun, fun _ => by omega⟩
  case cons bs c ih =>
    obtain ⟨hbs, hc⟩ := List.forall_mem_cons.mp hc
    rw [Devmnt.doread]
    split
    case isTrue hge =>
      rw [h.dlen] at hge
      refine ⟨q, [], _, true, rfl, ?_⟩
      rw [List.append_nil]
      exact ⟨h, hl, List.suffix_rfl, if_pos (by omega), fun _ => ⟨by omega, rfl⟩, nofun⟩
    case isFalse hlt =>
      rw [h.dlen] at hlt
      split
      case isTrue h0 =>
        refine ⟨q, [], c, false, rfl, ?_⟩
        rw [List.append_nil, pending, if_pos h0, List.append_nil, length_bytes, receive, if_neg (by omega), if_pos h0]
        exact ⟨h, hl, List.suffix_cons .., rfl, nofun, fun _ => by omega⟩
      case isFalse h0 =>
        obtain ⟨q₁, hq₁, h₁⟩ := h.qaddlist (A := A) h0 (by omega)
        have hlen₁ : blocklen (l ++ place A q.live bs) ≤ 2 * bound := by
          rw [blocklen_append, blocklen_place]
          omega
        obtain ⟨q', l', c', ok, hq, h', hl', hc', hreceive, htrue, hfalse⟩ := ih h₁ hlen₁ hc
        rw [List.append_assoc] at h' hl' hreceive htrue
        rw [blocklen_append l, blocklen_place] at hreceive
        have hp : bytes l ++ pending (bs :: c) = bytes (l ++ place A q.live bs) ++ pending c := by
          rw [pending, if_neg h0, ← bytes_place A q.live bs, bytes_append, List.append_assoc]
        rw [hp]
        refine ⟨q', place A q.live bs ++ l', c', ok, ?_, h', hl', hc'.trans (List.suffix_cons ..), ?_, htrue, hfalse⟩
        · rw [hq₁]
          exact hq
        · rw [receive, if_neg (by omega), if_neg h0, hreceive]

theorem pullupqueue (h : Counted q l) (hne : l ≠ []) (hlen : n ≤ blocklen l) :
    ∃ q' a b l', q.pullupqueue n (A.alloc q.live n) = some (q', some a) ∧ Counted q' ((a, b) :: l') ∧ n ≤ b.blen ∧
      bytes ((a, b) :: l') = bytes l := by
  obtain ⟨q', a, b, l', hq, h', hb, hd, hbytes⟩ := h.toQueued.pullupqueue hne hlen (allocb_isSome A q _ n fun _ h => h)
  have hl : blocklen ((a, b) :: l') = blocklen l := by rw [← length_bytes, hbytes, length_bytes]
  exact ⟨q', a, b, l', hq, ⟨h', by rw [hd, h.dlen, hl], hl ▸ h.small⟩, hb, hbytes⟩

theorem pullupqueue_none (h : Counted q ((a, b) :: l)) (hlen : blocklen ((a, b) :: l) < n) :
    ∃ q', q.pullupqueue n (A.alloc q.live n) = some (q', none) := by
  have hn : ¬n ≤ b.blen := by
    rw [blocklen_cons] at hlen
    omega
  obtain ⟨q', hq⟩ := pullupblock_none A h.toChained hlen
  rw [Queue.pullupqueue, h.bfirst]
  simp only [List.map_cons, List.head?_cons, Option.bind_eq_bind, Option.bind_some, h.get, if_neg hn, hq]
  exact ⟨_, rfl⟩

theorem unlink (h : Counted q ((a, b) :: l)) : Counted (q.unlink a b) l where
  toQueued := h.toQueued.unlink
  dlen     := by
    have := h.small
    change int32 (q.dlen - b.blen) = _
    rw [h.dlen, blocklen_cons] at *
    rw [← int32_eq_self (n := blocklen l) (by omega)]
    congr 1
    omega
  small    := by
    have := h.small
    rw [blocklen_cons] at this
    omega

theorem qremove (h : Counted q ((a, b) :: l)) : q.qremove = some (q.unlink a b, some (a, b)) := by
  rw [Queue.qremove, h.bfirst]
  simp only [List.map_cons, List.head?_cons, h.get, Option.bind_eq_bind, Option.bind_some]

theorem set (h : Counted q ((a, b) :: l)) {b' : Block} (hb : b'.Ok) (hl : b'.blen = b.blen) :
    Counted (q.set a b') ((a, b') :: l) where
  toQueued := h.toQueued.set hb
  dlen     := by
    have := h.dlen
    rw [blocklen_cons] at this ⊢
    rw [hl]
    exact this
  small    := by
    have := h.small
    rw [blocklen_cons] at this ⊢
    rwa [hl]

theorem qputback (h : Counted q l) (hf : q.Fresh [(a, b)]) (hs : b.blen + blocklen l < 2 ^ 31) :
    Counted (q.qputback a b) ((a, b) :: l) where
  toQueued := h.toQueued.qputback hf
  dlen     := by
    change int32 (q.dlen + b.blen) = _
    rw [h.dlen, blocklen_cons, ← Int.natCast_add, Nat.add_comm]
    exact int32_eq_self hs
  small    := by rwa [blocklen_cons]

theorem of_same (h : Counted q l) (hq : Queued q' l) (hd : q'.dlen = q.dlen) : Counted q' l where
  toQueued := hq
  dlen     := hd.trans h.dlen
  small    := h.small

theorem discard {fuel : Nat} (h : Counted q l) (hfuel : l.length < fuel) :
    ∃ q' p l', Queue.discard fuel q n = some (q', p) ∧ Counted q' l' ∧ bytes l' = (bytes l).drop n := by
  induction fuel generalizing q l n
  case zero => contradiction
  case succ fuel ih =>
    rw [Queue.discard]
    split
    case isTrue h0 => exact ⟨q, [], l, rfl, h, by rw [h0, List.drop_zero]⟩
    case isFalse hn =>
      rcases l with _ | ⟨⟨a, b⟩, l⟩
      · rw [h.bfirst]
        exact ⟨q, [], [], rfl, h, by simp⟩
      · rw [h.bfirst]
        simp only [List.map_cons, List.head?_cons, h.get, Option.bind_eq_bind, Option.bind_some]
        have hb : b.bytes.length = b.blen := b.length_bytes
        split
        case isTrue hle =>
          have h₁ : Counted ((q.unlink a b).freeb a) l := h.unlink.of_same (h.unlink.toQueued.same rfl) rfl
          obtain ⟨q', p, l', hq, h', hbytes⟩ := ih (n := n - b.blen) h₁ (Nat.lt_of_succ_lt_succ hfuel)
          rw [hq]
          refine ⟨q', _, l', rfl, h', ?_⟩
          have hnil : b.bytes.drop n = [] := List.drop_eq_nil_of_le (hb ▸ hle)
          rw [hbytes, bytes_cons, List.drop_append, hb, hnil, List.nil_append]
        case isFalse hgt =>
          have hgt : n < b.blen := Nat.not_le.mp hgt
          have hblen : (b.skip n).blen = b.blen - n := by
            simp only [Block.skip, Block.blen]
            omega
          have hd := h.dlen
          have hs := h.small
          rw [blocklen_cons] at hd hs
          refine ⟨_, _, (a, b.skip n) :: l, rfl, ⟨?_, ?_, ?_⟩, ?_⟩
          · exact (h.toQueued.set ((h.blks _ List.mem_cons_self).right.skip (Nat.le_of_lt hgt))).same rfl
          · change int32 (q.dlen - n) = _
            have hsub : q.dlen - n = ↑(b.blen - n + blocklen l) := by omega
            rw [hsub, blocklen_cons, hblen]
            exact int32_eq_self (by omega)
          · rw [blocklen_cons, hblen]
            omega
          · rw [bytes_cons, bytes_cons, Block.bytes_skip, List.drop_append_of_le_length (by omega)]

theorem qdiscard (h : Counted q l) :
    ∃ q' p l', q.qdiscard n = some (q', p) ∧ Counted q' l' ∧ bytes l' = (bytes l).drop n := by
  obtain ⟨q', p, l', hq, h', hb⟩ := h.discard (n := n) (show _ < q.live.length + 1 by rw [h.length]; omega)
  rw [Queue.qdiscard, hq]
  exact ⟨_, _, l', rfl, h'.of_same (h'.toQueued.same rfl) rfl, hb⟩

-- The blocks of a message are taken off, without its header. The last of them may have the start of the next message,
-- which goes back.
theorem hang {fuel : Nat} (h : Counted q ((a, b) :: l)) (hhdr : hdr ≤ b.blen) (hle : hdr ≤ len)
    (hlen : len ≤ blocklen ((a, b) :: l)) (hfuel : l.length < fuel) :
    ∃ q' b' r l', Devmnt.hang A fuel q hdr len = some (q', (a, b') :: r) ∧ Counted q' l' ∧ b'.mem = b.mem ∧
      bytes ((a, b') :: r) = ((bytes ((a, b) :: l)).take len).drop hdr ∧ bytes l' = (bytes ((a, b) :: l)).drop len := by
  induction fuel generalizing q a b l hdr len
  case zero => contradiction
  case succ fuel ih =>
    have hok : b.Ok := (h.blks (a, b) List.mem_cons_self).right
    have hb : b.bytes.length = b.blen := b.length_bytes
    have hif : (if (hdr : Int) > 0 then ({ b with rp := b.rp + (hdr : Int).toNat }, (len : Int) - hdr) else (b, (len : Int))) =
        (b.skip hdr, ((len - hdr : Nat) : Int)) := by
      split
      case isTrue => exact Prod.ext rfl (by dsimp only; omega)
      case isFalse h0 =>
        obtain rfl : hdr = 0 := by omega
        rfl
    have hi : ((b.skip hdr).wp : Int) - (b.skip hdr).rp = ↑(b.blen - hdr) := by
      simp only [Block.Ok, Block.skip, Block.blen] at *
      omega
    have hskip : (b.skip hdr).bytes = b.bytes.drop hdr := Block.bytes_skip ..
    rw [Devmnt.hang, h.qremove]
    simp only [Option.bind_eq_bind, Option.bind_some, hif, hi]
    split
    case isTrue hc =>
      have hc : b.blen ≤ len := by omega
      split
      case isTrue hmore =>
        rw [blocklen_cons] at hlen
        rcases l with _ | ⟨⟨c, d⟩, l⟩
        · rw [blocklen_nil] at hlen
          omega
        obtain ⟨q', d', r, l', hq, h', -, hr, hl'⟩ := ih h.unlink (Nat.zero_le d.blen) (Nat.zero_le (len - b.blen))
          (by omega) (Nat.lt_of_succ_lt_succ hfuel)
        have hrest : ((len - hdr : Nat) : Int) - ↑(b.blen - hdr) = ↑(len - b.blen) := by omega
        have hq : Devmnt.hang A fuel (q.unlink a b) 0 ↑(len - b.blen) = some (q', (c, d') :: r) := hq
        rw [hrest, hq]
        refine ⟨q', _, (c, d') :: r, l', rfl, h', rfl, ?_, ?_⟩
        · have hall : b.bytes.take len = b.bytes := List.take_of_length_le (hb ▸ hc)
          rw [bytes_cons a (b.skip hdr), hr, hskip, List.drop_zero, bytes_cons a b, List.take_append, hall, hb,
            List.drop_append_of_le_length (by omega)]
        · have hnil : b.bytes.drop len = [] := List.drop_eq_nil_of_le (hb ▸ hc)
          rw [hl', bytes_cons a b, List.drop_append, hb, hnil, List.nil_append]
      case isFalse hend =>
        have hend : len = b.blen := by omega
        refine ⟨_, _, [], l, rfl, h.unlink, rfl, ?_, ?_⟩
        · rw [bytes_cons, bytes_nil, List.append_nil, hskip, bytes_cons, hend, ← hb, List.take_left]
        · rw [bytes_cons, hend, ← hb, List.drop_left]
    case isFalse hc =>
      have hc : len < b.blen := by omega
      have hn : ((b.blen - hdr : Nat) - ↑(len - hdr) : Int).toNat = b.blen - len := by omega
      have hwp : (((b.skip hdr).rp : Int) + ↑(len - hdr)).toNat = b.rp + len := by
        simp only [Block.skip]
        omega
      have hlive : ∀ c ∈ (q.unlink a b).live, c ∈ a :: (q.unlink a b).live := fun c hc => List.mem_cons_of_mem _ hc
      obtain ⟨nb, hnb⟩ := Option.isSome_iff_exists.mp <| allocb_isSome A _ _ (b.blen - len) hlive
      obtain ⟨hif', he⟩ := Option.ite_none_right_eq_some.mp hnb
      obtain rfl := Option.some.inj he
      obtain ⟨hnew, hempty, hroom⟩ := Block.allocb_ok hif'.right
      have hxs : (List.range' (b.rp + len) (b.blen - len)).map (b.skip hdr).mem = b.bytes.drop len := by
        rw [← Block.bytes_skip, Block.bytes]
        simp only [Block.skip, Block.blen, Nat.sub_sub]
      have hcut : { b.skip hdr with wp := b.rp + len } = (b.skip hdr).cut (len - hdr) := by
        simp only [Block.skip, Block.cut]
        congr 1
        omega
      simp only [hn, hwp, hnb, Option.bind_some, hxs, hcut]
      have hlen' : (b.bytes.drop len).length = b.blen - len := by rw [List.length_drop, hb]
      have hfill := hnew.fill (p := b.bytes.drop len) (by omega)
      have hbytes := (Block.bytes_fill hnew.right.left (p := b.bytes.drop len)).trans <| by rw [hempty, List.nil_append]
      have hblen := ((Block.allocb _ _).fill _).length_bytes.symm.trans <| (congrArg List.length hbytes).trans hlen'
      have hs := h.small
      rw [blocklen_cons] at hs
      refine ⟨_, _, [], _, rfl, Counted.qputback (l := l) (h.unlink.of_same (h.unlink.toQueued.same rfl) rfl) ⟨?_, ?_⟩ ?_, rfl,
        ?_, ?_⟩
      · exact List.nodup_singleton _
      · intro x hx
        obtain rfl := List.mem_singleton.mp hx
        exact ⟨hif'.left, hfill⟩
      · omega
      · rw [bytes_cons, bytes_nil, List.append_nil, Block.bytes_cut (by simp only [Block.skip, Block.blen] at *; omega), hskip,
          bytes_cons, List.take_append_of_le_length (by omega), List.drop_take]
      · rw [bytes_cons, hbytes, bytes_cons, List.drop_append_of_le_length (by omega)]

end Counted

end Port.Devmnt
