import Nix.Port.MntrpcreadRuns
import Nix.Port.QioBlocks

-- Lists of blocks that are not on a queue. The state is that of the blocks of one list, which are what is in `live`.
namespace Port.Qio

open Devmnt (Allocator)

namespace Queue

variable (A : Allocator) (q : Queue)

def blocklen : Nat → Option Addr → Int → Option Int
  | _, none, len => some len
  | 0, some _, _ => none
  | fuel + 1, some bp, len => do
    let b ← q.get bp
    blocklen fuel (q.next bp) (int32 (len + b.blen))

-- A block is allocated. There is none of a negative length, for which there is no memory.
def alloc (len : Int) : Option (Addr × Block) :=
  if len < 0 then none
  else
    let a := A.alloc q.live len.toNat
    (q.allocb a len.toNat).map (a, ·)

-- It panics where there is more than one block, and for the back it does so before it looks for space there.
def padblock (bp : Addr) (size : Int) : Option (Queue × Addr) := do
  let b ← q.get bp
  if 0 ≤ size then
    if size ≤ b.rp - b.base then some (q.set bp { b with rp := b.rp - size.toNat }, bp)
    else if q.next bp ≠ none then none
    else
      let (nbp, nb) ← q.alloc A (int32 (size + b.blen))
      let nb := { nb with rp := nb.rp + size.toNat, wp := nb.rp + size.toNat }.fill b.bytes
      some ((((q.came nbp).enter nbp { nb with rp := nb.rp - size.toNat }).leave bp).freeb bp, nbp)
  else
    let size := int32 (-size)
    if q.next bp ≠ none then none
    else if size ≤ b.lim - b.wp then some (q, bp)
    else
      let (nbp, nb) ← q.alloc A (int32 (size + b.blen))
      some ((((q.came nbp).enter nbp (nb.fill b.bytes)).leave bp).freeb bp, nbp)

-- The loop of `concatblock`, which copies the data to the end of the new block.
def concat : Nat → Option Addr → Block → Option Block
  | _, none, nb => some nb
  | 0, some _, _ => none
  | fuel + 1, some f, nb => do
    let b ← q.get f
    concat fuel (q.next f) (nb.fill b.bytes)

def concatblock (bp : Addr) : Option (Queue × Addr) := do
  let _ ← q.get bp
  if q.next bp = none then some (q, bp)
  else
    let (nbp, nb) ← q.alloc A (← q.blocklen q.live.length (some bp) 0)
    let nb ← q.concat q.live.length (some bp) nb
    let q ← freeblist q.live.length (q.came nbp) (some bp)
    some (q.enter nbp nb, nbp)

-- The loop of `trimblock` that frees what is before the first block with the data.
def skipto : Nat → Queue → Addr → Nat → Option (Queue × Addr × Nat)
  | 0, _, _, _ => none
  | fuel + 1, q, bp, offset => do
    let b ← q.get bp
    if b.blen < offset then
      let nb ← q.next bp
      skipto fuel ((q.leave bp).freeb bp) nb (offset - b.blen)
    else some (q, bp, offset)

-- The loop that finds the last block with the data, and how much it has of them.
def endof : Nat → Addr → Nat → Option (Addr × Nat)
  | 0, _, _ => none
  | fuel + 1, bp, len => do
    let b ← q.get bp
    if b.blen < len then
      let nb ← q.next bp
      endof fuel nb (len - b.blen)
    else some (bp, len)

def trimblock (bp : Addr) (offset len : Nat) : Option (Queue × Option Addr) := do
  let n ← q.blocklen q.live.length (some bp) 0
  if n < int32 (offset + len) then
    let q ← freeblist q.live.length q (some bp)
    some (q, none)
  else
    let (q, startb, offset) ← skipto q.live.length q bp offset
    let b ← q.get startb
    let q := q.set startb (b.skip offset)
    let (bp, len) ← q.endof q.live.length startb len
    let b ← q.get bp
    let q := q.set bp (b.cut len)
    let q ← freeblist q.live.length q (q.next bp)
    some (q.setnext bp none, some startb)

-- `l` has the block whose `next` is the link to the block that comes now. It has none for `bp` itself.
def packblock : Nat → Queue → Option Addr → Option Addr → Option (Queue × Option Addr)
  | 0, _, _, _ => none
  | fuel + 1, q, bp, l =>
    match l.elim bp q.next with
    | none     => some (q, bp)
    | some nbp => do
      let b ← q.get nbp
      let n := b.blen
      if int32 (n <<< 2) < b.balloc then
        let (new, nb) ← q.alloc A n
        let q := ((q.came new).enter new (nb.fill b.bytes)).setnext new (q.next nbp)
        let q := { q with next := updateAt q.next l (some new) }
        packblock fuel ((q.leave nbp).freeb nbp) (if l = none then some new else bp) (some new)
      else packblock fuel q bp (some nbp)

-- The result has what `*bph` is then, and how many bytes are thrown away.
def pullblock : Nat → Queue → Option Addr → Nat → Option (Queue × Option Addr × Nat)
  | 0, _, _, _ => none
  | fuel + 1, q, bph, count =>
    match bph with
    | none    => some (q, none, 0)
    | some bp =>
      if count = 0 then some (q, some bp, 0)
      else do
        let b ← q.get bp
        let n := if count < b.blen then count else b.blen
        let b := b.skip n
        let q := q.set bp b
        let (q, bph) := if b.blen = 0 then ((q.leave bp).freeb bp, q.next bp) else (q, some bp)
        let (q, bph, bytes) ← pullblock fuel q bph (count - n)
        some (q, bph, n + bytes)

end Queue

-- A list of blocks of a caller, in which each block is given back once.
structure Held (q : Queue) (l : List (Addr × Block)) : Prop extends Chained q l where
  owns : Owns q.trace q.live

-- The list has these bytes. If there is none, all blocks are freed.
def Queue.Gives (q : Queue) (r : Option Addr) (p : List Byte) : Prop :=
  ∃ l, Held q l ∧ r = (l.map Prod.fst).head? ∧ bytes l = p

variable {A : Allocator} {q q' : Queue} {l m k : List (Addr × Block)} {p : List Byte}

namespace Chained

theorem next_mid (h : Chained q (k ++ (a, b) :: l)) : q.next a = (l.map Prod.fst).head? := by
  have hl := h.links
  rw [List.map_append, List.map_cons] at hl
  exact hl.apply_mid

theorem blocklen (h : Chained q (k ++ l)) (hfuel : l.length ≤ fuel) (hs : n + Qio.blocklen l < 2 ^ 31) :
    q.blocklen fuel (l.map Prod.fst).head? n = some ((n + Qio.blocklen l : Nat) : Int) := by
  induction fuel generalizing k l n
  case zero =>
    obtain rfl := List.length_eq_zero_iff.mp <| Nat.le_zero.mp hfuel
    rfl
  case succ fuel ih =>
    cases l
    case nil => rfl
    case cons x l =>
      obtain ⟨a, b⟩ := x
      rw [blocklen_cons] at hs ⊢
      have hadd : int32 ((n : Int) + b.blen) = (n + b.blen : Nat) := by
        rw [← Int.natCast_add]
        exact int32_eq_self (by omega)
      have hrest := ih (k := k ++ [(a, b)]) (l := l) (n := n + b.blen) (by simpa using h)
        (Nat.le_of_succ_le_succ hfuel) (by omega)
      simp only [List.map_cons, List.head?_cons, Queue.blocklen, h.get (List.mem_append_right k List.mem_cons_self),
        Option.bind_eq_bind, Option.bind_some, h.next_mid, hadd, hrest, Nat.add_assoc]

theorem concat {nb : Block} (h : Chained q (k ++ l)) (hfuel : l.length ≤ fuel) (hok : nb.Ok)
    (hroom : nb.wp + Qio.blocklen l ≤ nb.lim) :
    ∃ nb', q.concat fuel (l.map Prod.fst).head? nb = some nb' ∧ nb'.Ok ∧ nb'.bytes = nb.bytes ++ bytes l := by
  induction fuel generalizing k l nb
  case zero =>
    obtain rfl := List.length_eq_zero_iff.mp <| Nat.le_zero.mp hfuel
    exact ⟨nb, rfl, hok, (List.append_nil _).symm⟩
  case succ fuel ih =>
    cases l
    case nil => exact ⟨nb, rfl, hok, (List.append_nil _).symm⟩
    case cons x l =>
      obtain ⟨a, b⟩ := x
      rw [blocklen_cons] at hroom
      have hlen := b.length_bytes
      have hfill : (nb.fill b.bytes).Ok := hok.fill (by omega)
      have hroom' : (nb.fill b.bytes).wp + Qio.blocklen l ≤ (nb.fill b.bytes).lim := by
        simp only [Block.fill]
        omega
      obtain ⟨nb', hnb, hok', hbytes⟩ := ih (k := k ++ [(a, b)]) (by simpa using h) (Nat.le_of_succ_le_succ hfuel)
        hfill hroom'
      refine ⟨nb', ?_, hok', ?_⟩
      · simp only [List.map_cons, List.head?_cons, Queue.concat, h.get (List.mem_append_right k List.mem_cons_self),
          Option.bind_eq_bind, Option.bind_some, h.next_mid, hnb]
      · rw [hbytes, Block.bytes_fill hok.right.left, bytes_cons, List.append_assoc]

theorem freeblist (h : Chained q (k ++ l)) (hfuel : l.length ≤ fuel) :
    ∃ live trace, Queue.freeblist fuel q (l.map Prod.fst).head? = some { q with live, trace } ∧ live.Perm (k.map Prod.fst) := by
  have hf : Follows q.next (l.map Prod.fst) := by
    have hl := h.links
    rw [List.map_append] at hl
    exact hl.of_append
  have hp : q.live.Perm (l.map Prod.fst ++ k.map Prod.fst) := by
    have := h.live
    rw [List.map_append] at this
    exact this.trans List.perm_append_comm
  clear h
  induction fuel generalizing q l
  case zero =>
    obtain rfl := List.length_eq_zero_iff.mp <| Nat.le_zero.mp hfuel
    exact ⟨q.live, q.trace, rfl, hp⟩
  case succ fuel ih =>
    cases l
    case nil => exact ⟨q.live, q.trace, rfl, hp⟩
    case cons x l =>
      obtain ⟨a, b⟩ := x
      have hget : q.get a = some (q.blk a) := if_pos <| hp.mem_iff.mpr (by simp)
      have hnext : q.next a = (l.map Prod.fst).head? := hf.left
      have hp' : (q.live.erase a).Perm (l.map Prod.fst ++ k.map Prod.fst) := by
        have := hp.erase a
        rwa [List.map_cons, List.cons_append, List.erase_cons_head] at this
      obtain ⟨live, trace, hq, hlive⟩ := ih (q := (q.leave a).freeb a) (Nat.le_of_succ_le_succ hfuel) hf.right hp'
      refine ⟨live, trace, ?_, hlive⟩
      simp only [List.map_cons, List.head?_cons, Queue.freeblist, hget, Option.bind_eq_bind, Option.bind_some, hnext, hq]
      rfl

theorem replace {old nb : Block} (h : Chained q (k ++ (a, old) :: l)) (hnew : new ∉ q.live) (hok : nb.Ok)
    (hb : q'.blk = Function.update q.blk new nb)
    (ht : q'.next = updateAt (Function.update q.next new (q.next a)) (k.map Prod.fst).getLast? (some new))
    (hv : q'.live = (new :: q.live).erase a) : Chained q' (k ++ (new, nb) :: l) := by
  have hnot : new ∉ (k ++ (a, old) :: l).map Prod.fst := fun hm => hnew <| h.live.mem_iff.mpr hm
  have hn := h.nodup
  simp only [List.map_append, List.map_cons] at hn hnot
  rw [List.nodup_middle, List.nodup_cons] at hn
  rw [List.mem_append, List.mem_cons, not_or, not_or] at hnot
  have hn' : (k.map Prod.fst ++ new :: l.map Prod.fst).Nodup := by
    rw [List.nodup_middle, List.nodup_cons, List.mem_append, not_or]
    exact ⟨⟨hnot.left, hnot.right.right⟩, hn.right⟩
  refine ⟨?_, fun x hx => ?_, ?_, by simpa using hn'⟩
  · have hl := h.links
    simp only [List.map_append, List.map_cons] at hl ⊢
    rw [ht, hl.apply_mid]
    refine hl.splice (x := new :: l.map Prod.fst) (hl.of_append.right.cons hnot.right.right) (fun c hc => ?_) hn'
    exact (Function.update_of_ne (ne_of_mem_of_not_mem hc hnot.left) ..).symm
  · have hx : x = (new, nb) ∨ x ∈ k ++ l := by simpa [or_left_comm] using hx
    rw [hb]
    rcases hx with rfl | hx
    · exact ⟨Function.update_self .., hok⟩
    · have hmem : x ∈ k ++ (a, old) :: l := by
        rcases List.mem_append.mp hx with hx | hx
        · exact List.mem_append_left _ hx
        · exact List.mem_append_right _ <| List.mem_cons_of_mem _ hx
      have hne : x.fst ≠ new := fun he => hnew <| h.live.mem_iff.mpr <| List.mem_map.mpr ⟨x, hmem, he⟩
      exact ⟨(Function.update_of_ne hne ..).trans (h.blks x hmem).left, (h.blks x hmem).right⟩
  · have hlive := (h.live.cons new).erase a
    rw [hv]
    refine hlive.trans ?_
    simp only [List.map_append, List.map_cons]
    have hperm : (new :: (k.map Prod.fst ++ a :: l.map Prod.fst)).Perm (a :: (k.map Prod.fst ++ new :: l.map Prod.fst)) :=
      ((List.perm_middle.cons new).trans (.swap ..)).trans (List.perm_middle.symm.cons a)
    have := hperm.erase a
    rwa [List.erase_cons_head] at this

end Chained

theorem alloc_eq (A : Allocator) (q : Queue) (n : Nat) :
    ∃ a, q.alloc A n = some (a, .allocb a n) ∧ a ∉ q.live ∧ (Block.allocb a n).Ok ∧ (Block.allocb a n).bytes = [] ∧
      (Block.allocb a n).wp + n ≤ (Block.allocb a n).lim := by
  have hn : ¬(n : Int) < 0 := by omega
  have ha : q.allocb (A.alloc q.live n) n = some (.allocb (A.alloc q.live n) n) :=
    if_pos ⟨A.new q.live n, A.room q.live n⟩
  refine ⟨A.alloc q.live n, ?_, A.new q.live n, Block.allocb_ok (A.room q.live n)⟩
  rw [Queue.alloc, if_neg hn]
  simp only [Int.toNat_natCast, ha, Option.map_some]

namespace Held

theorem mem (h : Held q (k ++ (a, b) :: l)) : a ∈ q.live :=
  h.live.mem_iff.mpr (by simp)

theorem set (h : Held q (k ++ (a, b) :: l)) (hb : b'.Ok) : Held (q.set a b') (k ++ (a, b') :: l) :=
  ⟨h.toChained.set hb, h.owns⟩

theorem leave (h : Held q ((a, b) :: l)) : Held ((q.leave a).freeb a) l :=
  ⟨h.toChained.leave.same rfl rfl rfl, (h.owns.perm <| List.perm_cons_erase <| h.mem (k := [])).release⟩

theorem freed (h : Held q l) (hfuel : l.length ≤ fuel) :
    ∃ q', Queue.freeblist fuel q (l.map Prod.fst).head? = some q' ∧ Held q' [] := by
  obtain ⟨live, trace, hq, hlive⟩ := h.toChained.freeblist (k := []) hfuel
  have howns := Keeps.freeblist (o := []) (by rw [List.append_nil]; exact h.owns) hq
  rw [List.append_nil] at howns
  exact ⟨_, hq, ⟨trivial, by simp, hlive, List.nodup_nil⟩, howns⟩

theorem truncate (h : Held q (k ++ (a, b) :: l)) :
    ∃ q', Queue.freeblist q.live.length q (q.next a) = some q' ∧ Held (q'.setnext a none) (k ++ [(a, b)]) := by
  have hfuel : l.length ≤ q.live.length := by
    rw [h.length, List.length_append, List.length_cons]
    omega
  have hsplit : k ++ (a, b) :: l = (k ++ [(a, b)]) ++ l := by simp
  obtain ⟨live, trace, hq, hlive⟩ := (hsplit ▸ h.toChained : Chained q ((k ++ [(a, b)]) ++ l)).freeblist hfuel
  have howns := Keeps.freeblist (o := []) (by rw [List.append_nil]; exact h.owns) hq
  rw [List.append_nil] at howns
  rw [h.toChained.next_mid]
  refine ⟨_, hq, ⟨?_, fun x hx => h.blks x ?_, hlive, ?_⟩, howns⟩
  · have hl := h.links
    have hn := h.nodup
    simp only [List.map_append, List.map_cons, List.map_nil] at hl hn ⊢
    exact hl.cut hn
  · exact hsplit ▸ List.mem_append_left _ hx
  · refine h.nodup.sublist (List.Sublist.map _ ?_)
    exact hsplit ▸ List.sublist_append_left _ _

-- A block that is allocated takes the place of another one, which is freed.
theorem replace {old nb : Block} (h : Held q (k ++ (a, old) :: l)) (hnew : new ∉ q.live) (hok : nb.Ok)
    (hb : q'.blk = Function.update q.blk new nb)
    (ht : q'.next = updateAt (Function.update q.next new (q.next a)) (k.map Prod.fst).getLast? (some new))
    (hv : q'.live = (new :: q.live).erase a) (hc : q'.trace = .release a :: .acquire new :: q.trace) :
    Held q' (k ++ (new, nb) :: l) := by
  refine ⟨h.toChained.replace hnew hok hb ht hv, ?_⟩
  rw [hc, hv]
  exact ((h.owns.acquire hnew).perm (List.perm_cons_erase <| List.mem_cons_of_mem _ h.mem)).release

theorem skipto (h : Held q ((a, b) :: l)) (hle : offset ≤ blocklen ((a, b) :: l)) (hfuel : l.length < fuel) :
    ∃ q' c d m o, Queue.skipto fuel q a offset = some (q', c, o) ∧ Held q' ((c, d) :: m) ∧ o ≤ d.blen ∧
      (bytes ((c, d) :: m)).drop o = (bytes ((a, b) :: l)).drop offset := by
  induction fuel generalizing q a b l offset
  case zero => contradiction
  case succ fuel ih =>
    rw [Queue.skipto, h.toChained.get List.mem_cons_self]
    simp only [Option.bind_eq_bind, Option.bind_some]
    split
    case isFalse hge => exact ⟨q, a, b, l, offset, rfl, h, Nat.not_lt.mp hge, rfl⟩
    case isTrue hlt =>
      rw [blocklen_cons] at hle
      cases l
      case nil =>
        rw [blocklen_nil] at hle
        omega
      case cons x l =>
        obtain ⟨c, d⟩ := x
        have hnext : q.next a = some c := h.links.left
        obtain ⟨q', c', d', m, o, hq, h', ho, hbytes⟩ := ih h.leave (show offset - b.blen ≤ _ by omega)
          (Nat.lt_of_succ_lt_succ hfuel)
        refine ⟨q', c', d', m, o, by simp only [hnext, Option.bind_some, hq], h', ho, ?_⟩
        have hdrop : b.bytes.drop offset = [] := List.drop_of_length_le (b.length_bytes ▸ Nat.le_of_lt hlt)
        rw [hbytes, bytes_cons a, List.drop_append, b.length_bytes, hdrop, List.nil_append]

end Held

theorem Chained.endof (h : Chained q (k ++ (a, b) :: l)) (hle : len ≤ Qio.blocklen ((a, b) :: l)) (hfuel : l.length < fuel) :
    ∃ m c d r n, (a, b) :: l = m ++ (c, d) :: r ∧ q.endof fuel a len = some (c, n) ∧ n ≤ d.blen ∧
      bytes m ++ d.bytes.take n = (bytes ((a, b) :: l)).take len := by
  induction fuel generalizing k a b l len
  case zero => contradiction
  case succ fuel ih =>
    rw [Queue.endof, h.get (List.mem_append_right k List.mem_cons_self)]
    simp only [Option.bind_eq_bind, Option.bind_some]
    split
    case isFalse hge =>
      have hle := Nat.not_lt.mp hge
      refine ⟨[], a, b, l, len, rfl, rfl, hle, ?_⟩
      rw [bytes_nil, List.nil_append, bytes_cons, List.take_append_of_le_length (b.length_bytes ▸ hle)]
    case isTrue hlt =>
      rw [blocklen_cons] at hle
      cases l
      case nil =>
        rw [blocklen_nil] at hle
        omega
      case cons x l =>
        obtain ⟨c, d⟩ := x
        have hnext : q.next a = some c := h.next_mid
        obtain ⟨m, c', d', r, n, heq, hq, hn, hbytes⟩ := ih (k := k ++ [(a, b)]) (by simpa using h)
          (show len - b.blen ≤ _ by omega) (Nat.lt_of_succ_lt_succ hfuel)
        refine ⟨(a, b) :: m, c', d', r, n, by rw [heq]; rfl, by simp only [hnext, Option.bind_some, hq], hn, ?_⟩
        have htake : b.bytes.take len = b.bytes := List.take_of_length_le (b.length_bytes ▸ Nat.le_of_lt hlt)
        rw [bytes_cons, List.append_assoc, hbytes, bytes_cons a, List.take_append, b.length_bytes, htake]

theorem Block.Ok.space {b : Block} (h : b.Ok) (n : Nat) : -(n : Int) ≤ b.lim - b.wp := by
  have := h.right.right
  omega

theorem Block.bytes_back {b : Block} (h : b.rp ≤ b.wp) (hn : n ≤ b.rp) :
    ∃ pad : List Byte, pad.length = n ∧ { b with rp := b.rp - n }.bytes = pad ++ b.bytes := by
  refine ⟨(List.range' (b.rp - n) n).map b.mem, by simp, ?_⟩
  have hlen : { b with rp := b.rp - n }.blen = n + b.blen := by
    simp only [Block.blen]
    omega
  rw [Block.bytes, hlen, ← List.range'_append_1, List.map_append, Nat.sub_add_cancel hn]
  rfl

theorem Block.Ok.cut {b : Block} (h : b.Ok) (hn : n ≤ b.blen) : (b.cut n).Ok := by
  simp only [Block.Ok, Block.cut, Block.blen] at *
  omega

namespace Held

theorem trimblock (h : Held q ((a, b) :: l)) (hs : blocklen ((a, b) :: l) < 2 ^ 31) (hlen : offset + len < 2 ^ 31) :
    ∃ q' r, q.trimblock a offset len = some (q', r) ∧
      (r = none ↔ blocklen ((a, b) :: l) < offset + len) ∧
      q'.Gives r (if blocklen ((a, b) :: l) < offset + len then [] else ((bytes ((a, b) :: l)).drop offset).take len) := by
  have hcount := h.toChained.blocklen (k := []) (n := 0) (Nat.le_of_eq h.length.symm) (by simpa using hs)
  have hsum : int32 (offset + len) = (offset + len : Nat) := int32_eq_self hlen
  simp only [List.map_cons, List.head?_cons, Nat.cast_zero, Nat.zero_add] at hcount
  rw [Queue.trimblock]
  simp only [hcount, hsum, Option.bind_eq_bind, Option.bind_some, Int.ofNat_lt]
  split
  case isTrue hlt =>
    obtain ⟨q', hq, h'⟩ := h.freed (Nat.le_of_eq h.length.symm)
    rw [List.map_cons, List.head?_cons] at hq
    exact ⟨q', none, by rw [hq]; rfl, iff_of_true rfl hlt, [], h', rfl, rfl⟩
  case isFalse hge =>
    have hlive := h.length
    rw [List.length_cons] at hlive
    obtain ⟨q₁, c, d, m, o, hq₁, h₁, ho, hskip⟩ := h.skipto (show offset ≤ _ by omega)
      (show l.length < q.live.length by omega)
    have hokd : d.Ok := (h₁.blks (c, d) List.mem_cons_self).right
    have h₂ : Held (q₁.set c (d.skip o)) ((c, d.skip o) :: m) := h₁.set (k := []) (hokd.skip ho)
    have hbytes : bytes ((c, d.skip o) :: m) = (bytes ((a, b) :: l)).drop offset := by
      rw [← hskip, bytes_cons, bytes_cons, Block.bytes_skip, List.drop_append_of_le_length (d.length_bytes ▸ ho)]
    have hlen₂ : len ≤ blocklen ((c, d.skip o) :: m) := by
      rw [← length_bytes, hbytes, List.length_drop, length_bytes]
      omega
    have hlive₂ := h₂.length
    rw [List.length_cons] at hlive₂
    obtain ⟨m₁, e, f, r, n, heq, hq₂, hn, htake⟩ :=
      h₂.toChained.endof (k := []) hlen₂ (show m.length < (q₁.set c (d.skip o)).live.length by omega)
    have h₃ : Held (q₁.set c (d.skip o)) (m₁ ++ (e, f) :: r) := heq ▸ h₂
    have hokf : f.Ok := (h₃.blks (e, f) (by simp)).right
    have h₄ := h₃.set (hokf.cut hn)
    obtain ⟨q₅, hq₅, h₅⟩ := h₄.truncate
    have hget : (q₁.set c (d.skip o)).get e = some f := h₃.toChained.get (by simp)
    refine ⟨q₅.setnext e none, some c, ?_, iff_of_false nofun hge, _, h₅, ?_, ?_⟩
    · simp only [hq₁, Option.bind_some, h₁.toChained.get List.mem_cons_self, hq₂, hget, hq₅]
    · cases m₁
      case nil => exact congrArg some (Prod.mk.inj (List.cons.inj heq).left).left
      case cons x m₁ => exact congrArg some (congrArg Prod.fst (List.cons.inj heq).left)
    · rw [bytes_append, bytes_cons, bytes_nil, List.append_nil, Block.bytes_cut hn, htake, hbytes]

theorem pullblock (h : Held q l) (hfuel : l.length < fuel) :
    ∃ q' r, Queue.pullblock fuel q (l.map Prod.fst).head? count = some (q', r, min count (blocklen l)) ∧
      q'.Gives r ((bytes l).drop count) := by
  induction fuel generalizing q l count
  case zero => contradiction
  case succ fuel ih =>
    cases l
    case nil => exact ⟨q, none, by simp [Queue.pullblock], [], h, rfl, by simp⟩
    case cons x l =>
      obtain ⟨a, b⟩ := x
      by_cases hzero : count = 0
      case pos =>
        subst hzero
        exact ⟨q, some a, by simp [Queue.pullblock], _, h, rfl, rfl⟩
      case neg =>
        have hok : b.Ok := (h.blks (a, b) List.mem_cons_self).right
        have hblen (n : Nat) : (b.skip n).blen = b.blen - n := by
          simp only [Block.skip, Block.blen]
          omega
        rw [Queue.pullblock.eq_def]
        simp only [List.map_cons, List.head?_cons, if_neg hzero, h.toChained.get List.mem_cons_self, Option.bind_eq_bind,
          Option.bind_some, hblen]
        by_cases hlt : count < b.blen
        case pos =>
          -- The rest of the block stays.
          have hskip : Held (q.set a (b.skip count)) ((a, b.skip count) :: l) :=
            h.set (k := []) (hok.skip (Nat.le_of_lt hlt))
          have hmin : min count (blocklen ((a, b) :: l)) = count := by
            rw [blocklen_cons]
            omega
          obtain ⟨fuel, rfl⟩ := Nat.exists_eq_succ_of_ne_zero (Nat.ne_of_gt (Nat.zero_lt_of_lt (Nat.lt_of_succ_lt_succ hfuel)))
          refine ⟨_, some a, ?_, _, hskip, rfl, ?_⟩
          · simp only [if_pos hlt, if_neg (Nat.sub_ne_zero_of_lt hlt), Nat.sub_self, Queue.pullblock, if_true,
              Option.bind_some, Nat.add_zero, hmin]
          · rw [bytes_cons, bytes_cons, Block.bytes_skip, List.drop_append_of_le_length (b.length_bytes ▸ Nat.le_of_lt hlt)]
        case neg =>
          have hge := Nat.not_lt.mp hlt
          have hskip : Held (q.set a (b.skip b.blen)) ((a, b.skip b.blen) :: l) := h.set (k := []) (hok.skip (Nat.le_refl _))
          have hnext : (q.set a (b.skip b.blen)).next a = (l.map Prod.fst).head? := h.links.left
          obtain ⟨q', r, hq, hgives⟩ := @ih (q.set a (b.skip b.blen) |>.leave a |>.freeb a) l (count - b.blen)
            hskip.leave (Nat.lt_of_succ_lt_succ hfuel)
          refine ⟨q', r, ?_, ?_⟩
          · have hmin : b.blen + min (count - b.blen) (blocklen l) = min count (blocklen ((a, b) :: l)) := by
              rw [blocklen_cons]
              omega
            simp only [if_neg hlt, Nat.sub_self, if_true, hnext, hq, Option.bind_some, hmin]
          · have hdrop : b.bytes.drop count = [] := List.drop_of_length_le (b.length_bytes ▸ hge)
            rwa [bytes_cons, List.drop_append, hdrop, List.nil_append, b.length_bytes]

theorem concatblock (A : Allocator) (h : Held q ((a, b) :: l)) (hs : blocklen ((a, b) :: l) < 2 ^ 31) :
    ∃ q' r, q.concatblock A a = some (q', r) ∧ q'.Gives (some r) (bytes ((a, b) :: l)) := by
  rw [Queue.concatblock]
  simp only [h.toChained.get List.mem_cons_self, Option.bind_eq_bind, Option.bind_some]
  split
  case isTrue => exact ⟨q, a, rfl, _, h, rfl, rfl⟩
  case isFalse =>
    have hcount := h.toChained.blocklen (k := []) (n := 0) (Nat.le_of_eq h.length.symm) (by simpa using hs)
    simp only [List.map_cons, List.head?_cons, Nat.cast_zero, Nat.zero_add] at hcount
    obtain ⟨n, halloc, hnew, hok, hempty, hroom⟩ := alloc_eq A q (blocklen ((a, b) :: l))
    obtain ⟨nb, hnb, hokn, hbytes⟩ := h.toChained.concat (k := []) (Nat.le_of_eq h.length.symm) hok hroom
    rw [hempty, List.nil_append] at hbytes
    obtain ⟨trace, hq⟩ := Rep.freeblist (h.toChained.same rfl rfl rfl : Chained (q.came n) _) (Nat.le_of_eq h.length.symm)
    have howns : Owns trace ([] ++ [n]) :=
      Keeps.freeblist ((h.owns.acquire hnew).perm (List.perm_append_singleton n q.live).symm) hq
    have hq : Queue.freeblist q.live.length (q.came n) (some a) = _ := hq
    simp only [List.map_cons, List.head?_cons] at hnb
    refine ⟨Queue.enter { q.came n with live := [], trace } n nb, n, ?_, [(n, nb)],
      ⟨⟨?_, ?_, .refl [n], List.nodup_singleton n⟩, howns⟩, rfl, ?_⟩
    · simp only [hcount, Option.bind_some, halloc, hnb, hq]
    · exact ⟨Function.update_self .., trivial⟩
    · intro x hx
      obtain rfl := List.mem_singleton.mp hx
      exact ⟨Function.update_self .., hokn⟩
    · rw [bytes_cons, bytes_nil, List.append_nil, hbytes]

theorem link (h : Held q (k ++ l)) :
    (k.map Prod.fst).getLast?.elim ((k ++ l).map Prod.fst).head? q.next = (l.map Prod.fst).head? := by
  rcases List.eq_nil_or_concat' k with rfl | ⟨k, ⟨z, b⟩, rfl⟩
  · rfl
  · have hz : q.next z = (l.map Prod.fst).head? := (List.append_assoc k _ l ▸ h.toChained :).next_mid
    simpa using hz

theorem packblock (A : Allocator) (h : Held q (k ++ l)) (hfuel : l.length < fuel) :
    ∃ q' r, Queue.packblock A fuel q ((k ++ l).map Prod.fst).head? (k.map Prod.fst).getLast? = some (q', r) ∧
      q'.Gives r (bytes (k ++ l)) := by
  induction fuel generalizing q k l
  case zero => contradiction
  case succ fuel ih =>
    rw [Queue.packblock, h.link]
    cases l
    case nil => exact ⟨q, _, rfl, _, h, rfl, rfl⟩
    case cons x l =>
      obtain ⟨a, b⟩ := x
      have hget : q.get a = some b := h.toChained.get (List.mem_append_right k List.mem_cons_self)
      simp only [List.map_cons, List.head?_cons, Option.bind_eq_bind]
      rw [hget, Option.bind_some]
      have hlast (x : Addr × Block) : ((k ++ [x]).map Prod.fst).getLast? = some x.fst := by simp
      split
      case isFalse =>
        rw [List.append_cons] at h ⊢
        obtain ⟨q', r, hq, hgives⟩ := ih h (Nat.lt_of_succ_lt_succ hfuel)
        exact ⟨q', r, hlast (a, b) ▸ hq, hgives⟩
      case isTrue =>
        obtain ⟨new, halloc, hnew, hok, hempty, hroom⟩ := alloc_eq A q b.blen
        have hfill : ((Block.allocb new b.blen).fill b.bytes).Ok := hok.fill (by rwa [b.length_bytes])
        have hbytes : ((Block.allocb new b.blen).fill b.bytes).bytes = b.bytes := by
          rw [Block.bytes_fill hok.right.left, hempty, List.nil_append]
        obtain ⟨q₁, hq₁⟩ : ∃ q₁, q₁ = ((q.came new).enter new ((Block.allocb new b.blen).fill b.bytes)).setnext new (q.next a) :=
          ⟨_, rfl⟩
        have hlinks : q₁.next = Function.update q.next new (q.next a) := hq₁ ▸ Function.update_idem ..
        have h₁ : Held (({ q₁ with next := updateAt q₁.next (k.map Prod.fst).getLast? (some new) }.leave a).freeb a)
            (k ++ (new, (Block.allocb new b.blen).fill b.bytes) :: l) :=
          h.replace hnew hfill (hq₁ ▸ rfl) (hlinks ▸ rfl) (hq₁ ▸ rfl) (hq₁ ▸ rfl)
        rw [List.append_cons] at h₁
        obtain ⟨q', r, hq, hgives⟩ := ih h₁ (Nat.lt_of_succ_lt_succ hfuel)
        rw [hlast] at hq
        have hhead : ((k ++ [(new, (Block.allocb new b.blen).fill b.bytes)] ++ l).map Prod.fst).head? =
            if (k.map Prod.fst).getLast? = none then some new else ((k ++ (a, b) :: l).map Prod.fst).head? := by
          cases k <;> simp
        rw [hhead] at hq
        refine ⟨q', r, ?_, ?_⟩
        · rw [hq₁] at hq
          rw [halloc, Option.bind_some]
          exact hq
        · simpa [hbytes] using hgives

theorem move {nb : Block} (h : Held q [(a, b)]) (hnew : n ∉ q.live) (hok : nb.Ok) :
    Held ((((q.came n).enter n nb).leave a).freeb a) [(n, nb)] := by
  have hnext : q.next a = none := h.links.left
  refine h.replace (k := []) hnew hok rfl ?_ rfl rfl
  rw [hnext]
  rfl

theorem blk_move {nb : Block} : ((((q.came n).enter n nb).leave a).freeb a).blk n = nb :=
  Function.update_self ..

theorem padblock (A : Allocator) {size : Int} (h : Held q ((a, b) :: l)) (hs : size.natAbs + b.blen < 2 ^ 31) :
    if l = [] ∨ 0 ≤ size ∧ size ≤ b.rp - b.base then
      ∃ q' a' pad, q.padblock A a size = some (q', a') ∧ pad.length = size.toNat ∧
        q'.Gives (some a') (pad ++ bytes ((a, b) :: l)) ∧ -size ≤ (q'.blk a').lim - (q'.blk a').wp
    else q.padblock A a size = none := by
  have hok : b.Ok := (h.blks (a, b) List.mem_cons_self).right
  have hblk : q.blk a = b := (h.blks (a, b) List.mem_cons_self).left
  have hnext : q.next a = none ↔ l = [] := by
    rw [h.toChained.next_mid (k := [])]
    cases l <;> simp
  rw [Queue.padblock, h.toChained.get List.mem_cons_self]
  simp only [Option.bind_eq_bind, Option.bind_some]
  by_cases hsize : 0 ≤ size
  case pos =>
    obtain ⟨n, rfl⟩ := Int.eq_ofNat_of_zero_le hsize
    rw [if_pos hsize]
    by_cases hfits : (n : Int) ≤ b.rp - b.base
    case pos =>
      have hback : { b with rp := b.rp - n }.Ok := by
        simp only [Block.Ok] at *
        omega
      obtain ⟨pad, hpad, hbytes⟩ := Block.bytes_back hok.right.left (show n ≤ b.rp by omega)
      rw [if_pos (.inr ⟨hsize, hfits⟩), if_pos hfits]
      refine ⟨_, a, pad, rfl, hpad, ⟨_, h.set (k := []) hback, rfl, ?_⟩, ?_⟩
      · simp only [bytes_cons, List.nil_append, ← List.append_assoc, ← hbytes]
        rfl
      · simp only [Queue.set, Function.update_self]
        exact hok.space n
    case neg =>
      rw [if_neg hfits]
      by_cases hl : l = []
      case neg => rw [if_neg (not_or.mpr ⟨hl, fun hs => hfits hs.right⟩), if_pos (mt hnext.mp hl)]
      case pos =>
        subst hl
        rw [if_pos (.inl rfl), if_neg (not_not.mpr (hnext.mpr rfl))]
        have hsum : int32 ((n : Int) + b.blen) = (n + b.blen : Nat) := by
          rw [← Int.natCast_add]
          exact int32_eq_self (by omega)
        obtain ⟨new, halloc, hnew, hokn, -, hroom⟩ := alloc_eq A q (n + b.blen)
        obtain ⟨nb, hnb⟩ : ∃ nb, nb = Block.allocb new (n + b.blen) := ⟨_, rfl⟩
        have hwp : nb.wp = nb.rp := by rw [hnb]; rfl
        rw [← hnb] at halloc hokn hroom
        rw [hsum, halloc]
        simp only [Int.toNat_natCast, Option.bind_some]
        have hlen := b.length_bytes
        have hbytes : ({ nb with rp := nb.rp + n, wp := nb.rp + n }.fill b.bytes).bytes = b.bytes := by
          rw [Block.bytes_fill (Nat.le_refl _)]
          simp [Block.bytes, Block.blen]
        obtain ⟨pad, hpad, hpadded⟩ := Block.bytes_back (n := n)
          (b := { nb with rp := nb.rp + n, wp := nb.rp + n }.fill b.bytes) (Nat.le_add_right ..) (Nat.le_add_left ..)
        rw [hbytes] at hpadded
        have hback : { { nb with rp := nb.rp + n, wp := nb.rp + n }.fill b.bytes with rp := nb.rp + n - n }.Ok := by
          simp only [Block.Ok, Block.fill] at *
          omega
        refine ⟨_, new, pad, rfl, hpad, ⟨_, h.move hnew hback, rfl, ?_⟩, ?_⟩
        · rw [bytes_cons, bytes_nil, List.append_nil, bytes_cons, bytes_nil, List.append_nil]
          exact hpadded
        · rw [blk_move]
          exact hback.space n
  case neg =>
    obtain ⟨n, rfl⟩ : ∃ n : Nat, size = -n := ⟨size.natAbs, by omega⟩
    have hneg : int32 (- -(n : Int)) = n := by
      rw [Int.neg_neg]
      exact int32_eq_self (by omega)
    rw [if_neg hsize, hneg]
    by_cases hl : l = []
    case neg => rw [if_neg (not_or.mpr ⟨hl, fun hs => hsize hs.left⟩), if_pos (mt hnext.mp hl)]
    case pos =>
      subst hl
      rw [if_pos (.inl rfl), if_neg (not_not.mpr (hnext.mpr rfl))]
      have hpad : ([] : List Byte).length = (-(n : Int)).toNat := by simp
      by_cases hfits : (n : Int) ≤ b.lim - b.wp
      case pos =>
        rw [if_pos hfits]
        exact ⟨q, a, [], rfl, hpad, ⟨_, h, rfl, rfl⟩, by rw [hblk]; omega⟩
      case neg =>
        have hsum : int32 ((n : Int) + b.blen) = (n + b.blen : Nat) := by
          rw [← Int.natCast_add]
          exact int32_eq_self (by omega)
        obtain ⟨new, halloc, hnew, hokn, hempty, hroom⟩ := alloc_eq A q (n + b.blen)
        rw [if_neg hfits, hsum, halloc]
        simp only [Option.bind_some]
        have hlen := b.length_bytes
        have hfill : ((Block.allocb new (n + b.blen)).fill b.bytes).Ok := hokn.fill (by omega)
        refine ⟨_, new, [], rfl, hpad, ⟨_, h.move hnew hfill, rfl, ?_⟩, ?_⟩
        · simp [Block.bytes_fill hokn.right.left, hempty]
        · rw [blk_move]
          simp only [Block.fill]
          omega

theorem pullupblock (A : Allocator) (h : Held q ((a, b) :: l)) (n : Nat) :
    ∃ q' r, q.pullupblock a n (A.alloc q.live n) = some (q', r) ∧ (r = none ↔ blocklen ((a, b) :: l) < n) ∧
      q'.Gives r (if blocklen ((a, b) :: l) < n then [] else bytes ((a, b) :: l)) ∧ ∀ a', r = some a' → n ≤ (q'.blk a').blen := by
  have hblk : q.blk a = b := (h.blks (a, b) List.mem_cons_self).left
  by_cases hn : n ≤ b.blen
  case pos =>
    have hge : ¬blocklen ((a, b) :: l) < n := by
      rw [blocklen_cons]
      omega
    refine ⟨q, some a, ?_, iff_of_false (by simp) hge, ?_, ?_⟩
    · simp only [Queue.pullupblock, h.toChained.get List.mem_cons_self, Option.bind_eq_bind, Option.bind_some, if_pos hn]
    · rw [if_neg hge]
      exact ⟨_, h, rfl, rfl⟩
    · intro a' ha
      obtain rfl := Option.some.inj ha
      rwa [hblk]
  case neg =>
    have howns : Owns q.trace (q.live ++ []) := by
      rw [List.append_nil]
      exact h.owns
    by_cases hlt : blocklen ((a, b) :: l) < n
    case pos =>
      obtain ⟨q', hq⟩ := Devmnt.pullupblock_none A h.toChained hlt
      obtain ⟨ho, hnone, -⟩ := Keeps.pullupblock h.toChained howns hn hq
      rw [List.append_nil] at ho
      rw [if_pos hlt]
      exact ⟨q', none, hq, iff_of_true rfl hlt, ⟨[], ⟨hnone rfl, ho⟩, rfl, rfl⟩, by simp⟩
    case neg =>
      have hlen : n ≤ b.blen + blocklen l := by
        rw [blocklen_cons] at hlt
        omega
      obtain ⟨q', a', b', l', hq, h', hfull, -, hbytes⟩ :=
        h.toChained.pullupblock hn hlen (Devmnt.allocb_isSome A q _ n fun _ ha => ha)
      obtain ⟨ho, -, -⟩ := Keeps.pullupblock h.toChained howns hn hq
      rw [List.append_nil] at ho
      rw [if_neg hlt]
      refine ⟨q', some a', hq, iff_of_false (by simp) hlt, ⟨_, ⟨h', ho⟩, rfl, hbytes⟩, ?_⟩
      intro _ ha
      obtain rfl := Option.some.inj ha
      rwa [(h'.blks (a', b') List.mem_cons_self).left]

theorem enter (h : Held q l) (hf : q.Fresh [(a, b)]) :
    Held (((q.came a).enter a b).setnext a (l.map Prod.fst).head?) ((a, b) :: l) where
  toChained := (h.toChained.same rfl rfl rfl : Chained (q.came a) l).enter hf
  owns      := h.owns.acquire (hf.right _ (List.mem_singleton_self _)).left

end Held

-- What the functions make of a list whose bytes can be counted by an `int`.
theorem blocks_kept (A : Allocator) (h : Held q ((a, b) :: l)) (hs : blocklen ((a, b) :: l) < 2 ^ 31) :
    (∀ n, ∃ q' r, q.pullupblock a n (A.alloc q.live n) = some (q', r) ∧ (r = none ↔ blocklen ((a, b) :: l) < n) ∧
      q'.Gives r (if blocklen ((a, b) :: l) < n then [] else bytes ((a, b) :: l)) ∧
      ∀ a', r = some a' → n ≤ (q'.blk a').blen) ∧
    (∀ offset len, offset + len < 2 ^ 31 →
      ∃ q' r, q.trimblock a offset len = some (q', r) ∧ (r = none ↔ blocklen ((a, b) :: l) < offset + len) ∧
        q'.Gives r (if blocklen ((a, b) :: l) < offset + len then [] else ((bytes ((a, b) :: l)).drop offset).take len)) ∧
    (∃ q' r, q.concatblock A a = some (q', r) ∧ q'.Gives (some r) (bytes ((a, b) :: l))) ∧
    (∃ q' r, Queue.packblock A (q.live.length + 1) q (some a) none = some (q', r) ∧ q'.Gives r (bytes ((a, b) :: l))) ∧
    (∀ size : Int, size.natAbs + b.blen < 2 ^ 31 →
      if l = [] ∨ 0 ≤ size ∧ size ≤ b.rp - b.base then
        ∃ q' a' pad, q.padblock A a size = some (q', a') ∧ pad.length = size.toNat ∧
          q'.Gives (some a') (pad ++ bytes ((a, b) :: l)) ∧ -size ≤ (q'.blk a').lim - (q'.blk a').wp
      else q.padblock A a size = none) ∧
    ∀ count, ∃ q' r,
      Queue.pullblock (q.live.length + 1) q (some a) count = some (q', r, min count (blocklen ((a, b) :: l))) ∧
        q'.Gives r ((bytes ((a, b) :: l)).drop count) := by
  have hfuel : ((a, b) :: l).length < q.live.length + 1 := by
    rw [h.length]
    exact Nat.lt_succ_self _
  exact ⟨h.pullupblock A, fun _ _ hlen => h.trimblock hs hlen, h.concatblock A hs, h.packblock A (k := []) hfuel,
    fun _ hsize => h.padblock A hsize, fun _ => h.pullblock hfuel⟩

-- A block is allocated by the caller, filled and put before its list.
def Queue.push (q : Queue) (a : Addr) (b : Block) (bp : Option Addr) : Queue :=
  ((q.came a).enter a b).setnext a bp

def filled (a : Addr) (p : List Byte) : Block :=
  (Block.allocb a p.length).fill p

def nothing : Queue :=
  qopen 0 false false

def two : Queue :=
  (nothing.push 2000 (filled 2000 [3, 4]) none).push 1000 (filled 1000 [1, 2]) (some 2000)

theorem held_nothing : Held nothing [] :=
  ⟨⟨trivial, by simp, .refl _, .nil⟩, .nil⟩

theorem held_two : Held two [(1000, filled 1000 [1, 2]), (2000, filled 2000 [3, 4])] :=
  (held_nothing.enter (b := filled 2000 [3, 4]) ⟨List.nodup_singleton _, by simp [nothing, qopen]; decide⟩).enter
    ⟨List.nodup_singleton _, by simp [nothing, qopen, Queue.setnext, Queue.enter]; decide⟩

theorem blocks_kept_two : ∃ q' r, two.concatblock Devmnt.above 1000 = some (q', r) ∧ q'.Gives (some r) [1, 2, 3, 4] :=
  (blocks_kept Devmnt.above held_two (by decide)).right.right.left

-- More than an `int` can count.
def huge : Block :=
  ⟨0, 0, 2 ^ 31, 2 ^ 31, fun _ => 0⟩

theorem not_blocks_kept :
    (¬∀ A q a b l (size : Int), Held q ((a, b) :: l) →
      ∃ q' a' pad, q.padblock A a size = some (q', a') ∧ pad.length = size.toNat ∧
        q'.Gives (some a') (pad ++ bytes ((a, b) :: l))) ∧
    ¬∀ q a b l offset len, Held q ((a, b) :: l) → offset + len ≤ blocklen ((a, b) :: l) →
      ∃ q' r, q.trimblock a offset len = some (q', some r) ∧
        q'.Gives (some r) (((bytes ((a, b) :: l)).drop offset).take len) := by
  refine ⟨fun h => ?_, fun h => ?_⟩
  · obtain ⟨q', a', pad, hq, -⟩ := h Devmnt.above two 1000 _ _ 1000 held_two
    have hnone : two.padblock Devmnt.above 1000 1000 = none := Option.isNone_iff_eq_none.mp (by decide +kernel)
    rw [hnone] at hq
    contradiction
  · have hheld : Held (nothing.push 1000 huge none) [(1000, huge)] :=
      held_nothing.enter ⟨List.nodup_singleton _, by simp [nothing, qopen]; decide⟩
    obtain ⟨q', r, hq, -⟩ := h _ _ _ _ 0 1 hheld (by decide)
    have hnone : ((nothing.push 1000 huge none).trimblock 1000 0 1).map Prod.snd = some none := by decide +kernel
    rw [hq] at hnone
    cases hnone

end Port.Qio
