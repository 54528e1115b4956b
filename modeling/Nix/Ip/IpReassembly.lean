import Mathlib.Data.Nat.Bitwise
import Nix.Ip.FragmentsList
import Nix.Ip.FragmentsPieces

namespace Ip

theorem and_two_pow_ne_zero (n i : Nat) : n &&& 2 ^ i ≠ 0 ↔ n / 2 ^ i % 2 = 1 := by
  have : (n.testBit i).toNat * 2 ^ i ≠ 0 ↔ n.testBit i := by
    cases n.testBit i <;> simp
  rw [Nat.and_two_pow, this, Nat.testBit_eq_decide_div_mod_eq, decide_eq_true_iff]

namespace Block

variable {bp : Block}

def fragoff (bp : Block) : Nat :=
  bp.frag % 0x2000 * 8

-- What a fragment that arrives brings of its packet.
def arrived (bp : Block) : Piece UInt8 where
  off  := bp.fragoff
  data := (bp.rp.drop IP4HDR).take (bp.length - IP4HDR)

def More (bp : Block) : Prop :=
  bp.frag &&& IP_MF ≠ 0

def Fragmented (bp : Block) : Prop :=
  bp.fragoff ≠ 0 ∨ bp.More

instance : Decidable bp.More := inferInstanceAs <| Decidable (_ ≠ _)

instance : Decidable bp.Fragmented := inferInstanceAs <| Decidable (_ ∨ _)

theorem more4_iff : bp.more4 ↔ bp.More := by
  have h := (bp.rp.getD (6 + 1) 0).toNat_lt
  rw [more4, More, decide_eq_true_iff, frag, nhgets]
  rw [show IP_MF >>> 8 = 2 ^ 5 from rfl, show IP_MF = 2 ^ 13 from rfl, and_two_pow_ne_zero, and_two_pow_ne_zero]
  omega

theorem more4_moveup {n : Nat} (h : IP4HDR ≤ bp.rp.length) : (bp.moveup IP4HDR n).more4 = bp.more4 := by
  have : 6 < (bp.rp.take IP4HDR).length := by
    rw [List.length_take]
    exact lt_min (by decide) (Nat.lt_of_lt_of_le (by decide) h)
  simp only [more4, moveup, List.getD_eq_getElem?_getD, List.getElem?_append_left this]
  rw [List.getElem?_take_of_lt (by decide)]

end Block

-- A packet before it was divided.
structure Datagram where
  key     : Key4
  payload : List UInt8
  fits    : IP4HDR + payload.length < 65536

-- A block with a proper part of a packet, or with all of it.
structure IsPart (d : Datagram) (bp : Block) : Prop where
  key      : bp.key4 = d.key
  reserved : bp.frag < 0x8000
  header   : IP4HDR ≤ bp.length
  room     : bp.length ≤ bp.rp.length
  wp       : bp.wp = bp.rp.length
  of       : bp.arrived.Of d.payload
  stop     : bp.arrived.stop ≤ d.payload.length
  pos      : 0 < bp.arrived.len ∨ d.payload = []
  more     : bp.More ↔ bp.arrived.stop < d.payload.length

-- The parts of a packet that have arrived since its queue was made, the last one first.
def arrivals (d : Datagram) (ip : Frags Key4) (bp : Block) (got : List (Piece UInt8)) : List (Piece UInt8) :=
  if ip.queue d.key = none then
    []
  else if bp.key4 = d.key ∧ bp.Fragmented then
    bp.arrived :: got
  else
    got

-- What is received where all that comes with the key of a packet is parts of that packet. Anything may come with
-- other keys.
inductive Received (d : Datagram) : Frags Key4 → List (Piece UInt8) → Prop
  | initfrag : Received d { flisthead := [], fragfree := 100 } []
  | step {ip got bp} (now : Nat) (h : Received d ip got) (hb : bp.key4 = d.key → IsPart d bp) :
      Received d (ipiput4 now ip bp).snd (arrivals d (ipiput4 now ip bp).snd bp got)

-- A fragment that begins inside of the first one and ends behind it came after it.
def Cut (got : List (Piece UInt8)) : Prop :=
  ∃ a, got.find? (·.off = 0) = some a ∧ ∃ b ∈ got.takeWhile (·.off ≠ 0), b.off < a.stop ∧ a.stop < b.stop

def bytes (pkt : List Block) : List UInt8 :=
  pkt.flatMap fun b => b.rp.take b.wp

def blocklen (pkt : List Block) : Nat :=
  (pkt.map Block.wp).sum

def headerlen (pkt : List Block) : Nat :=
  nhgets (bytes pkt) 2

def payload (pkt : List Block) : List UInt8 :=
  ((bytes pkt).drop IP4HDR).take (headerlen pkt - IP4HDR)

-- The queue of a packet and what has arrived of it.
structure Queued (d : Datagram) (q : List Block) (got : List (Piece UInt8)) : Prop where
  sound  : Sound IP4HDR d.payload q
  more   : ∀ b ∈ q, b.more4 ↔ b.foff + b.flen < d.payload.length
  covers : ∀ i, Covers q i ↔ Piece.Covers got i
  first  : ∀ b ∈ q, b.foff = 0 → ∃ a, got.find? (·.off = 0) = some a ∧ b.length = IP4HDR + a.len ∧
    (¬Cut got → b.flen = a.len)

structure Inv (d : Datagram) (ip : Frags Key4) (got : List (Piece UInt8)) : Prop where
  distinct : Distinct ip.flisthead
  empty    : ip.queue d.key = none → got = []
  queued   : ∀ q, ip.queue d.key = some q → Queued d q got
  gap      : ∀ q, ip.queue d.key = some q → ∃ i < d.payload.length, ¬Covers q i

variable {d : Datagram} {ip : Frags Key4} {got : List (Piece UInt8)} {bp : Block} {q q' : List Block} {n now : Nat}

theorem offset_and (h : n < 0x8000) : n &&& 0xffff &&& (0xffff ^^^ (IP_MF ||| IP_DF)) ≠ 0 ↔ n % 0x2000 ≠ 0 := by
  have h8 : n &&& 2 ^ 15 = 0 := by
    by_contra hne
    have := (and_two_pow_ne_zero n 15).mp hne
    omega
  have hm : 0xffff &&& (0xffff ^^^ (IP_MF ||| IP_DF)) = (2 ^ 13 - 1) ||| 2 ^ 15 := by decide
  rw [Nat.and_assoc, hm, Nat.and_or_distrib_left, h8, Nat.or_zero, Nat.and_two_pow_sub_one_eq_mod]

section Tos

variable {tos : UInt8}

theorem length_tos : { bp with rp := bp.rp.set 1 tos : Block }.length = bp.length :=
  nhgets_set (by decide) (by decide)

theorem frag_tos : { bp with rp := bp.rp.set 1 tos : Block }.frag = bp.frag :=
  nhgets_set (by decide) (by decide)

theorem key4_tos : { bp with rp := bp.rp.set 1 tos : Block }.key4 = bp.key4 := by
  have hs {i : Nat} (hi : 1 < i) : nhgets (bp.rp.set 1 tos) i = nhgets bp.rp i := nhgets_set (by omega) (by omega)
  simp only [Block.key4, nhgetl, hs (by decide : 1 < 12), hs (by decide : 1 < 12 + 2), hs (by decide : 1 < 16),
    hs (by decide : 1 < 16 + 2), hs (by decide : 1 < 4)]

theorem ip4reassemble_eq (hr : bp.frag < 0x8000) (hl : IP4HDR ≤ bp.length) (hs : bp.length ≤ bp.rp.length)
    (ht : tos ≠ 0 ↔ bp.More) (now : Nat) (ip : Frags Key4) :
    ip4reassemble now ip bp.frag { bp with rp := bp.rp.set 1 tos } =
      reassemble IP4HDR Block.more4 packet4 now bp.key4 (decide bp.Fragmented) bp.fragoff (bp.length - IP4HDR) ip
        { bp with rp := bp.rp.set 1 tos } := by
  have hlt := nhgets_lt bp.rp 2
  have htos : { bp with rp := bp.rp.set 1 tos : Block }.tos = tos := by
    have : 1 < bp.rp.length := by simp only [IP4HDR] at hl; omega
    simp only [Block.tos, List.getD_eq_getElem?_getD, List.getElem?_set_self this, Option.getD_some]
  have hf : (decide (tos ≠ 0) || decide (bp.frag &&& 0xffff &&& (0xffff ^^^ (IP_MF ||| IP_DF)) ≠ 0)) =
      decide bp.Fragmented := by
    rw [← Bool.decide_or, decide_eq_decide, ht, offset_and hr, Block.Fragmented, Block.fragoff, or_comm]
    exact or_congr_left (by omega)
  have hfoff : (bp.frag <<< 3) % 65536 = bp.fragoff := by
    rw [Nat.shiftLeft_eq, Block.fragoff]
    omega
  have hflen : (bp.length + (65536 - IP4HDR)) % 65536 = bp.length - IP4HDR := by
    have hlt : bp.length < 65536 := hlt
    have hl : 20 ≤ bp.length := hl
    exact (by omega : (bp.length + (65536 - 20)) % 65536 = bp.length - 20)
  simp only [ip4reassemble, htos, length_tos, key4_tos, hf, hfoff, hflen]

-- A part of a packet as it is put on the queue.
def Block.placed (tos : UInt8) (bp : Block) : Block where
  rp   := bp.rp.set 1 tos
  wp   := bp.wp
  foff := bp.fragoff
  flen := bp.length - IP4HDR

namespace IsPart

variable (h : IsPart d bp)
include h

theorem len : bp.arrived.len = bp.length - IP4HDR := by
  have := h.room
  simp only [Block.arrived, Piece.len, List.length_take, List.length_drop]
  omega

theorem pos_of_fragmented (hf : bp.Fragmented) : 0 < bp.length - IP4HDR := by
  rcases h.pos with hp | hp
  · exact h.len ▸ hp
  · have hs := h.stop
    rw [hp, List.length_nil] at hs
    rcases hf with hf | hf
    · exact absurd (Nat.le_trans (Nat.le_add_right ..) hs) (Nat.not_le.mpr <| Nat.pos_of_ne_zero hf)
    · have := h.more.mp hf
      rw [hp, List.length_nil] at this
      omega

theorem good (hf : bp.Fragmented) : (bp.placed tos).Good IP4HDR d.payload where
  of   := by
    have hd : (bp.rp.set 1 tos).drop IP4HDR = bp.rp.drop IP4HDR := List.drop_set_of_lt (by decide)
    have : (bp.placed tos).piece IP4HDR = bp.arrived := by simp only [Block.piece, Block.placed, Block.arrived, hd]
    exact this ▸ h.of
  pos  := h.pos_of_fragmented hf
  room := by
    have := h.room
    have := h.header
    simp only [Block.placed, List.length_set]
    omega

theorem more_iff : (bp.placed tos).more4 ↔ (bp.placed tos).foff + (bp.placed tos).flen < d.payload.length := by
  have hm : (bp.placed tos).More ↔ bp.More := by
    have hf : (bp.placed tos).frag = bp.frag := frag_tos
    rw [Block.More, Block.More, hf]
  rw [Block.more4_iff, hm, h.more, Piece.stop, h.len]
  rfl

theorem has_iff : (bp.placed tos).Has n ↔ bp.arrived.Has n := by
  rw [Block.Has, Piece.Has, Piece.stop, h.len]
  rfl

end IsPart

end Tos

theorem not_cut_of_off {x : Piece UInt8} (hx : x.off = 0) : ¬Cut (x :: got) := by
  rintro ⟨a, -, b, hb, -⟩
  simp [hx] at hb

theorem cut_cons {x : Piece UInt8} (hx : x.off ≠ 0) :
    Cut (x :: got) ↔
      ∃ a, got.find? (·.off = 0) = some a ∧
        (x.off < a.stop ∧ a.stop < x.stop ∨ ∃ b ∈ got.takeWhile (·.off ≠ 0), b.off < a.stop ∧ a.stop < b.stop) := by
  simp [Cut, hx]

namespace Queued

variable {tos : UInt8}

theorem first_part (hb : IsPart d bp) (hf : bp.Fragmented) : Queued d [bp.placed tos] [bp.arrived] where
  sound  := Sound.cons_iff.mpr ⟨hb.good hf, nofun, nofun, .nil⟩
  more   := List.forall_mem_singleton.mpr hb.more_iff
  covers := fun i => by
    rw [covers_cons, Piece.covers_cons, hb.has_iff]
    simp [Covers]
  first  := List.forall_mem_singleton.mpr fun h0 => by
    have h0 : bp.arrived.off = 0 := h0
    refine ⟨bp.arrived, by simp [h0], ?_, fun _ => hb.len.symm⟩
    have := hb.header
    have := hb.len
    have : (bp.placed tos).length = bp.length := length_tos
    omega

theorem covered (h : Queued d q got) (hb : IsPart d bp)
    (he : Enqueue IP4HDR (bp.placed tos) q none) : Queued d q (bp.arrived :: got) where
  sound  := h.sound
  more   := h.more
  covers := fun i => by
    have hi : (bp.placed tos).Has i ↔ bp.arrived.Has i := hb.has_iff
    rw [Piece.covers_cons, ← h.covers, ← hi]
    exact ⟨.inr, fun hi => hi.elim he.covers_iff_of_none id⟩
  first  := fun b hm h0 => by
    have hx : bp.arrived.off ≠ 0 := by
      cases he
      case covered prev hp hlt hc => exact Nat.ne_of_gt (Nat.zero_lt_of_lt hlt)
    obtain ⟨a, ha, hl, hc⟩ := h.first b hm h0
    refine ⟨a, by simpa [hx] using ha, hl, fun hn => hc fun ⟨a', ha', hcut⟩ => hn ?_⟩
    exact (cut_cons hx).mpr ⟨a', ha', .inr hcut⟩

theorem enqueued (h : Queued d q got) (hb : IsPart d bp) (hf : bp.Fragmented)
    (he : Enqueue IP4HDR (bp.placed tos) q (some q')) : Queued d q' (bp.arrived :: got) := by
  have hP : d.payload.length < 65536 := Nat.lt_of_le_of_lt (Nat.le_add_left ..) d.fits
  have hg : (bp.placed tos).Good IP4HDR d.payload := hb.good hf
  have hs := he.sound h.sound hg hP (Nat.le_refl _)
  refine ⟨hs, fun b hm => ?_, fun i => ?_, fun b hm h0 => ?_⟩
  · rcases he.mem hm with hm | rfl | ⟨prev, hp, -, ho, hc, rfl⟩ | ⟨l, hl, hlo, hhi, rfl⟩
    · exact h.more b hm
    · exact hb.more_iff
    · -- The block before the new one goes on behind it.
      have hle := hg.stop_le
      have := (h.more prev hp).mpr (by omega)
      refine iff_of_true this ?_
      have := hg.pos
      exact (by omega : prev.foff + ((bp.placed tos).foff - prev.foff) < d.payload.length)
    · have hgl := h.sound.good l hl
      have hroom := hgl.room
      rw [Block.more4_moveup (by omega), h.more l hl, hgl.moveup_foff (by omega) hP]
      simp only [Block.moveup]
      omega
  · rw [he.covers_iff h.sound hP, Piece.covers_cons, h.covers, hb.has_iff]
  · by_cases hx : bp.arrived.off = 0
    case pos =>
      obtain rfl := hs.eq_of_foff hm he.self_mem (h0.trans hx.symm)
      refine ⟨bp.arrived, by simp [hx], ?_, fun _ => hb.len.symm⟩
      have := hb.header
      have := hb.len
      have : (bp.placed tos).length = bp.length := length_tos
      omega
    case neg =>
      have hfind : (bp.arrived :: got).find? (·.off = 0) = got.find? (·.off = 0) := by simp [hx]
      rw [hfind]
      have hcut : Cut got → Cut (bp.arrived :: got) := by
        rintro ⟨a, ha, hc⟩
        exact (cut_cons hx).mpr ⟨a, ha, .inr hc⟩
      rcases he.mem hm with hm | rfl | ⟨prev, hp, -, ho, hc, rfl⟩ | ⟨l, hl, hlo, hhi, rfl⟩
      · obtain ⟨a, ha, hl, hn⟩ := h.first b hm h0
        exact ⟨a, ha, hl, fun hnc => hn <| mt hcut hnc⟩
      · exact absurd h0 hx
      · obtain ⟨a, ha, hl, hn⟩ := h.first prev hp h0
        refine ⟨a, ha, hl, fun hnc => absurd ?_ hnc⟩
        have hflen := hn <| mt hcut hnc
        have ha0 : a.off = 0 := by simpa using List.find?_some ha
        have h0 : prev.foff = 0 := h0
        refine (cut_cons hx).mpr ⟨a, ha, .inl ?_⟩
        rw [Piece.stop, Piece.stop, hb.len, ha0]
        have : (bp.placed tos).foff = bp.arrived.off := rfl
        have : (bp.placed tos).flen = bp.length - IP4HDR := rfl
        omega
      · have hgl := h.sound.good l hl
        rw [hgl.moveup_foff (by omega) hP] at h0
        omega

-- What is made of a complete queue whose first block is as long as its header says.
theorem packet (h : Queued d q got) (hq : complete Block.more4 0 q) (hP : 0 < d.payload.length) (hc : ¬Cut got) :
    payload (packet4 q) = d.payload ∧ headerlen (packet4 q) = IP4HDR + d.payload.length ∧
      blocklen (packet4 q) = headerlen (packet4 q) ∧ ∀ b ∈ packet4 q, b.wp ≤ b.rp.length := by
  have hcov := (h.sound.complete_iff h.more hP fun _ _ => Nat.zero_le _).mp hq
  have hdata := h.sound.flatMap_eq fun i hi => hcov i (Nat.zero_le _) hi
  have hlen : (q.map Block.flen).sum = d.payload.length := by
    rw [← hdata, List.length_flatMap]
    exact congrArg _ <| List.map_congr_left fun b hb => (h.sound.good b hb).len.symm
  cases q
  case nil => contradiction
  case cons b q =>
    have h0 : b.foff = 0 := by
      have := (Bool.and_eq_true_iff.mp hq).left
      simpa using this
    obtain ⟨a, -, hbl, hba⟩ := h.first b List.mem_cons_self h0
    have hbl : b.length = IP4HDR + b.flen := hba hc ▸ hbl
    have hroom := (h.sound.good b List.mem_cons_self).room
    have hfits := d.fits
    let len := b.length + (q.map Block.flen).sum
    have hsum : len = IP4HDR + d.payload.length := by
      rw [← hlen, List.map_cons, List.sum_cons, ← Nat.add_assoc, ← hbl]
    have hfirst : IP4HDR ≤ ((hnputs b.rp 2 len).take b.length).length := by
      rw [List.length_take, hnputs_length]
      omega
    have hbytes : bytes (packet4 (b :: q)) =
        (hnputs b.rp 2 len).take b.length ++ q.flatMap fun c => (c.rp.drop IP4HDR).take c.flen := by
      rw [bytes, packet4, List.flatMap_cons, List.flatMap_map]
    have hhead : headerlen (packet4 (b :: q)) = IP4HDR + d.payload.length := by
      have : 2 + 1 < IP4HDR := by decide
      rw [headerlen, hbytes, nhgets_append_left (by omega), nhgets_take (by omega), nhgets_hnputs (by omega), hsum,
        Nat.mod_eq_of_lt (by omega)]
    have hdrop : (bytes (packet4 (b :: q))).drop IP4HDR = d.payload := by
      rw [hbytes, List.drop_append_of_le_length hfirst, List.drop_take, drop_hnputs (by decide), ← hdata,
        List.flatMap_cons, hbl, Nat.add_sub_cancel_left]
      rfl
    refine ⟨?_, hhead, ?_, ?_⟩
    · rw [payload, hdrop, hhead, Nat.add_sub_cancel_left, List.take_length]
    · rw [hhead, blocklen, packet4, List.map_cons, List.map_map, List.sum_cons]
      exact hsum
    · refine List.forall_mem_cons.mpr ⟨?_, List.forall_mem_map.mpr fun c hm => ?_⟩
      · simp only [hnputs_length]
        omega
      · have := (h.sound.good c <| List.mem_cons_of_mem _ hm).room
        simp only [List.length_drop]
        omega

end Queued

namespace IsPart

variable {tos : UInt8} (h : IsPart d bp)
include h

theorem whole (hf : ¬bp.Fragmented) {pkt : Block} (hdrop : pkt.rp.drop IP4HDR = bp.rp.drop IP4HDR)
    (hlength : pkt.length = bp.length) (hwp : pkt.wp = pkt.rp.length) :
    payload [pkt] = d.payload ∧ headerlen [pkt] = IP4HDR + d.payload.length ∧ pkt.wp ≤ pkt.rp.length := by
  have ⟨hoff, hmore⟩ := not_or.mp hf
  have hoff : bp.arrived.off = 0 := not_not.mp hoff
  have hstop : d.payload.length ≤ bp.arrived.stop := Nat.not_lt.mp <| mt h.more.mpr hmore
  have hdata : bp.arrived.data = d.payload := h.of.data_eq hoff hstop
  have hheader := h.header
  have hlen : bp.length = IP4HDR + d.payload.length := by
    rw [← hdata]
    have := h.len
    rw [Piece.len] at this
    omega
  have hbytes : bytes [pkt] = pkt.rp := by
    rw [bytes, List.flatMap_singleton, hwp, List.take_length]
  have hhead : headerlen [pkt] = pkt.length := by rw [headerlen, hbytes, Block.length]
  refine ⟨?_, hhead.trans <| hlength.trans hlen, hwp.le⟩
  rw [payload, hbytes, hhead, hdrop, hlength, ← hdata]
  rfl

theorem gap (hf : bp.Fragmented) : ∃ i < d.payload.length, ¬bp.arrived.Has i := by
  have hpos := h.pos_of_fragmented hf
  have hlen := h.len
  have hstop := h.stop
  rcases hf with hf | hf
  · exact ⟨0, by unfold Piece.stop at hstop; omega, fun hi => hf <| Nat.le_zero.mp hi.left⟩
  · exact ⟨_, h.more.mp hf, fun hi => Nat.lt_irrefl _ hi.right⟩

end IsPart

namespace Inv

theorem kept (h : Inv d ip got) {ip' : Frags Key4} (hd : Distinct ip'.flisthead)
    (hq : ip'.queue d.key = ip.queue d.key ∨ ip'.queue d.key = none) :
    Inv d ip' (if ip'.queue d.key = none then [] else got) := by
  refine ⟨hd, fun hn => if_pos hn, fun q hs => ?_, fun q hs => ?_⟩
  all_goals have hq : ip'.queue d.key = ip.queue d.key := hq.resolve_right <| by simp [hs]
  · rw [if_neg <| by simp [hs]]
    exact h.queued q <| hq ▸ hs
  · exact h.gap q <| hq ▸ hs

theorem fragment (h : Inv d ip got) {tos : UInt8} (hb : IsPart d bp) (hf : bp.Fragmented) {r : Option (List Block)}
    {q' : Option (List Block)}
    (ho : Outcome IP4HDR Block.more4 packet4 (bp.placed tos) (ip.queue d.key) r q') :
    (∀ q ∈ q', Queued d q (bp.arrived :: got) ∧ ∃ i < d.payload.length, ¬Covers q i) ∧
      (r.isSome ↔ ∀ i < d.payload.length, Piece.Covers (bp.arrived :: got) i) ∧
      ∀ pkt ∈ r, ¬Cut (bp.arrived :: got) →
        payload pkt = d.payload ∧ headerlen pkt = IP4HDR + d.payload.length ∧
          blocklen pkt = headerlen pkt ∧ ∀ b ∈ pkt, b.wp ≤ b.rp.length := by
  have ⟨g, hg, hgap⟩ := hb.gap hf
  have hP := Nat.zero_lt_of_lt hg
  -- A queue with a new part of the packet is complete exactly when all of the packet has arrived.
  have hnew {q q' : List Block} (hq : ip.queue d.key = some q)
      (he : enqueue IP4HDR (bp.placed tos) q = some q') : Queued d q' (bp.arrived :: got) ∧
        (complete Block.more4 0 q' ↔ ∀ i < d.payload.length, Piece.Covers (bp.arrived :: got) i) := by
    have hqd := h.queued q hq
    have hq' : Queued d q' (bp.arrived :: got) := hqd.enqueued hb hf <| he ▸ hqd.sound.enqueue
    refine ⟨hq', ?_⟩
    rw [hq'.sound.complete_iff hq'.more hP fun _ _ => Nat.zero_le _]
    simp [hq'.covers]
  generalize hq : ip.queue d.key = q at ho
  cases ho
  case first =>
    obtain rfl := h.empty hq
    have hqd : Queued d [bp.placed tos] [bp.arrived] := .first_part hb hf
    refine ⟨fun q hm => ?_, ?_, nofun⟩
    · obtain rfl := Option.some.inj hm
      exact ⟨hqd, g, hg, by simpa [hqd.covers] using hgap⟩
    · simp only [Option.isSome_none, Bool.false_eq_true, false_iff, not_forall]
      exact ⟨g, hg, by simpa using hgap⟩
  case covered q he =>
    have hqd := h.queued q hq
    have hc : Queued d q (bp.arrived :: got) := hqd.covered hb <| he ▸ hqd.sound.enqueue
    have ⟨i, hi, hgap⟩ := h.gap q hq
    refine ⟨fun q' hm => ?_, ?_, nofun⟩
    · obtain rfl := Option.some.inj hm
      exact ⟨hc, i, hi, hgap⟩
    · simp only [Option.isSome_none, Bool.false_eq_true, false_iff, not_forall]
      exact ⟨i, hi, by rwa [← hc.covers]⟩
  case done q q' he hc =>
    have ⟨hqd, hiff⟩ := hnew hq he
    refine ⟨nofun, ?_, fun pkt hm hn => ?_⟩
    · exact iff_of_true rfl <| hiff.mp hc
    · obtain rfl := Option.some.inj hm
      exact hqd.packet hc hP hn
  case queued q q' he hc =>
    have ⟨hqd, hiff⟩ := hnew hq he
    refine ⟨fun q'' hm => ?_, ?_, nofun⟩
    · obtain rfl := Option.some.inj hm
      have ⟨i, hi⟩ := not_forall.mp <| mt hiff.mpr hc
      have ⟨hi, hni⟩ := not_forall.mp hi
      exact ⟨hqd, i, hi, by rwa [hqd.covers]⟩
    · exact iff_of_false nofun <| mt hiff.mpr hc

end Inv

theorem ipiput4_part (h : Inv d ip got) (hb : IsPart d bp) (now : Nat) :
    Inv d (ipiput4 now ip bp).snd (arrivals d (ipiput4 now ip bp).snd bp got) ∧
      ((ipiput4 now ip bp).fst.isSome ↔
        ¬bp.Fragmented ∨ ∀ i < d.payload.length, Piece.Covers (bp.arrived :: got) i) ∧
      ∀ pkt ∈ (ipiput4 now ip bp).fst, ¬Cut (bp.arrived :: got) →
        payload pkt = d.payload ∧ headerlen pkt = IP4HDR + d.payload.length ∧
          (bp.Fragmented → blocklen pkt = headerlen pkt) ∧ ∀ b ∈ pkt, b.wp ≤ b.rp.length := by
  rw [ipiput4]
  split
  case isTrue h0 =>
    have hf : ¬bp.Fragmented := by simp [Block.Fragmented, Block.fragoff, Block.More, h0]
    obtain ⟨hp, hl, hw⟩ := hb.whole hf rfl rfl hb.wp
    refine ⟨?_, ?_, fun pkt hm _ => ?_⟩
    · have := h.kept h.distinct (.inl rfl)
      rwa [arrivals, if_neg fun hn : bp.key4 = d.key ∧ bp.Fragmented => hf hn.right]
    · exact iff_of_true rfl <| .inl hf
    · obtain rfl := Option.some.inj hm
      exact ⟨hp, hl, fun hn => absurd hn hf, List.forall_mem_singleton.mpr hw⟩
  case isFalse h0 =>
    have htos : (if bp.frag &&& IP_MF ≠ 0 then 1 else 0 : UInt8) ≠ 0 ↔ bp.More := by
      rw [Block.More]
      split
      case isTrue hm => exact iff_of_true (by decide) hm
      case isFalse hm => exact iff_of_false (by decide) hm
    generalize (if bp.frag &&& IP_MF ≠ 0 then 1 else 0 : UInt8) = tos at htos
    dsimp only
    rw [ip4reassemble_eq hb.reserved hb.header hb.room htos, hb.key]
    by_cases hf : bp.Fragmented
    case pos =>
      rw [decide_eq_true hf]
      obtain ⟨ho, hd, _⟩ := @reassemble_fragment Key4 _ now d.key IP4HDR bp.fragoff (bp.length - IP4HDR) Block.more4
        packet4 ip { bp with rp := bp.rp.set 1 tos } h.distinct
      obtain ⟨hq, hr, hp⟩ := h.fragment hb hf ho
      refine ⟨?_, hr.trans ⟨.inr, fun hc => hc.resolve_left (not_not.mpr hf)⟩, fun pkt hm hn => ?_⟩
      · rw [arrivals, if_pos (⟨hb.key, hf⟩ : bp.key4 = d.key ∧ bp.Fragmented)]
        refine ⟨hd, fun hn => if_pos hn, fun q hs => ?_, fun q hs => ?_⟩
        · rw [if_neg <| by simp [hs]]
          exact (hq q hs).left
        · exact (hq q hs).right
      · obtain ⟨hp, hl, hb, hw⟩ := hp pkt hm hn
        exact ⟨hp, hl, fun _ => hb, hw⟩
    case neg =>
      rw [decide_eq_false hf]
      obtain ⟨hr, hq, hd, _⟩ := @reassemble_passed Key4 _ now d.key IP4HDR bp.fragoff (bp.length - IP4HDR) Block.more4
        packet4 ip { bp with rp := bp.rp.set 1 tos } h.distinct
      have hrp : (bp.rp.set 1 tos).drop IP4HDR = bp.rp.drop IP4HDR := List.drop_set_of_lt (by decide)
      obtain ⟨hp, hl, hw⟩ := @IsPart.whole _ _ hb hf { bp with rp := bp.rp.set 1 tos } hrp length_tos
        (hb.wp.trans List.length_set.symm)
      refine ⟨?_, ?_, fun pkt hm _ => ?_⟩
      · have := h.kept hd (.inr hq)
        rwa [arrivals, if_neg fun hn : bp.key4 = d.key ∧ bp.Fragmented => hf hn.right]
      · exact iff_of_true (by rw [hr]; rfl) <| .inl hf
      · obtain rfl := Option.some.inj (hr.symm.trans hm)
        exact ⟨hp, hl, fun hn => absurd hn hf, List.forall_mem_singleton.mpr hw⟩

theorem Received.inv (h : Received d ip got) : Inv d ip got := by
  induction h
  case initfrag => exact ⟨.nil, fun _ => rfl, nofun, nofun⟩
  case step ip got bp now _ hb ih =>
    by_cases hk : bp.key4 = d.key
    case pos => exact (ipiput4_part ih (hb hk) now).left
    case neg =>
      rw [arrivals, if_neg fun hn : bp.key4 = d.key ∧ bp.Fragmented => hk hn.left]
      rw [ipiput4]
      split
      case isTrue => exact ih.kept ih.distinct (.inl rfl)
      case isFalse =>
        dsimp only [ip4reassemble]
        refine ih.kept (reassemble_other ih.distinct).left ((reassemble_other ih.distinct).right _ ?_)
        rw [key4_tos]
        exact Ne.symm hk

-- A block with a header that says `id`, `frag` and `length`.
def block (id frag length : Nat) (data : List UInt8) : Block where
  rp := [0x45, 0, .ofNat (length / 256), .ofNat length, .ofNat (id / 256), .ofNat id, .ofNat (frag / 256), .ofNat frag,
    64, 17, 0, 0, 10, 0, 0, 1, 10, 0, 0, 2] ++ data
  wp := 20 + data.length

def letters : List UInt8 := [65, 66, 67, 68, 69, 70, 71, 72, 73, 74, 75, 76, 77, 78, 79, 80, 81, 82, 83, 84]

def alphabet : Datagram where
  key     := { src := 0x0a000001, dst := 0x0a000002, id := 7 }
  payload := letters
  fits    := by decide

-- The first 8 bytes of the packet, the first 16, all from the ninth on, and a fragment of another packet.
def short : Block := block 7 (IP_MF ||| 0) 28 (letters.take 8)
def long : Block := block 7 (IP_MF ||| 0) 36 (letters.take 16)
def last : Block := block 7 1 32 (letters.drop 8)
def other : Block := block 8 (IP_MF ||| 0) 28 (letters.take 8)

theorem short_isPart : IsPart alphabet short :=
  ⟨by decide, by decide, by decide, by decide, by decide, (by decide : _ <+: _), by decide, by decide, by decide⟩

theorem long_isPart : IsPart alphabet long :=
  ⟨by decide, by decide, by decide, by decide, by decide, (by decide : _ <+: _), by decide, by decide, by decide⟩

theorem last_isPart : IsPart alphabet last :=
  ⟨by decide, by decide, by decide, by decide, by decide, (by decide : _ <+: _), by decide, by decide, by decide⟩

def runs (ip : Frags Key4) : List (Nat × Block) → List (Option (List Block))
  | []             => []
  | (now, bp) :: l => (ipiput4 now ip bp).fst :: runs (ipiput4 now ip bp).snd l

end Ip
