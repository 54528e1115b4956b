import Nix.Libc.FcallRoundtrip
import Nix.Port.Mntrpcread

namespace Port.Devmnt

open LittleEndian (encode decode encode_length decode_encode encode_decode_of_length)
open Libc
open Qio

-- A message as it is sent.
abbrev Message := Fcall (List UInt8) (List UInt8)

-- A message that has place for its counts, and that a mount has place for.
structure Message.Fits (v : Message) (msize : Nat) : Prop where
  fits : v.body.Fits List.length
  size : v.bytes.length ≤ msize

section Header

variable {b : Buf} {m : Memory} {p w n : Nat} {v : Message}

theorem take_of_at {α : Type} (f : List UInt8 → α) (hm : m.At p (encode w n)) (hl : b.base ≤ p) (hr : p + w ≤ b.stop) :
    (Decoder.take w >>= fun xs => pure (f xs) : Decoder α) b m p = .ok (m, some (p + w, f (encode w n))) := by
  rw [Memory.At, encode_length] at hm
  rw [Decoder.bind_of_some (Decoder.take_eq hl hr), hm, Decoder.pure_apply]

theorem GBIT8_of_at {x : UInt8} (hm : m.At p (encode 1 x.toNat)) (hl : b.base ≤ p) (hr : p + 1 ≤ b.stop) :
    GBIT8 b m p = .ok (m, some (p + 1, x)) := by
  rw [GBIT8, take_of_at _ hm hl hr, ofNat8_encode]

theorem GBIT16_of_at {x : UInt16} (hm : m.At p (encode 2 x.toNat)) (hl : b.base ≤ p) (hr : p + 2 ≤ b.stop) :
    GBIT16 b m p = .ok (m, some (p + 2, x)) := by
  rw [GBIT16, take_of_at _ hm hl hr, ofNat16_encode]

theorem GBIT32_of_at {x : UInt32} (hm : m.At p (encode 4 x.toNat)) (hl : b.base ≤ p) (hr : p + 4 ≤ b.stop) :
    GBIT32 b m p = .ok (m, some (p + 4, x)) := by
  rw [GBIT32, take_of_at _ hm hl hr, ofNat32_encode]

theorem convM2S_Rread {size : Nat} {count : UInt32} {tag : UInt16} (h7 : 7 ≤ size) (hlt : size < 2 ^ 32) (hn : 11 ≤ b.len)
    (hm : m.At b.base (encode 4 size ++ encode 1 Mtype.Rread.byte.toNat ++ encode 2 tag.toNat ++ encode 4 count.toNat)) :
    convM2S b m = .ok (m, if 11 + count.toNat ≤ b.len ∧ size = 11 + count.toNat then
      some (size, ⟨tag, .Rread (b.base + 11, count.toNat)⟩) else none) := by
  obtain ⟨size, rfl⟩ : ∃ n : UInt32, n.toNat = size := ⟨.ofNat size, UInt32.toNat_ofNat_of_lt' hlt⟩
  simp only [Memory.at_append, encode_length, List.length_append] at hm
  obtain ⟨⟨⟨hsize, htype⟩, htag⟩, hcount⟩ := hm
  have hstop : b.stop = b.base + b.len := rfl
  have hroom {p w : Nat} (hr : p + w ≤ b.stop) := Decoder.room_some (m := m) hr
  have hbody : gbody (Mtype.ofByte Mtype.Rread.byte) b m (b.base + 7) = .ok (m, if 11 + count.toNat ≤ b.len then
      some (b.base + (11 + count.toNat), .Rread (b.base + 11, count.toNat)) else none) := by
    have hr : b.base + 7 + BIT32SZ ≤ b.stop := by
      simp only [BIT32SZ]
      omega
    rw [Mtype.ofByte_byte, gbody, Decoder.bind_of_some (hroom hr),
      Decoder.bind_of_some (GBIT32_of_at hcount (Nat.le_add_right ..) hr)]
    split
    case isTrue hc =>
      rw [Decoder.bind_of_some (hroom (by omega))]
      simp [Bind.bind, Decoder.skip, Nat.add_assoc]
    case isFalse hc => rw [Decoder.bind_of_none (Decoder.room_none (by omega))]
  have hfcall : gfcall b m b.base = .ok (m, if 11 + count.toNat ≤ b.len then
      some (b.base + (11 + count.toNat), size, ⟨tag, .Rread (b.base + 11, count.toNat)⟩) else none) := by
    have h7' : ¬size.toNat < BIT32SZ + BIT8SZ + BIT16SZ := Nat.not_lt.mpr h7
    have hr : b.base + (BIT32SZ + BIT8SZ + BIT16SZ) ≤ b.stop := by
      simp only [BIT32SZ, BIT16SZ, BIT8SZ]
      omega
    rw [gfcall, Decoder.bind_of_some (hroom hr), Decoder.bind_of_some (GBIT32_of_at hsize (Nat.le_refl _) (by omega)),
      if_neg h7', Decoder.bind_of_some (GBIT8_of_at htype (Nat.le_add_right ..) (by omega)),
      Decoder.bind_of_some (GBIT16_of_at htag (Nat.le_add_right ..) (by omega))]
    split
    case isTrue hc =>
      rw [if_pos hc] at hbody
      exact (Decoder.bind_of_some hbody).trans <| Decoder.pure_apply _
    case isFalse hc =>
      rw [if_neg hc] at hbody
      exact Decoder.bind_of_none hbody
  rw [convM2S, hfcall, Except.ok_bind]
  by_cases hc : 11 + count.toNat ≤ b.len
  case pos =>
    have : ¬b.base + (11 + count.toNat) > b.stop := by omega
    simp only [hc, if_true, true_and, Option.bind_some, if_neg this, Nat.add_left_cancel_iff]
  case neg => simp only [hc, if_false, false_and, Option.bind_none]

end Header

section Blocks

variable {b : Block} {xs : List UInt8} {len hdr : Nat} {v : Message}

theorem bytes_mem (h : n ≤ b.blen) : Memory.bytes b.mem b.rp n = b.bytes.take n := by
  rw [Memory.bytes, Block.bytes, List.range'_eq_map_range, List.map_map, ← List.map_take, List.take_range, Nat.min_eq_left h]
  rfl

theorem at_of_starts {ys : List UInt8} (hp : b.bytes <+: xs) (h : ys <+: xs) (hl : ys.length ≤ b.blen) :
    Memory.At b.mem b.rp ys := by
  rw [Memory.At, bytes_mem hl]
  exact (List.prefix_iff_eq_take.mp <| List.prefix_of_prefix_length_le h hp (b.length_bytes ▸ hl)).symm

theorem prefix_of_at {ys : List UInt8} (hp : b.bytes <+: xs) (h : Memory.At b.mem b.rp ys) (hl : ys.length ≤ b.blen) :
    ys <+: xs := by
  rw [Memory.At, bytes_mem hl] at h
  exact h ▸ (List.take_prefix ..).trans hp

theorem Message.size_of_prefix (h : v.bytes <+: xs) (hlt : v.bytes.length < 2 ^ 32) : decode (xs.take 4) = v.bytes.length := by
  obtain ⟨ys, rfl⟩ := h
  have : (v.bytes ++ ys).take 4 = encode 4 v.bytes.length := by
    rw [Fcall.bytes_length, Fcall.bytes]
    simp only [List.append_assoc]
    exact List.take_left' (encode_length ..)
  rw [this, decode_encode (by omega)]

theorem Message.type_of_prefix (h : v.bytes <+: xs) : xs[4]? = some v.body.type.byte := by
  obtain ⟨ys, rfl⟩ := h
  have : encode 1 v.body.type.byte.toNat = [v.body.type.byte] := by
    rw [encode, encode, UInt8.ofNat_toNat]
  rw [Fcall.bytes, this]
  simp only [List.append_assoc]
  rw [List.getElem?_append_right (by simp), encode_length]
  rfl

theorem exists_header (ht : xs[4]? = some Mtype.Rread.byte) (hxs : 11 ≤ xs.length) :
    ∃ tag : UInt16, ∃ count : UInt32, xs.take 11 =
      encode 4 (decode (xs.take 4)) ++ encode 1 Mtype.Rread.byte.toNat ++ encode 2 tag.toNat ++ encode 4 count.toNat := by
  refine ⟨.ofNat (decode ((xs.drop 5).take 2)), .ofNat (decode ((xs.drop 7).take 4)), ?_⟩
  have h4 : encode 4 (decode (xs.take 4)) = xs.take 4 := encode_decode_of_length <| by
    rw [List.length_take]
    omega
  have h1 : encode 1 Mtype.Rread.byte.toNat = (xs.drop 4).take 1 := by
    rw [List.take_one, List.head?_drop, ht]
    rfl
  rw [h4, h1, encode_ofNat16, encode_ofNat32, ← List.take_add, ← List.take_add, ← List.take_add]
  all_goals
    rw [List.length_take, List.length_drop]
    omega

theorem Message.bytes_Rread (tag : UInt16) (data : List UInt8) : Fcall.bytes ⟨tag, .Rread data⟩ =
    encode 4 (11 + data.length) ++ encode 1 Mtype.Rread.byte.toNat ++ encode 2 tag.toNat ++ encode 4 data.length ++ data := by
  have : 7 + (4 + data.length) = 11 + data.length := by omega
  simp only [Fcall.bytes, Body.bytes, Body.type, List.length_append, encode_length, this, List.append_assoc]

theorem Body.of_type_Rread {S D : Type} {f : Body S D} (h : f.type = .Rread) : ∃ data, f = .Rread data := by
  cases f <;> first | exact ⟨_, rfl⟩ | cases h

-- What the caller gets of a message: its fields, with what is counted in the memory of the block that they were read
-- from, and the data of an `Rread` as blocks.
def Replied (f : Fcall Nat (Nat × Nat)) (r : List (Addr × Block)) (v : Message) : Prop :=
  f.tag = v.tag ∧
    match v.body with
    | .Rread data => (∃ p, f.body = .Rread (p, data.length)) ∧ bytes r = data
    | body        => bytes r = [] ∧ ∃ x ∈ r.head?, ∃ p, StoredBody x.snd.mem p f.body body

-- A result of `convM2S` is one that can be given for every message that the bytes start with.
def Converted (len hdr : Nat) (xs : List UInt8) (b : Block) (m : Memory) (f : Fcall Nat (Nat × Nat)) : Prop :=
  hdr ≤ len ∧ ({ b with mem := m } : Block).bytes.drop hdr = b.bytes.drop hdr ∧
    (∃ v : Message, v.body.Fits List.length ∧ v.bytes <+: xs) ∧
    ∀ v : Message, v.body.Fits List.length → v.bytes <+: xs → ∀ a b' r, b'.mem = m →
      bytes ((a, b') :: r) = (xs.take len).drop hdr → Replied f ((a, b') :: r) v

theorem convM2S_other (hp : b.bytes <+: xs) (hlt : xs.length < 2 ^ 32) (hlen : decode (xs.take 4) = len)
    (ht : xs[4]? ≠ some Mtype.Rread.byte) (hle : len ≤ b.blen) :
    ∃ m' r, convM2S ⟨b.rp, len⟩ b.mem = .ok (m', r) ∧
      ((r = none ∧ ∀ v : Message, v.body.Fits List.length → ¬v.bytes <+: xs) ∨
        ∃ f, r = some (len, f) ∧ Converted len len xs b m' f) := by
  have hsize {v : Message} (h : v.bytes <+: xs) : v.bytes.length = len :=
    (Message.size_of_prefix h (Nat.lt_of_le_of_lt h.length_le hlt)).symm.trans hlen
  have hconv {v : Message} (hv : v.body.Fits List.length) (h : v.bytes <+: xs) := convM2S_accepts (b := ⟨b.rp, len⟩) hv
    (Nat.lt_of_le_of_lt h.length_le hlt) (Nat.le_of_eq (hsize h)) (at_of_starts hp h (hsize h ▸ hle))
  obtain ⟨m', r, hr, hw, hsome⟩ := convM2S_decodes ⟨b.rp, len⟩ b.mem
  refine ⟨m', r, hr, ?_⟩
  rcases r with _ | ⟨n, f⟩
  · refine .inl ⟨rfl, fun v hv h => ?_⟩
    obtain ⟨m'', g, hg, -⟩ := hconv hv h
    cases hr.symm.trans hg
  · obtain ⟨v, hv, rfl, -, hn, hat, -⟩ := hsome n f rfl
    have hv' := prefix_of_at hp hat (Nat.le_trans hn hle)
    refine .inr ⟨f, by rw [hsize hv'], Nat.le_refl _, ?_, ⟨v, hv, hv'⟩, fun u hu h a b' r hm hb => ?_⟩
    · rw [← Block.bytes_skip, ← Block.bytes_skip]
      refine List.map_congr_left fun i hi => hw i <| .inr ?_
      exact (List.mem_range'_1.mp hi).left
    · obtain ⟨m'', g, hg, htag, hs⟩ := hconv hu h
      obtain ⟨rfl, he⟩ := Prod.mk.inj <| Except.ok.inj <| hr.symm.trans hg
      obtain ⟨-, rfl⟩ := Prod.mk.inj <| Option.some.inj he
      have hnil : bytes ((a, b') :: r) = [] := hb.trans <| List.drop_eq_nil_of_le <| List.length_take_le ..
      refine ⟨htag, ?_⟩
      split
      case h_1 data heq => exact absurd (Message.type_of_prefix h) (heq ▸ ht)
      case h_2 => exact ⟨hnil, _, rfl, _, hm ▸ hs⟩

theorem convM2S_data (hp : b.bytes <+: xs) (hlt : xs.length < 2 ^ 32) (hlen : decode (xs.take 4) = len)
    (ht : xs[4]? = some Mtype.Rread.byte) (hxs : len ≤ xs.length) (hle : 11 ≤ b.blen) :
    ∃ m' r, convM2S ⟨b.rp, len⟩ b.mem = .ok (m', r) ∧
      ((r = none ∧ ∀ v : Message, v.body.Fits List.length → ¬v.bytes <+: xs) ∨
        ∃ f, r = some (len, f) ∧ Converted len 11 xs b m' f) := by
  have hsize {v : Message} (h : v.bytes <+: xs) : v.bytes.length = len :=
    (Message.size_of_prefix h (Nat.lt_of_le_of_lt h.length_le hlt)).symm.trans hlen
  have htype {v : Message} (h : v.bytes <+: xs) : ∃ data, v.body = .Rread data :=
    Body.of_type_Rread <| Mtype.byte_inj <| Option.some.inj <| (Message.type_of_prefix h).symm.trans ht
  have hdata {v : Message} {data : List UInt8} (h : v.bytes <+: xs) (hd : v.body = .Rread data) : len = 11 + data.length := by
    have := hsize h
    rw [Fcall.bytes_length, hd, Body.bytes, List.length_append, encode_length] at this
    omega
  rcases Nat.lt_or_ge len 11 with h11 | h11
  · have hno (v : Message) (h : v.bytes <+: xs) : False := by
      obtain ⟨data, hd⟩ := htype h
      have := hdata h hd
      omega
    obtain ⟨m', r, hr, -, hsome⟩ := convM2S_decodes ⟨b.rp, len⟩ b.mem
    refine ⟨m', r, hr, ?_⟩
    rcases r with _ | ⟨n, f⟩
    · exact .inl ⟨rfl, fun v _ => hno v⟩
    · obtain ⟨v, -, rfl, -, hn, hat, -⟩ := hsome n f rfl
      have hn : v.bytes.length ≤ len := hn
      exact (hno v <| prefix_of_at hp hat (by omega)).elim
  · obtain ⟨tag, count, hhead⟩ := exists_header ht (Nat.le_trans h11 hxs)
    rw [hlen] at hhead
    have hat := at_of_starts hp (hhead ▸ List.take_prefix 11 xs) (by simp; omega)
    have hr := convM2S_Rread (b := ⟨b.rp, len⟩) (by omega) (by omega) h11 hat
    refine ⟨_, _, hr, ?_⟩
    have hsplit : xs.take len = encode 4 len ++ encode 1 Mtype.Rread.byte.toNat ++ encode 2 tag.toNat ++
        encode 4 count.toNat ++ (xs.take len).drop 11 := by
      have : xs.take 11 = (xs.take len).take 11 := by rw [List.take_take, Nat.min_eq_left h11]
      rw [← hhead, this, List.take_append_drop]
    have hrest : ((xs.take len).drop 11).length = len - 11 := by rw [List.length_drop, List.length_take_of_le hxs]
    have hmsg {v : Message} (h : v.bytes <+: xs) : v.tag = tag ∧ v.body = .Rread ((xs.take len).drop 11) ∧
        len = 11 + count.toNat := by
      obtain ⟨data, hd⟩ := htype h
      have hl := hdata h hd
      have hv : v = ⟨v.tag, .Rread data⟩ := hd ▸ rfl
      have hb : xs.take len = v.bytes := by rw [← hsize h, ← List.prefix_iff_eq_take.mp h]
      rw [hsplit, hv, Message.bytes_Rread] at hb
      obtain ⟨hb, hrest⟩ := List.append_inj hb <| by simp
      obtain ⟨hb, hcount⟩ := List.append_inj hb <| by simp
      have htag := congrArg decode (List.append_inj hb <| by simp).right
      have hcount := congrArg decode hcount
      rw [decode_encode count.toNat_lt, decode_encode (by omega)] at hcount
      rw [decode_encode tag.toNat_lt, decode_encode v.tag.toNat_lt] at htag
      exact ⟨(UInt16.toNat_inj.mp htag).symm, hrest ▸ hd, hcount ▸ hl⟩
    split
    case isTrue hc =>
      refine .inr ⟨_, rfl, h11, rfl, ⟨⟨tag, .Rread ((xs.take len).drop 11)⟩, ⟨by simp [Body.strings], ?_⟩, ?_⟩, ?_⟩
      · change _ < 2 ^ 32
        omega
      · have hl : 11 + ((xs.take len).drop 11).length = len := by omega
        have hn : ((xs.take len).drop 11).length = count.toNat := by omega
        rw [Message.bytes_Rread, hl, hn, ← hsplit]
        exact List.take_prefix ..
      · intro v _ h a b' r _ hb
        obtain ⟨htag, hbody, hl⟩ := hmsg h
        refine ⟨htag.symm, ?_⟩
        rw [hbody]
        refine ⟨⟨b.rp + 11, ?_⟩, hb⟩
        rw [hrest, hl, Nat.add_sub_cancel_left]
    case isFalse hc =>
      refine .inl ⟨rfl, fun v _ h => hc ?_⟩
      have hl := (hmsg h).right.right
      exact ⟨Nat.le_of_eq hl.symm, hl⟩

end Blocks

end Port.Devmnt
