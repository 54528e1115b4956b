import Nix.Port.MntrpcreadReply

namespace Port.Devmnt

section

open LittleEndian (decode)
open Libc (Fcall Mtype convM2S BIT8SZ BIT16SZ BIT32SZ)
open Qio

-- What there is to read on a connection.
def stream (mnt : Mnt) (l : List (Addr × Block)) : List Byte :=
  bytes l ++ pending mnt.c

-- A mount whose queue holds `l`. The bounds are those of `mntversion`, and a read returns no more than it is asked for.
structure Good (mnt : Mnt) (l : List (Addr × Block)) : Prop where
  queue : Counted mnt.q l
  least : 256 ≤ mnt.msize
  most  : mnt.msize ≤ 1024 * 1024
  held  : blocklen l ≤ 2 * mnt.msize.toNat
  reads : ∀ bs ∈ mnt.c, chunklen bs ≤ mnt.msize.toNat

def Outcome.nap : Outcome → Option Nat
  | failed nap   => nap
  | read nap _ _ => some nap

-- A call that returns a reply: the message that comes next is taken off, and nothing else.
structure Returns (mnt : Mnt) (l : List (Addr × Block)) (mnt' : Mnt) (l' : List (Addr × Block)) (f : Fcall Nat (Nat × Nat))
    (r : List (Addr × Block)) : Prop where
  some : ∃ v : Message, v.Fits mnt.msize.toNat ∧ v.bytes <+: stream mnt l
  all  : ∀ v : Message, v.Fits mnt.msize.toNat → ∀ rest, stream mnt l = v.bytes ++ rest → stream mnt' l' = rest ∧ Replied f r v

-- What a call is to do. It fails if no message comes next, and `convM2S` gets no more than what was received.
structure Answers (mnt : Mnt) (l : List (Addr × Block)) (mnt' : Mnt) (l' : List (Addr × Block)) (o : Outcome) : Prop where
  good   : Good mnt' l'
  msize  : mnt'.msize = mnt.msize
  nap    : ∀ n ∈ o.nap, n + (pending mnt'.c).length ≤ (stream mnt l).length
  failed : ∀ nap, o = .failed nap → ∀ v : Message, v.Fits mnt.msize.toNat → ¬v.bytes <+: stream mnt l
  read   : ∀ nap f r, o = .read nap f r → Returns mnt l mnt' l' f r

def Frames (A : Allocator) (mnt : Mnt) (l : List (Addr × Block)) : Prop :=
  ∃ mnt' o l', mntrpcread A mnt = some (mnt', o) ∧ Answers mnt l mnt' l' o

def nextsize (mnt : Mnt) (l : List (Addr × Block)) : Nat :=
  decode ((stream mnt l).take 4)

-- The size that comes next is not negative where it is an `int`. If it is less than an `Rread` takes without data, and
-- an `Rread` comes, then there are as many bytes all the same when the size was received.
def Sized (mnt : Mnt) (l : List (Addr × Block)) : Prop :=
  7 ≤ (stream mnt l).length →
    nextsize mnt l < 2 ^ 31 ∧
      ((stream mnt l)[4]? = some Mtype.Rread.byte → nextsize mnt l < 11 →
        let (k, c) := receive 7 (blocklen l) mnt.c
        nextsize mnt l ≤ (receive (nextsize mnt l) k c).fst → 11 ≤ (receive (nextsize mnt l) k c).fst)

variable {A : Allocator} {mnt mnt' : Mnt} {q : Queue} {a : Addr} {b : Block} {l l' : List (Addr × Block)}
variable {c : List (List Filled)}

theorem Good.size_of_prefix {v : Message} (hg : Good mnt l) (hv : v.Fits mnt.msize.toNat) (h : v.bytes <+: stream mnt l) :
    v.bytes.length = nextsize mnt l := by
  have := hv.size
  have := hg.most
  exact (Message.size_of_prefix h (by omega)).symm

theorem nextsize_congr (h : stream mnt' l' = stream mnt l) : nextsize mnt' l' = nextsize mnt l :=
  congrArg (fun xs : List Byte => decode (xs.take 4)) h

theorem Good.with (hg : Good mnt l) (hq : Counted q l') (hl : blocklen l' ≤ 2 * mnt.msize.toNat)
    (hc : ∀ bs ∈ c, chunklen bs ≤ mnt.msize.toNat) : Good { mnt with q, c } l' where
  queue := hq
  least := hg.least
  most  := hg.most
  held  := hl
  reads := hc

theorem Good.received (hg : Good mnt l) (h7 : 7 ≤ (stream mnt l).length) :
    ∃ q a b l' c, mntrpcread A mnt = readrest A { mnt with q, c } a ∧ Good { mnt with q, c } ((a, b) :: l') ∧ 7 ≤ b.blen ∧
      stream { mnt with q, c } ((a, b) :: l') = stream mnt l ∧
      receive 7 (blocklen l) mnt.c = (blocklen ((a, b) :: l'), c) := by
  have hmost := hg.most
  have hleast := hg.least
  obtain ⟨q₁, l₁, c, ok, hq₁, h₁, hheld, hc, hreceive, htrue, hfalse⟩ :=
    hg.queue.doread (A := A) hg.held hg.reads (by omega) (by omega : 7 ≤ mnt.msize.toNat)
  have hq₁ : doread A (BIT32SZ + BIT8SZ + BIT16SZ : Nat) mnt.q mnt.c = some (q₁, c, ok) := hq₁
  cases ok
  case false => exact absurd (hfalse rfl) (Nat.not_lt.mpr h7)
  case true =>
    obtain ⟨hle, hbytes⟩ := htrue rfl
    have hne : l ++ l₁ ≠ [] := fun he => by
      rw [he, blocklen_nil] at hle
      contradiction
    obtain ⟨q, a, b, l', hq, h', hb, hbytes'⟩ := h₁.pullupqueue (A := A) hne hle
    have hlen : blocklen ((a, b) :: l') = blocklen (l ++ l₁) := by rw [← length_bytes, hbytes', length_bytes]
    refine ⟨q, a, b, l', c, ?_, hg.with h' (hlen ▸ hheld) fun bs hbs => hg.reads bs (hc.subset hbs), hb, ?_, hlen ▸ hreceive⟩
    · have hq : q₁.pullupqueue (BIT32SZ + BIT8SZ + BIT16SZ) (A.alloc q₁.live (BIT32SZ + BIT8SZ + BIT16SZ)) =
        some (q, some a) := hq
      rw [mntrpcread, hq₁]
      simp only [Option.bind_eq_bind, Option.bind_some, Bool.not_true, Bool.false_eq_true, if_false, hq]
    · rw [stream, hbytes', hbytes, stream]

theorem Good.not_received (hg : Good mnt l) (h7 : (stream mnt l).length < 7) :
    ∃ mnt' l', mntrpcread A mnt = some (mnt', .failed none) ∧ Good mnt' l' ∧ mnt'.msize = mnt.msize := by
  have hmost := hg.most
  have hleast := hg.least
  obtain ⟨q, l₁, c, ok, hq, h, hheld, hc, -, htrue, -⟩ :=
    hg.queue.doread (A := A) hg.held hg.reads (by omega) (by omega : 7 ≤ mnt.msize.toNat)
  have hq : doread A (BIT32SZ + BIT8SZ + BIT16SZ : Nat) mnt.q mnt.c = some (q, c, ok) := hq
  cases ok
  case true =>
    obtain ⟨hle, hbytes⟩ := htrue rfl
    have := congrArg List.length hbytes
    rw [List.length_append, length_bytes] at this
    rw [stream, ← hbytes, List.length_append, length_bytes] at h7
    omega
  case false =>
    refine ⟨_, _, ?_, hg.with h hheld fun bs hbs => hg.reads bs (hc.subset hbs), rfl⟩
    rw [mntrpcread, hq]
    rfl

theorem size_eq (h7 : 7 ≤ b.blen) (xs : List UInt8) : (List.range' b.rp 4).map b.mem = (bytes ((a, b) :: l) ++ xs).take 4 := by
  have hb := b.length_bytes
  rw [bytes_cons, List.append_assoc, List.take_append_of_le_length (by omega), ← bytes_mem (by omega), Memory.bytes,
    List.range'_eq_map_range, List.map_map]
  rfl

theorem type_eq (h7 : 7 ≤ b.blen) (xs : List UInt8) : (bytes ((a, b) :: l) ++ xs)[4]? = some (b.mem (b.rp + 4)) := by
  have hb := b.length_bytes
  rw [bytes_cons, List.append_assoc, List.getElem?_append_left (by omega), Block.bytes, List.getElem?_map,
    List.getElem?_range' (by omega)]
  rfl

theorem Good.converted {hdr len : Nat} {f : Fcall Nat (Nat × Nat)} {m : Memory} (hg : Good mnt ((a, b) :: l)) (hhdr : hdr ≤ b.blen)
    (hlen : len ≤ blocklen ((a, b) :: l)) (hlt : len ≤ mnt.msize.toNat)
    (hsize : nextsize mnt ((a, b) :: l) = len)
    (hf : Converted len hdr (bytes ((a, b) :: l)) b m f) :
    ∃ q r l', hang A (mnt.q.live.length + 1) (mnt.q.set a { b with mem := m }) hdr len = some (q, r) ∧
      Good { mnt with q } l' ∧ Returns mnt ((a, b) :: l) { mnt with q } l' f r := by
  obtain ⟨hle, hmem, ⟨v, hv, hpre⟩, hall⟩ := hf
  have hset : ({ b with mem := m } : Block).Ok := (hg.queue.blks _ List.mem_cons_self).right
  have h := hg.queue.set hset rfl
  have hbytes : (bytes ((a, { b with mem := m }) :: l)).drop hdr = (bytes ((a, b) :: l)).drop hdr := by
    have hb := b.length_bytes
    have hb' := ({ b with mem := m } : Block).length_bytes
    have hb' : ({ b with mem := m } : Block).bytes.length = b.blen := hb'
    rw [bytes_cons, bytes_cons, List.drop_append_of_le_length (by omega), List.drop_append_of_le_length (by omega), hmem]
  have htake : ((bytes ((a, { b with mem := m }) :: l)).take len).drop hdr = ((bytes ((a, b) :: l)).take len).drop hdr := by
    rw [List.drop_take, List.drop_take, hbytes]
  have hdrop : (bytes ((a, { b with mem := m }) :: l)).drop len = (bytes ((a, b) :: l)).drop len := by
    rw [← Nat.add_sub_cancel' hle, ← List.drop_drop, ← List.drop_drop, hbytes]
  have hfuel : l.length < mnt.q.live.length + 1 := by
    have := hg.queue.length
    rw [List.length_cons] at this
    omega
  obtain ⟨q, b', r, l', hq, h', hb', hr, hl'⟩ := h.hang (A := A) hhdr hle hlen hfuel
  rw [htake] at hr
  rw [hdrop] at hl'
  have hlen' : (bytes ((a, b) :: l)).length = blocklen ((a, b) :: l) := length_bytes _
  have hmost := hg.most
  have hv' {v : Message} (hv : v.Fits mnt.msize.toNat) (h : v.bytes <+: stream mnt ((a, b) :: l)) : v.bytes.length = len :=
    (hg.size_of_prefix hv h).trans hsize
  have hpre' := hpre.trans (List.prefix_append _ (pending mnt.c))
  have hlv : v.bytes.length = len := by
    have := hpre.length_le
    have := hg.held
    exact (Message.size_of_prefix hpre' (by omega)).symm.trans hsize
  refine ⟨q, _, l', hq, hg.with h' ?_ hg.reads, ⟨v, ⟨hv, hlv ▸ hlt⟩, hpre'⟩, fun u hu rest hrest => ?_⟩
  · have := hg.held
    rw [← length_bytes, hl', List.length_drop, hlen']
    omega
  · have hlu := hv' hu ⟨rest, hrest.symm⟩
    constructor
    · have hall : (bytes ((a, b) :: l)).drop len ++ pending mnt.c = (stream mnt ((a, b) :: l)).drop len := by
        rw [stream, List.drop_append_of_le_length (hlen' ▸ hlen)]
      rw [stream, hl', hall, hrest, ← hlu, List.drop_left]
    · have hpu : u.bytes <+: bytes ((a, b) :: l) :=
        List.prefix_of_prefix_length_le ⟨rest, hrest.symm⟩ (List.prefix_append ..) (by omega)
      exact hall u hu.fits hpu a b' r hb' hr

theorem Answers.fails {nap : Option Nat} (hg : Good mnt' l') (hm : mnt'.msize = mnt.msize)
    (hn : ∀ n ∈ nap, n + (pending mnt'.c).length ≤ (stream mnt l).length)
    (hv : ∀ v : Message, v.Fits mnt.msize.toNat → ¬v.bytes <+: stream mnt l) : Answers mnt l mnt' l' (.failed nap) where
  good   := hg
  msize  := hm
  nap    := hn
  failed := fun _ _ => hv
  read   := nofun

theorem Answers.returns {nap : Nat} {f : Fcall Nat (Nat × Nat)} {r : List (Addr × Block)} (hg : Good mnt' l')
    (hm : mnt'.msize = mnt.msize) (hn : nap + (pending mnt'.c).length ≤ (stream mnt l).length)
    (hr : Returns mnt l mnt' l' f r) : Answers mnt l mnt' l' (.read nap f r) where
  good   := hg
  msize  := hm
  nap    := fun _ he => Option.some.inj he ▸ hn
  failed := nofun
  read   := fun _ _ _ he => by
    cases he
    exact hr

theorem Good.readreply (hg : Good mnt ((a, b) :: l)) (h7 : 7 ≤ b.blen) {size : Nat}
    (hsize : nextsize mnt ((a, b) :: l) = size) (hle : size ≤ blocklen ((a, b) :: l))
    (hm : size ≤ mnt.msize.toNat)
    (h11 : (stream mnt ((a, b) :: l))[4]? = some Mtype.Rread.byte → 11 ≤ blocklen ((a, b) :: l)) :
    ∃ mnt' o l', readreply A mnt a size = some (mnt', o) ∧ Answers mnt ((a, b) :: l) mnt' l' o := by
  have hmost := hg.most
  have htype := type_eq h7 (pending mnt.c) (a := a) (l := l)
  let hdr := if b.mem (b.rp + 4) = Mtype.Rread.byte then 11 else size
  have hhdr : hdr ≤ blocklen ((a, b) :: l) := by
    simp only [hdr]
    split
    case isTrue ht => exact h11 <| htype.trans <| congrArg some ht
    case isFalse => exact hle
  obtain ⟨q, a', b', l', hq, h', hb, hbytes⟩ := hg.queue.pullupqueue (A := A) (List.cons_ne_nil _ _) hhdr
  have hlen : blocklen ((a', b') :: l') = blocklen ((a, b) :: l) := by rw [← length_bytes, hbytes, length_bytes]
  have hheld := hg.held
  have hg' : Good { mnt with q } ((a', b') :: l') := hg.with h' (hlen ▸ hheld) hg.reads
  have hstream : stream { mnt with q } ((a', b') :: l') = stream mnt ((a, b) :: l) := congrArg (· ++ pending mnt.c) hbytes
  have hconv : ∃ m r, convM2S ⟨b'.rp, size⟩ b'.mem = .ok (m, r) ∧
      ((r = none ∧ ∀ v : Message, v.body.Fits List.length → ¬v.bytes <+: bytes ((a', b') :: l')) ∨
        ∃ f, r = some (size, f) ∧ Converted size hdr (bytes ((a', b') :: l')) b' m f) := by
    have hp : b'.bytes <+: bytes ((a', b') :: l') := List.prefix_append ..
    have hxs : (bytes ((a', b') :: l')).length = blocklen ((a, b) :: l) := (length_bytes _).trans hlen
    have hsize' : decode ((bytes ((a', b') :: l')).take 4) = size := by
      rw [← hsize, hbytes, ← List.append_nil (bytes ((a, b) :: l)), ← size_eq h7, nextsize, stream, ← size_eq h7]
    have htype' : (bytes ((a', b') :: l'))[4]? = some (b.mem (b.rp + 4)) := by
      rw [hbytes, ← List.append_nil (bytes ((a, b) :: l)), type_eq h7]
    by_cases ht : b.mem (b.rp + 4) = Mtype.Rread.byte
    case pos =>
      have hhdr : hdr = 11 := if_pos ht
      rw [hhdr] at hb ⊢
      exact convM2S_data hp (by omega) hsize' (ht ▸ htype') (by omega) hb
    case neg =>
      have hhdr : hdr = size := if_neg ht
      rw [hhdr] at hb ⊢
      exact convM2S_other hp (by omega) hsize' (fun he => ht <| Option.some.inj <| htype'.symm.trans he) hb
  obtain ⟨m, r, hm', hr⟩ := hconv
  have hif : (if b.mem (b.rp + BIT32SZ) = Mtype.Rread.byte then ((BIT32SZ + BIT8SZ + BIT16SZ + BIT32SZ : Nat) : Int) else size) =
      hdr := by
    simp only [hdr]
    split <;> rfl
  have hnap : ((size : Int) % 2 ^ 32).toNat = size := by omega
  rw [Devmnt.readreply, hg.queue.get, Option.bind_eq_bind, Option.bind_some]
  dsimp only
  rw [hif, Int.toNat_natCast, hq, Option.bind_eq_bind, Option.bind_some]
  dsimp only
  rw [Option.bind_eq_bind, Option.bind_some, h'.get, Option.bind_some, hnap, hm']
  have hnap : size + (pending mnt.c).length ≤ (stream mnt ((a, b) :: l)).length := by
    rw [stream, List.length_append, length_bytes]
    omega
  rcases hr with ⟨rfl, hno⟩ | ⟨f, rfl, hf⟩
  · have hset : ({ b' with mem := m } : Block).Ok := (h'.blks _ List.mem_cons_self).right
    obtain ⟨q', p, l'', hq', h'', hb''⟩ := (h'.set hset rfl).qdiscard (n := size)
    have hlen' : blocklen l'' ≤ blocklen ((a, b) :: l) := by
      have hset : blocklen ((a', { b' with mem := m }) :: l') = blocklen ((a', b') :: l') := by
        rw [blocklen_cons, blocklen_cons]
        rfl
      rw [← length_bytes, hb'', List.length_drop, length_bytes, hset, hlen]
      exact Nat.sub_le ..
    have hq' : (q.set a' { b' with mem := m }).qdiscard (size : Int).toNat = some (q', p) := hq'
    dsimp only
    rw [hq']
    refine ⟨_, _, l'', rfl, .fails (hg.with h'' (by omega) hg.reads) rfl (fun n hn => ?_) fun v hv h => ?_⟩
    · exact Option.some.inj hn ▸ hnap
    · refine hno v hv.fits ?_
      have := hg.size_of_prefix hv h
      rw [hbytes]
      refine List.prefix_of_prefix_length_le h (List.prefix_append ..) ?_
      rw [length_bytes]
      omega
  · obtain ⟨q', r, l'', hq', hgood, hreturns⟩ := hg'.converted (A := A) hb (hlen ▸ hle) hm ((nextsize_congr hstream).trans hsize) hf
    have hq' : hang A (q.live.length + 1) (q.set a' { b' with mem := m }) hdr size = some (q', r) := hq'
    dsimp only
    rw [hq']
    exact ⟨_, _, l'', rfl, .returns hgood rfl hnap ⟨hstream ▸ hreturns.some, hstream ▸ hreturns.all⟩⟩

theorem Good.readrest (hg : Good mnt ((a, b) :: l)) (h7 : 7 ≤ b.blen) {size : Nat}
    (hsize : nextsize mnt ((a, b) :: l) = size) (hlt : size < 2 ^ 31)
    (h11 : (stream mnt ((a, b) :: l))[4]? = some Mtype.Rread.byte → size < 11 →
      size ≤ (receive size (blocklen ((a, b) :: l)) mnt.c).fst → 11 ≤ (receive size (blocklen ((a, b) :: l)) mnt.c).fst) :
    ∃ mnt' o l', readrest A mnt a = some (mnt', o) ∧ Answers mnt ((a, b) :: l) mnt' l' o := by
  have hmost := hg.most
  have hleast := hg.least
  have hno {v : Message} (hv : v.Fits mnt.msize.toNat) (h : v.bytes <+: stream mnt ((a, b) :: l)) : v.bytes.length = size :=
    (hg.size_of_prefix hv h).trans hsize
  have hlen : int32 (decode ((List.range' b.rp 4).map b.mem)) = size := by
    have : decode ((List.range' b.rp 4).map b.mem) = size := (congrArg decode <| size_eq h7 (pending mnt.c)).trans hsize
    rw [this, int32_eq_self hlt]
  rw [Devmnt.readrest, hg.queue.get, Option.bind_eq_bind, Option.bind_some, hlen]
  dsimp only
  split
  case isTrue hgt =>
    obtain ⟨q, p, l', hq, h', hb⟩ := hg.queue.qdiscard (n := mnt.q.dlen.toNat)
    rw [hq]
    have hl' : blocklen l' = 0 := by
      rw [← length_bytes, hb, List.length_drop, length_bytes, hg.queue.dlen]
      omega
    refine ⟨_, _, l', rfl, .fails (hg.with h' (by omega) hg.reads) rfl nofun fun v hv h => ?_⟩
    have := hno hv h
    have := hv.size
    omega
  case isFalse hle =>
    have hle : size ≤ mnt.msize.toNat := by omega
    obtain ⟨q₁, l₁, c, ok, hq₁, h₁, hheld, hc, hreceive, htrue, hfalse⟩ :=
      hg.queue.doread (A := A) hg.held hg.reads (by omega) hle
    rw [hq₁]
    have hreads : ∀ bs ∈ c, chunklen bs ≤ mnt.msize.toNat := fun bs hbs => hg.reads bs (hc.subset hbs)
    cases ok
    case false =>
      refine ⟨_, _, _, rfl, .fails (hg.with h₁ hheld hreads) rfl nofun fun v hv h => ?_⟩
      have := hno hv h
      have := h.length_le
      have := hfalse rfl
      rw [stream] at *
      omega
    case true =>
      obtain ⟨hsize₁, hbytes₁⟩ := htrue rfl
      rw [hreceive] at h11
      have hg₁ : Good { mnt with q := q₁, c } ((a, b) :: (l ++ l₁)) := hg.with h₁ hheld hreads
      have hstream : stream { mnt with q := q₁, c } ((a, b) :: (l ++ l₁)) = stream mnt ((a, b) :: l) := hbytes₁
      obtain ⟨mnt', o, l', ho, hans⟩ := hg₁.readreply (A := A) h7 ((nextsize_congr hstream).trans hsize) hsize₁ hle fun ht => by
        rcases Nat.lt_or_ge size 11 with hlt | hge
        · exact h11 (hstream ▸ ht) hlt hsize₁
        · exact Nat.le_trans hge hsize₁
      refine ⟨mnt', o, l', ho, hans.good, hans.msize, hstream ▸ hans.nap, hstream ▸ hans.failed, fun nap f r hr => ?_⟩
      obtain ⟨hsome, hall⟩ := hans.read nap f r hr
      exact ⟨hstream ▸ hsome, hstream ▸ hall⟩

theorem Good.frames (hg : Good mnt l) (hs : Sized mnt l) : Frames A mnt l := by
  rcases Nat.lt_or_ge (stream mnt l).length 7 with h7 | h7
  · obtain ⟨mnt', l', hq, hg', hm⟩ := hg.not_received (A := A) h7
    refine ⟨mnt', _, l', hq, .fails hg' hm nofun fun v _ h => ?_⟩
    have := h.length_le
    rw [Fcall.bytes_length] at this
    omega
  · obtain ⟨hlt, h11⟩ := hs h7
    obtain ⟨q, a, b, l', c, hq, hg', hb, hstream, hreceive⟩ := hg.received (A := A) h7
    rw [hreceive, ← hstream] at h11
    obtain ⟨mnt', o, l'', ho, hans⟩ := hg'.readrest (A := A) hb (nextsize_congr hstream) hlt h11
    refine ⟨mnt', o, l'', hq.trans ho, hans.good, hans.msize, hstream ▸ hans.nap, hstream ▸ hans.failed, fun nap f r hr => ?_⟩
    obtain ⟨hsome, hall⟩ := hans.read nap f r hr
    exact ⟨hstream ▸ hsome, hstream ▸ hall⟩

theorem nap_of_readreply {len : Int} {o : Outcome} (h : readreply A mnt a len = some (mnt', o)) :
    o.nap = some (len % 2 ^ 32).toNat ∧ mnt'.c = mnt.c := by
  rw [readreply] at h
  obtain ⟨b, -, h⟩ := Option.bind_eq_some_iff.mp h
  dsimp only at h
  obtain ⟨⟨q, nb⟩, -, h⟩ := Option.bind_eq_some_iff.mp h
  obtain ⟨a, -, h⟩ := Option.bind_eq_some_iff.mp h
  obtain ⟨b, -, h⟩ := Option.bind_eq_some_iff.mp h
  split at h
  case h_1 => cases h
  case h_2 =>
    obtain ⟨x, -, h⟩ := Option.bind_eq_some_iff.mp h
    obtain ⟨rfl, rfl⟩ := Prod.mk.inj <| Option.some.inj h
    exact ⟨rfl, rfl⟩
  case h_3 =>
    obtain ⟨x, -, h⟩ := Option.bind_eq_some_iff.mp h
    obtain ⟨rfl, rfl⟩ := Prod.mk.inj <| Option.some.inj h
    exact ⟨rfl, rfl⟩

theorem Good.negative (hg : Good mnt ((a, b) :: l)) (h7 : 7 ≤ b.blen) {size : Nat} {o : Outcome}
    (hsize : nextsize mnt ((a, b) :: l) = size) (hge : 2 ^ 31 ≤ size)
    (h : Devmnt.readrest A mnt a = some (mnt', o)) : o.nap = some size ∧ mnt'.c = mnt.c := by
  have hlt : size < 2 ^ 32 := by
    have := LittleEndian.decode_lt ((stream mnt ((a, b) :: l)).take 4)
    rw [← nextsize, hsize] at this
    refine Nat.lt_of_lt_of_le this <| Nat.pow_le_pow_right (by decide : 0 < 256) (List.length_take_le 4 _)
  have hlen : int32 (decode ((List.range' b.rp 4).map b.mem)) = size - 2 ^ 32 := by
    have : decode ((List.range' b.rp 4).map b.mem) = size := (congrArg decode <| size_eq h7 (pending mnt.c)).trans hsize
    rw [this, int32, Int.bmod_eq_emod]
    split <;> omega
  have hmost := hg.most
  rw [Devmnt.readrest, hg.queue.get, Option.bind_eq_bind, Option.bind_some, hlen] at h
  dsimp only at h
  have hleast := hg.least
  rw [if_neg (by omega)] at h
  have hread : doread A (size - 2 ^ 32) mnt.q mnt.c = some (mnt.q, mnt.c, true) := by
    have hdlen := hg.queue.dlen
    cases hc : mnt.c <;> exact if_pos (by omega)
  rw [hread] at h
  have h := nap_of_readreply h
  have hnap : (((size : Int) - 2 ^ 32) % 2 ^ 32).toNat = size := by omega
  rwa [hnap] at h

theorem receive_le (n k : Nat) (c : List (List Filled)) : (receive n k c).fst ≤ k + (pending c).length := by
  induction c generalizing k
  case nil => exact Nat.le_add_right ..
  case cons bs c ih =>
    have hbs : (bs.flatMap (·.val.bytes)).length = chunklen bs := by
      simp only [List.length_flatMap, Block.length_bytes, chunklen]
    rw [receive, pending]
    split
    case isTrue => exact Nat.le_add_right ..
    case isFalse =>
      split
      case isTrue => exact Nat.le_add_right ..
      case isFalse =>
        have := ih (k + chunklen bs)
        rw [List.length_append]
        omega

-- An `Rread` that says that it has no count needs bytes of the next message to have one.
theorem Good.short (hg : Good mnt ((a, b) :: l)) (h7 : 7 ≤ b.blen) {size : Nat} {o : Outcome}
    (hsize : nextsize mnt ((a, b) :: l) = size) (ht : (stream mnt ((a, b) :: l))[4]? = some Mtype.Rread.byte) (hlt : size < 11)
    (h : Devmnt.readrest A mnt a = some (mnt', o)) (hle : size ≤ (receive size (blocklen ((a, b) :: l)) mnt.c).fst) :
    11 ≤ (receive size (blocklen ((a, b) :: l)) mnt.c).fst := by
  have hmost := hg.most
  have hleast := hg.least
  have hlen : int32 (decode ((List.range' b.rp 4).map b.mem)) = size := by
    have : decode ((List.range' b.rp 4).map b.mem) = size := (congrArg decode <| size_eq h7 (pending mnt.c)).trans hsize
    rw [this, int32_eq_self (by omega)]
  obtain ⟨q₁, l₁, c, ok, hq₁, h₁, hheld, -, hreceive, -, hfalse⟩ :=
    hg.queue.doread (A := A) hg.held hg.reads (by omega) (by omega : size ≤ mnt.msize.toNat)
  rw [Devmnt.readrest, hg.queue.get, Option.bind_eq_bind, Option.bind_some, hlen] at h
  dsimp only at h
  rw [if_neg (by omega), hq₁, Option.bind_eq_bind, Option.bind_some] at h
  rw [hreceive] at hle ⊢
  refine Nat.le_of_not_lt fun hlt => ?_
  cases ok
  case false =>
    have := receive_le size (blocklen ((a, b) :: l)) mnt.c
    have := hfalse rfl
    rw [List.length_append, length_bytes] at this
    rw [hreceive] at *
    omega
  case true =>
    have ht : b.mem (b.rp + BIT32SZ) = Mtype.Rread.byte := Option.some.inj <| (type_eq h7 (pending mnt.c)).symm.trans ht
    obtain ⟨q', hq'⟩ := h₁.pullupqueue_none (A := A) hlt
    have hq' : q₁.pullupqueue (((BIT32SZ + BIT8SZ + BIT16SZ + BIT32SZ : Nat) : Int).toNat)
      (A.alloc q₁.live ((BIT32SZ + BIT8SZ + BIT16SZ + BIT32SZ : Nat) : Int).toNat) = some (q', none) := hq'
    dsimp only at h
    rw [if_neg (by decide), Devmnt.readreply, h₁.get, Option.bind_eq_bind, Option.bind_some] at h
    dsimp only at h
    rw [if_pos ht, hq', Option.bind_eq_bind, Option.bind_some] at h
    cases h

theorem Good.sized (hg : Good mnt l) (hf : Frames A mnt l) : Sized mnt l := by
  intro h7
  obtain ⟨mnt', o, l'', ho, hans⟩ := hf
  obtain ⟨q, a, b, l', c, hq, hg', hb, hstream, hreceive⟩ := hg.received (A := A) h7
  have hsize := nextsize_congr hstream
  have ho := hq.symm.trans ho
  constructor
  · refine Nat.lt_of_not_le fun hge => ?_
    obtain ⟨hnap, hc⟩ := hg'.negative hb hsize hge ho
    have hle := hans.nap _ hnap
    have hheld := hg'.held
    have hmost := hg.most
    rw [← hstream, hc, stream, List.length_append, length_bytes] at hle
    dsimp only at hle hheld
    omega
  · intro ht hlt
    rw [hreceive]
    exact hg'.short hb hsize (hstream ▸ ht) hlt ho

theorem Good.frames_iff (hg : Good mnt l) : Frames A mnt l ↔ Sized mnt l :=
  ⟨hg.sized, hg.frames⟩

theorem Good.sized_of_prefix {v : Message} (hg : Good mnt l) (hv : v.Fits mnt.msize.toNat) (h : v.bytes <+: stream mnt l) :
    Sized mnt l := by
  intro _
  have hsize := hg.size_of_prefix hv h
  have hle := hv.size
  have hmost := hg.most
  refine ⟨by omega, fun ht hlt => ?_⟩
  have hbyte := Option.some.inj <| (Message.type_of_prefix h).symm.trans ht
  obtain ⟨data, hd⟩ := Body.of_type_Rread <| Mtype.byte_inj hbyte
  rw [Fcall.bytes_length, hd, Libc.Body.bytes, List.length_append, LittleEndian.encode_length] at hsize
  omega

end

open Libc (Fcall)
open Qio

abbrev IOHDRSZ : Nat := 24
abbrev MAXRPC : Nat := IOHDRSZ + 8192

-- Calls on a mount, as `mntversion` sets it up.
def machine (A : Allocator) : Machine Mnt Unit where
  init mnt   := mnt.q = qopen (10 * MAXRPC) false false ∧ 256 ≤ mnt.msize ∧ mnt.msize ≤ 1024 * 1024 ∧
    ∀ bs ∈ mnt.c, chunklen bs ≤ mnt.msize.toNat
  step mnt _ := (mntrpcread A mnt).map Prod.fst

-- Calls that return the messages one after another.
inductive Served (A : Allocator) : Mnt → List Message → Mnt → Prop
  | nil {mnt} : Served A mnt [] mnt
  | cons {mnt mnt₁ mnt₂ nap f r v vs} (h : mntrpcread A mnt = some (mnt₁, .read nap f r)) (hr : Replied f r v)
    (hs : Served A mnt₁ vs mnt₂) : Served A mnt (v :: vs) mnt₂

variable {A : Allocator} {mnt : Mnt} {l : List (Addr × Block)}

theorem Good.served {vs : List Message} {rest : List Byte} (hg : Good mnt l) (hv : ∀ v ∈ vs, v.Fits mnt.msize.toNat)
    (hs : stream mnt l = vs.flatMap Fcall.bytes ++ rest) :
    ∃ mnt' l', Served A mnt vs mnt' ∧ Good mnt' l' ∧ stream mnt' l' = rest := by
  induction vs generalizing mnt l
  case nil => exact ⟨mnt, l, .nil, hg, hs⟩
  case cons v vs ih =>
    rw [List.forall_mem_cons] at hv
    rw [List.flatMap_cons, List.append_assoc] at hs
    have hpre : v.bytes <+: stream mnt l := ⟨_, hs.symm⟩
    obtain ⟨mnt₁, o, l₁, ho, hans⟩ := hg.frames (A := A) <| hg.sized_of_prefix hv.left hpre
    cases o
    case failed nap => exact (hans.failed nap rfl v hv.left hpre).elim
    case read nap f r =>
      obtain ⟨hstream, hreplied⟩ := (hans.read nap f r rfl).all v hv.left _ hs
      obtain ⟨mnt₂, l₂, hserved, hg₂, hrest⟩ := ih hans.good (hans.msize ▸ hv.right) hstream
      exact ⟨mnt₂, l₂, .cons ho hreplied hserved, hg₂, hrest⟩

theorem good_invariant : (machine A).Invariant (fun mnt _ => ∀ l, Good mnt l → Sized mnt l) fun mnt => ∃ l, Good mnt l where
  init := by
    rintro mnt ⟨hq, hleast, hmost, hreads⟩
    refine ⟨[], ⟨⟨?_, ?_, by decide⟩, hleast, hmost, Nat.zero_le _, hreads⟩⟩
    · rw [hq]
      exact ⟨⟨trivial, nofun, .refl _, .nil⟩, rfl, fun hne => (hne rfl).elim⟩
    · rw [hq]
      rfl
  step := by
    rintro mnt _ mnt' ⟨l, hg⟩ hc hs
    obtain ⟨mnt₁, o, l₁, ho, hans⟩ := hg.frames (A := A) <| hc l hg
    obtain ⟨⟨mnt₂, o₂⟩, ho₂, rfl⟩ := Option.map_eq_some_iff.mp hs
    cases ho.symm.trans ho₂
    exact ⟨l₁, hans.good⟩

-- The condition is on what comes next: the size that it has, and for an `Rread` that is too short what comes with it.
theorem mntrpcread_frames (hr : (machine A).Reachable (fun mnt _ => ∀ l, Good mnt l → Sized mnt l) mnt) :
    ∃ l, Good mnt l ∧ (Frames A mnt l ↔ Sized mnt l) ∧
      ∀ vs rest, (∀ v ∈ vs, Message.Fits v mnt.msize.toNat) → stream mnt l = vs.flatMap Fcall.bytes ++ rest →
        ∃ mnt' l', Served A mnt vs mnt' ∧ Good mnt' l' ∧ stream mnt' l' = rest := by
  obtain ⟨l, hg⟩ := good_invariant.holds hr
  exact ⟨l, hg, hg.frames_iff, fun vs rest hv hs => hg.served hv hs⟩

theorem le_foldr_max {l : List Nat} {n : Nat} (h : n ∈ l) : n ≤ l.foldr max 0 := by
  induction h
  case head => exact Nat.le_max_left ..
  case tail ih => exact Nat.le_trans ih <| Nat.le_max_right ..

-- Space above all that is used.
def above : Allocator where
  alloc used size := used.foldr max 0 + 1 + (BLOCKALIGN + roundup (size + Hdrspc))
  new used size hm := by
    have : used.foldr max 0 + 1 + (BLOCKALIGN + roundup (size + Hdrspc)) ≤ used.foldr max 0 := le_foldr_max hm
    exact Nat.not_succ_le_self _ <| Nat.le_trans (Nat.le_add_right ..) this
  room _ _        := Nat.le_add_left ..

-- A mount on which these bytes come with the first read.
def arriving (xs : List Byte) : Mnt where
  q     := qopen (10 * MAXRPC) false false
  msize := MAXRPC
  c     := [[⟨{ base := 0, rp := 0, wp := xs.length, lim := xs.length, mem := fun i => xs[i]?.getD 0 },
    Nat.le_refl _, Nat.zero_le _, Nat.le_refl _⟩]]

theorem arriving_init {xs : List Byte} (h : xs.length ≤ MAXRPC) : (machine above).init (arriving xs) := by
  refine ⟨rfl, by simp only [arriving]; decide, by simp only [arriving]; decide, fun bs hbs => ?_⟩
  obtain rfl := List.mem_singleton.mp hbs
  exact h

theorem Good.nil_of_arriving {xs : List Byte} (hg : Good (arriving xs) l) : l = [] := by
  have h : none = (l.map Prod.fst).head? := hg.queue.bfirst
  cases l
  case nil => rfl
  case cons => cases h

theorem mntrpcread_frames_replied :
    let replied := arriving (Fcall.bytes ⟨1, .Rclunk⟩)
    ∃ l, Good replied l ∧ (Frames above replied l ↔ Sized replied l) ∧
      ∃ mnt' l', Served above replied [⟨1, .Rclunk⟩] mnt' ∧ Good mnt' l' ∧ stream mnt' l' = [] := by
  have hinit : (machine above).init (arriving (Fcall.bytes ⟨1, .Rclunk⟩)) := arriving_init (by decide)
  obtain ⟨l, hg, hiff, hserved⟩ := mntrpcread_frames <| .init hinit
  obtain rfl := hg.nil_of_arriving
  refine ⟨[], hg, hiff, hserved [⟨1, .Rclunk⟩] [] (fun v hv => ?_) (by decide)⟩
  obtain rfl := List.mem_singleton.mp hv
  exact ⟨⟨nofun, trivial⟩, by decide⟩

-- The size of the first is negative as an `int`, the second is an `Rread` that says that it is a header only.
theorem mntrpcread_unframed :
    ((machine above).init (arriving [0, 0, 0, 128, 121, 1, 0]) ∧
        (mntrpcread above <| arriving [0, 0, 0, 128, 121, 1, 0]).map (·.snd.nap) = some (some (2 ^ 31))) ∧
      (machine above).init (arriving [7, 0, 0, 0, 117, 1, 0]) ∧ mntrpcread above (arriving [7, 0, 0, 0, 117, 1, 0]) = none :=
  ⟨⟨arriving_init (by decide), by decide +kernel⟩, arriving_init (by decide), Option.isNone_iff_eq_none.mp (by decide +kernel)⟩

end Port.Devmnt
