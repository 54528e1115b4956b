import Mathlib.Data.List.TakeWhile
import Nix.Ip.Fragments
import Nix.Lib.Pieces

namespace Ip

variable {dat hdr fend : Nat} {P : List UInt8} {b bp : Block} {q q' : List Block} {i : Nat}

-- The bytes of the packet that a block on a queue has, if its data begins `dat` bytes behind `rp`.
def Block.piece (dat : Nat) (b : Block) : Piece UInt8 where
  off  := b.foff
  data := (b.rp.drop dat).take b.flen

def Block.Has (b : Block) (i : Nat) : Prop :=
  b.foff ≤ i ∧ i < b.foff + b.flen

def Covers (q : List Block) (i : Nat) : Prop :=
  ∃ b ∈ q, b.Has i

@[simp]
theorem covers_cons : Covers (b :: q) i ↔ b.Has i ∨ Covers q i := by
  simp [Covers]

@[simp]
theorem covers_append : Covers (q ++ q') i ↔ Covers q i ∨ Covers q' i := by
  simp only [Covers, List.mem_append, or_and_right, exists_or]

structure Block.Good (dat : Nat) (P : List UInt8) (b : Block) : Prop where
  of   : (b.piece dat).Of P
  pos  : 0 < b.flen
  room : dat + b.flen ≤ b.rp.length

namespace Block.Good

theorem len (h : b.Good dat P) : (b.piece dat).len = b.flen := by
  have := h.room
  simp only [piece, Piece.len, List.length_take, List.length_drop]
  omega

theorem stop (h : b.Good dat P) : (b.piece dat).stop = b.foff + b.flen := by
  rw [Piece.stop, h.len, piece]

theorem stop_le (h : b.Good dat P) : b.foff + b.flen ≤ P.length :=
  h.stop ▸ h.of.stop_le <| h.len.symm ▸ h.pos

theorem has_iff (h : b.Good dat P) : (b.piece dat).Has i ↔ b.Has i := by
  rw [Piece.Has, h.stop, piece, Has]

theorem shorten {n : Nat} (h : b.Good dat P) (hn : 0 < n) (hl : n ≤ b.flen) :
    { b with flen := n : Block }.Good dat P where
  pos  := hn
  room := by have := h.room; exact (by omega : dat + n ≤ b.rp.length)
  of   := by
    have := h.of.take (n := n)
    rwa [piece, List.take_take, Nat.min_eq_left hl] at this

theorem moveup {n : Nat} (h : b.Good dat P) (hd : hdr ≤ dat) (hn : n < b.flen) (hP : P.length < 65536) :
    (b.moveup hdr n).Good dat P where
  pos  := by simp only [Block.moveup]; omega
  room := by
    have := h.room
    simp only [Block.moveup, List.length_append, List.length_take, List.length_drop]
    omega
  of   := by
    have hr := h.room
    have hs := h.stop_le
    have hf : (b.foff + n) % 65536 = b.foff + n := Nat.mod_eq_of_lt (by omega)
    have hb : (b.rp.take hdr ++ b.rp.drop (hdr + n)).drop dat = (b.rp.drop dat).drop n := by
      have ht : (b.rp.take hdr).length = hdr := by rw [List.length_take]; omega
      rw [List.drop_append, ht, List.drop_eq_nil_of_le (by omega), List.nil_append, List.drop_drop, List.drop_drop]
      congr 1
      omega
    have := h.of.drop (n := n)
    rw [piece, List.drop_take] at this
    simpa only [piece, Block.moveup, hf, hb] using this

theorem moveup_foff {n : Nat} (h : b.Good dat P) (hn : n < b.flen) (hP : P.length < 65536) :
    (b.moveup hdr n).foff = b.foff + n :=
  Nat.mod_eq_of_lt <| by have := h.stop_le; omega

end Block.Good

-- The blocks on a queue have bytes of the packet, in order and none of them twice.
structure Sound (dat : Nat) (P : List UInt8) (q : List Block) : Prop where
  good  : ∀ b ∈ q, b.Good dat P
  apart : q.Pairwise fun b c => b.foff + b.flen ≤ c.foff

namespace Sound

theorem cons_iff :
    Sound dat P (b :: q) ↔ b.Good dat P ∧ (∀ c ∈ q, b.foff + b.flen ≤ c.foff) ∧ Sound dat P q where
  mp h := by
    have ⟨hb, hq⟩ := List.forall_mem_cons.mp h.good
    have ⟨ha, hp⟩ := List.pairwise_cons.mp h.apart
    exact ⟨hb, ha, hq, hp⟩
  mpr h := ⟨List.forall_mem_cons.mpr ⟨h.left, h.right.right.good⟩, List.pairwise_cons.mpr ⟨h.right.left, h.right.right.apart⟩⟩

theorem append_iff :
    Sound dat P (q ++ q') ↔
      Sound dat P q ∧ Sound dat P q' ∧ ∀ b ∈ q, ∀ c ∈ q', b.foff + b.flen ≤ c.foff where
  mp h := by
    have ⟨hq, hq'⟩ := List.forall_mem_append.mp h.good
    have ⟨ha, ha', hx⟩ := List.pairwise_append.mp h.apart
    exact ⟨⟨hq, ha⟩, ⟨hq', ha'⟩, hx⟩
  mpr h := by
    obtain ⟨h, h', hx⟩ := h
    exact ⟨List.forall_mem_append.mpr ⟨h.good, h'.good⟩, List.pairwise_append.mpr ⟨h.apart, h'.apart, hx⟩⟩

theorem covers_iff (h : Sound dat P q) : Piece.Covers (q.map <| Block.piece dat) i ↔ Covers q i := by
  simp only [Piece.Covers, Covers, List.mem_map]
  constructor
  · rintro ⟨_, ⟨b, hb, rfl⟩, hi⟩
    exact ⟨b, hb, h.good b hb |>.has_iff.mp hi⟩
  · rintro ⟨b, hb, hi⟩
    exact ⟨_, ⟨b, hb, rfl⟩, h.good b hb |>.has_iff.mpr hi⟩

end Sound

theorem Sound.eq_of_foff {c : Block} (h : Sound dat P q) (hb : b ∈ q) (hc : c ∈ q) (he : b.foff = c.foff) :
    b = c := by
  induction q
  case nil => contradiction
  case cons x q ih =>
    have ⟨hx, ha, h⟩ := cons_iff.mp h
    have := hx.pos
    rcases List.mem_cons.mp hb with rfl | hbq <;> rcases List.mem_cons.mp hc with rfl | hcq
    · rfl
    · have := ha c hcq
      omega
    · have := ha b hbq
      omega
    · exact ih h hbq hcq

-- What becomes of the blocks behind a new one: those up to `fend` are gone, and one that begins before it and
-- ends behind it has lost its beginning.
inductive Takeout (hdr fend : Nat) (q : List Block) : List Block → Prop
  | whole {gone rest} (hq : q = gone ++ rest) (hg : ∀ b ∈ gone, b.foff + b.flen ≤ fend)
      (hr : ∀ b ∈ rest, fend ≤ b.foff) : Takeout hdr fend q rest
  | moved {gone l rest} (hq : q = gone ++ l :: rest) (hg : ∀ b ∈ gone, b.foff + b.flen ≤ fend)
      (hl : l.foff < fend) (hr : fend < l.foff + l.flen) :
      Takeout hdr fend q (l.moveup hdr (fend - l.foff) :: rest)

theorem Sound.takeout (h : Sound dat P q) : Takeout hdr fend q (takeout hdr fend q) := by
  induction q
  case nil => exact @Takeout.whole _ _ _ [] _ rfl nofun nofun
  case cons l ls ih =>
    obtain ⟨hl, ha, h⟩ := cons_iff.mp h
    rw [Ip.takeout]
    split
    case isTrue ho =>
      refine @Takeout.whole _ _ _ [] _ rfl nofun <| List.forall_mem_cons.mpr ⟨by omega, fun b hb => ?_⟩
      have := ha b hb
      omega
    case isFalse ho =>
      split
      case isTrue hv => exact @Takeout.moved _ _ _ [] _ _ rfl nofun (by omega) (by omega)
      case isFalse hv =>
        have hg : l.foff + l.flen ≤ fend := by omega
        have ht := ih h
        generalize Ip.takeout hdr fend ls = q' at ht
        cases ht
        case whole gone hgone hq hr =>
          exact .whole (hq ▸ rfl : l :: ls = (l :: gone) ++ _) (List.forall_mem_cons.mpr ⟨hg, hgone⟩) hr
        case moved gone m rest hq hgone hf hr =>
          exact .moved (hq ▸ rfl : l :: ls = (l :: gone) ++ m :: rest) (List.forall_mem_cons.mpr ⟨hg, hgone⟩) hf hr

namespace Takeout

theorem mem (ht : Takeout hdr fend q q') (hb : b ∈ q') :
    b ∈ q ∨ ∃ l ∈ q, l.foff < fend ∧ fend < l.foff + l.flen ∧ b = l.moveup hdr (fend - l.foff) := by
  cases ht
  case whole gone hg hq hr => exact .inl <| hq ▸ List.mem_append_right _ hb
  case moved gone l rest hq hg hl hr =>
    rcases List.mem_cons.mp hb with rfl | hb
    · exact .inr ⟨l, hq ▸ List.mem_append_right _ List.mem_cons_self, hl, hr, rfl⟩
    · exact .inl <| hq ▸ List.mem_append_right _ (List.mem_cons_of_mem _ hb)

variable (ht : Takeout hdr fend q q') (h : Sound dat P q) (hP : P.length < 65536)
include ht h hP

theorem sound (hd : hdr ≤ dat) : Sound dat P q' := by
  cases ht
  case whole gone hg hq hr => exact (Sound.append_iff.mp <| hq ▸ h).right.left
  case moved gone l rest hq hg hl hr =>
    have ⟨hb, ha, hs⟩ := Sound.cons_iff.mp (Sound.append_iff.mp <| hq ▸ h).right.left
    refine Sound.cons_iff.mpr ⟨hb.moveup hd (by omega) hP, fun c hc => ?_, hs⟩
    have := ha c hc
    rw [hb.moveup_foff (by omega) hP]
    simp only [Block.moveup]
    omega

theorem fend_le (hb : b ∈ q') : fend ≤ b.foff := by
  cases ht
  case whole gone hg hq hr => exact hr b hb
  case moved gone l rest hq hg hl hr =>
    have ⟨hl', ha, hs⟩ := Sound.cons_iff.mp (Sound.append_iff.mp <| hq ▸ h).right.left
    rcases List.mem_cons.mp hb with rfl | hb
    · rw [hl'.moveup_foff (by omega) hP]
      omega
    · have := ha b hb
      omega

theorem covers_iff : Covers q' i ↔ Covers q i ∧ fend ≤ i := by
  have hgone {gone : List Block} (hg : ∀ b ∈ gone, b.foff + b.flen ≤ fend) : Covers gone i → i < fend := by
    rintro ⟨b, hb, hi⟩
    exact Nat.lt_of_lt_of_le hi.right (hg b hb)
  cases ht
  case whole gone hg hq hr =>
    have hrest : Covers q' i → fend ≤ i := by
      rintro ⟨b, hb, hi⟩
      exact Nat.le_trans (hr b hb) hi.left
    have := hgone hg
    rw [hq, covers_append]
    constructor
    · exact fun hc => ⟨.inr hc, hrest hc⟩
    · rintro ⟨hc | hc, hf⟩
      · exact absurd (this hc) (by omega)
      · exact hc
  case moved gone l rest hq hg hl hr =>
    subst hq
    have ⟨hl', ha, hs⟩ := Sound.cons_iff.mp (Sound.append_iff.mp h).right.left
    have hrest : Covers rest i → fend ≤ i := by
      rintro ⟨b, hb, hi⟩
      have := ha b hb
      have := hi.left
      omega
    have hfoff : (l.moveup hdr (fend - l.foff)).foff = fend := by
      rw [hl'.moveup_foff (by omega) hP]
      omega
    have hhas : (l.moveup hdr (fend - l.foff)).Has i ↔ l.Has i ∧ fend ≤ i := by
      simp only [Block.Has, hfoff]
      simp only [Block.moveup]
      omega
    have := hgone hg
    simp only [covers_append, covers_cons, hhas]
    constructor
    · rintro (⟨hi, hf⟩ | hc)
      · exact ⟨.inr <| .inl hi, hf⟩
      · exact ⟨.inr <| .inr hc, hrest hc⟩
    · rintro ⟨hc | hi | hc, hf⟩
      · exact absurd (this hc) (by omega)
      · exact .inl ⟨hi, hf⟩
      · exact .inr hc

end Takeout

-- What becomes of a queue to which a block comes: nothing if the block before has all of its bytes, and else
-- that block ends where the new one begins.
inductive Enqueue (hdr : Nat) (bp : Block) (q : List Block) : Option (List Block) → Prop
  | covered {prev} (hm : prev ∈ q) (hp : prev.foff < bp.foff)
      (hc : bp.foff + bp.flen ≤ prev.foff + prev.flen) : Enqueue hdr bp q none
  | clear {before rest rest'} (hq : q = before ++ rest) (hb : ∀ b ∈ before, b.foff + b.flen ≤ bp.foff)
      (hr : ∀ b ∈ rest, bp.foff ≤ b.foff) (ht : Takeout hdr (bp.foff + bp.flen) rest rest') :
      Enqueue hdr bp q <| some (before ++ bp :: rest')
  | cut {before prev rest rest'} (hq : q = before ++ prev :: rest) (hp : prev.foff < bp.foff)
      (ho : bp.foff < prev.foff + prev.flen) (hc : prev.foff + prev.flen < bp.foff + bp.flen)
      (hr : ∀ b ∈ rest, bp.foff ≤ b.foff) (ht : Takeout hdr (bp.foff + bp.flen) rest rest') :
      Enqueue hdr bp q <| some (before ++ { prev with flen := bp.foff - prev.foff } :: bp :: rest')

theorem Sound.le_foff_of_mem_dropWhile (h : Sound dat P q) {n : Nat} (hb : b ∈ q.dropWhile (·.foff < n)) :
    n ≤ b.foff := by
  induction q
  case nil => contradiction
  case cons c q ih =>
    have ⟨hc, ha, h⟩ := cons_iff.mp h
    rw [List.dropWhile_cons] at hb
    split at hb
    case isTrue hlt => exact ih h hb
    case isFalse hlt =>
      rw [decide_eq_true_iff] at hlt
      rcases List.mem_cons.mp hb with rfl | hb
      · omega
      · have := ha b hb
        omega

theorem Sound.enqueue (h : Sound dat P q) : Enqueue hdr bp q (enqueue hdr bp q) := by
  have hq : q.takeWhile (·.foff < bp.foff) ++ q.dropWhile (·.foff < bp.foff) = q := List.takeWhile_append_dropWhile
  have hb : ∀ b ∈ q.takeWhile (·.foff < bp.foff), b.foff < bp.foff :=
    fun b hb => by simpa using List.mem_takeWhile_imp hb
  have hr : ∀ b ∈ q.dropWhile (·.foff < bp.foff), bp.foff ≤ b.foff :=
    fun b hb => h.le_foff_of_mem_dropWhile hb
  rw [Ip.enqueue]
  generalize q.takeWhile (·.foff < bp.foff) = before, q.dropWhile (·.foff < bp.foff) = rest at *
  subst hq
  have ⟨hbs, hrs, hx⟩ := append_iff.mp h
  have ht : Takeout hdr (bp.foff + bp.flen) rest _ := hrs.takeout
  split
  case h_1 hl =>
    rw [List.getLast?_eq_none_iff] at hl
    subst hl
    exact .clear (rfl : [] ++ rest = [] ++ rest) nofun hr ht
  case h_2 prev hl =>
    obtain ⟨init, rfl⟩ := List.getLast?_eq_some_iff.mp hl
    have hp := hb prev <| by simp
    have ⟨his, hps, hip⟩ := append_iff.mp hbs
    dsimp only
    split
    case isTrue ho =>
      refine .clear rfl (fun b hb => ?_) hr ht
      rcases List.mem_append.mp hb with hb | hb
      · have := hip b hb prev List.mem_cons_self
        omega
      · rw [List.mem_singleton.mp hb]
        omega
    case isFalse ho =>
      split
      case isTrue hc => exact .covered (by simp : prev ∈ init ++ [prev] ++ rest) hp (by omega)
      case isFalse hc =>
        have hf : prev.flen - (prev.foff + prev.flen - bp.foff) = bp.foff - prev.foff := by omega
        rw [List.dropLast_concat, hf]
        exact .cut (by simp) hp (by omega) (by omega) hr ht

theorem or_trim {B H R F : Prop} (h : R → H ∨ F) : B ∨ H ∨ R ∧ F ↔ H ∨ B ∨ R := by
  tauto

theorem has_or_le (hr : ∀ b ∈ q, bp.foff ≤ b.foff) : Covers q i → bp.Has i ∨ bp.foff + bp.flen ≤ i := by
  rintro ⟨b, hm, hi⟩
  have := hr b hm
  simp only [Block.Has] at *
  omega

namespace Enqueue

theorem covers_iff_of_none (he : Enqueue hdr bp q none) (hi : bp.Has i) : Covers q i := by
  cases he
  case covered prev hm hp hc => exact ⟨prev, hm, by unfold Block.Has at *; omega⟩

theorem mem (he : Enqueue hdr bp q (some q')) (hb : b ∈ q') :
    b ∈ q ∨ b = bp ∨
      (∃ prev ∈ q, prev.foff < bp.foff ∧ bp.foff < prev.foff + prev.flen ∧
        prev.foff + prev.flen < bp.foff + bp.flen ∧ b = { prev with flen := bp.foff - prev.foff }) ∨
      ∃ l ∈ q, l.foff < bp.foff + bp.flen ∧ bp.foff + bp.flen < l.foff + l.flen ∧
        b = l.moveup hdr (bp.foff + bp.flen - l.foff) := by
  cases he
  case clear before rest rest' hq hbe hr ht =>
    subst hq
    simp only [List.mem_append, List.mem_cons] at hb
    rcases hb with hb | rfl | hb
    · exact .inl <| List.mem_append_left _ hb
    · exact .inr <| .inl rfl
    · rcases ht.mem hb with hb | ⟨l, hl, hm⟩
      · exact .inl <| List.mem_append_right _ hb
      · exact .inr <| .inr <| .inr ⟨l, List.mem_append_right _ hl, hm⟩
  case cut before prev rest rest' hq hp ho hc hr ht =>
    subst hq
    simp only [List.mem_append, List.mem_cons] at hb
    rcases hb with hb | rfl | rfl | hb
    · exact .inl <| List.mem_append_left _ hb
    · exact .inr <| .inr <| .inl ⟨prev, List.mem_append_right _ List.mem_cons_self, hp, ho, hc, rfl⟩
    · exact .inr <| .inl rfl
    · rcases ht.mem hb with hb | ⟨l, hl, hm⟩
      · exact .inl <| List.mem_append_right _ <| List.mem_cons_of_mem _ hb
      · exact .inr <| .inr <| .inr ⟨l, List.mem_append_right _ <| List.mem_cons_of_mem _ hl, hm⟩

theorem self_mem (he : Enqueue hdr bp q (some q')) : bp ∈ q' := by
  cases he <;> simp

variable (he : Enqueue hdr bp q (some q')) (h : Sound dat P q) (hb : bp.Good dat P) (hP : P.length < 65536)
include he h hb hP

theorem sound (hd : hdr ≤ dat) : Sound dat P q' := by
  cases he
  case clear before rest rest' hq hbe hr ht =>
    have ⟨hbs, hrs, hx⟩ := Sound.append_iff.mp <| hq ▸ h
    refine Sound.append_iff.mpr ⟨hbs, Sound.cons_iff.mpr ⟨hb, fun c hc => ht.fend_le hrs hP hc, ht.sound hrs hP hd⟩, ?_⟩
    intro b hm c hc
    have hm := hbe b hm
    rcases List.mem_cons.mp hc with rfl | hc
    · exact hm
    · have := ht.fend_le hrs hP hc
      omega
  case cut before prev rest rest' hq hp ho hc hr ht =>
    have ⟨hbs, hprs, hx⟩ := Sound.append_iff.mp <| hq ▸ h
    have ⟨hps, hpr, hrs⟩ := Sound.cons_iff.mp hprs
    have hn : prev.foff + (bp.foff - prev.foff) = bp.foff := by omega
    have hfend := fun c hc => ht.fend_le hrs hP (b := c) hc
    refine Sound.append_iff.mpr ⟨hbs, ?_, fun b hm => ?_⟩
    · refine Sound.cons_iff.mpr ⟨hps.shorten (by omega) (by omega), List.forall_mem_cons.mpr ⟨hn.le, ?_⟩, ?_⟩
      · intro c hc
        have := hfend c hc
        exact hn.trans_le (by omega)
      · exact Sound.cons_iff.mpr ⟨hb, hfend, ht.sound hrs hP hd⟩
    · have hbp := hx b hm prev List.mem_cons_self
      refine List.forall_mem_cons.mpr ⟨hbp, List.forall_mem_cons.mpr ⟨by omega, fun c hc => ?_⟩⟩
      have := hfend c hc
      omega

omit hb in
theorem covers_iff : Covers q' i ↔ bp.Has i ∨ Covers q i := by
  cases he
  case clear before rest rest' hq hbe hr ht =>
    subst hq
    rw [covers_append, covers_cons, covers_append, ht.covers_iff (Sound.append_iff.mp h).right.left hP]
    exact or_trim <| has_or_le hr
  case cut before prev rest rest' hq hp ho hl hr ht =>
    subst hq
    have hrs := (Sound.cons_iff.mp (Sound.append_iff.mp h).right.left).right.right
    have hprev : bp.Has i ∨ { prev with flen := bp.foff - prev.foff : Block }.Has i ↔ bp.Has i ∨ prev.Has i := by
      simp only [Block.Has]
      omega
    rw [covers_append, covers_cons, covers_cons, covers_append, covers_cons, ht.covers_iff hrs hP,
      or_trim <| has_or_le hr, ← or_assoc (a := bp.Has i), hprev, or_assoc, or_left_comm]

end Enqueue

-- There is no gap before the last fragment exactly when all bytes of the packet are there.
theorem Sound.complete_iff {more : Block → Bool} {lo : Nat} (h : Sound dat P q)
    (hm : ∀ b ∈ q, more b ↔ b.foff + b.flen < P.length) (hlo : lo < P.length) (hge : ∀ b ∈ q, lo ≤ b.foff) :
    complete more lo q ↔ ∀ i, lo ≤ i → i < P.length → Covers q i := by
  induction q generalizing lo
  case nil =>
    simp only [complete, Bool.false_eq_true, false_iff, not_forall]
    exact ⟨lo, Nat.le_refl _, hlo, nofun⟩
  case cons b q ih =>
    obtain ⟨hb, ha, h⟩ := cons_iff.mp h
    have ⟨hmb, hm⟩ := List.forall_mem_cons.mp hm
    have ⟨hbe, hge⟩ := List.forall_mem_cons.mp hge
    have hpos := hb.pos
    have hq {i : Nat} : Covers q i → b.foff + b.flen ≤ i := by
      rintro ⟨c, hc, hi⟩
      exact Nat.le_trans (ha c hc) hi.left
    simp only [complete, Bool.and_eq_true, decide_eq_true_eq, Bool.or_eq_true, Bool.not_eq_true', covers_cons]
    constructor
    · rintro ⟨rfl, hmore | hc⟩ i hli hi
      · have : ¬b.foff + b.flen < P.length := fun hlt => by simp [hmb.mpr hlt] at hmore
        exact .inl ⟨hli, by omega⟩
      · rcases Nat.lt_or_ge i (b.foff + b.flen) with hib | hib
        · exact .inl ⟨hli, hib⟩
        · exact .inr <| (ih h hm (by omega) ha).mp hc i hib hi
    · intro hc
      -- Nothing but the first block has the first byte.
      obtain rfl : b.foff = lo := by
        rcases hc lo (Nat.le_refl _) hlo with hi | hi
        · exact Nat.le_antisymm hi.left hbe
        · have := hq hi
          omega
      refine ⟨rfl, ?_⟩
      by_cases hlt : b.foff + b.flen < P.length
      case pos =>
        refine .inr <| (ih h hm hlt ha).mpr fun i hli hi => ?_
        rcases hc i (by omega) hi with hib | hib
        · have := hib.right
          omega
        · exact hib
      case neg => exact .inl <| by simpa [hlt] using hmb

theorem Sound.flatMap_eq (h : Sound dat P q) (hc : ∀ i < P.length, Covers q i) :
    q.flatMap (fun b => (b.piece dat).data) = P := by
  have ht : Tiles Piece.off Piece.len 0 (q.map <| Block.piece dat) P.length := by
    apply Piece.tiles_of_covers
    case ha =>
      refine List.pairwise_map.mpr <| h.apart.imp_of_mem fun hb _ hbc => ?_
      rwa [(h.good _ hb).stop]
    case hn => exact List.forall_mem_map.mpr fun b hb => (h.good b hb).len ▸ (h.good b hb).pos
    case hl => exact fun _ _ => Nat.zero_le _
    case hh => exact List.forall_mem_map.mpr fun b hb => (h.good b hb).stop ▸ (h.good b hb).stop_le
    case hlh => exact Nat.zero_le _
    case hc => exact fun i _ hi => h.covers_iff.mpr <| hc i hi
  rw [← Piece.flatMap_data_eq ht <| List.forall_mem_map.mpr fun b hb => (h.good b hb).of, List.flatMap_map]

end Ip
