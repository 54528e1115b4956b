import Nix.Port.Mfreeseg
import Nix.Port.Segments
import Nix.Port.SyssegSpace

namespace Port.Segment

open Sysseg

variable {P : Type} {s s' : Seg P} {page page' : P → Page} {pg : P} {soff i k n : Nat}

theorem ptealloc_get (s : Seg P) (j : Nat) : (ptealloc s).pages[j]?.join = none := by
  rw [ptealloc, List.getElem?_replicate]
  split <;> rfl

theorem ptealloc_wf (s : Seg P) : (ptealloc s).WF s.ptepertab where
  length     := List.length_replicate
  bounds j h := absurd (ptealloc_get s j) h

namespace Seg

theorem entered_wf (hs : s.WF) (i : Nat) : (s.map[i]?.join.getD (ptealloc s)).WF s.ptepertab := by
  cases h : s.map[i]?.join
  case none     => exact ptealloc_wf s
  case some pte => exact hs.pte pte (List.mem_of_getElem? (Option.join_eq_some_iff.mp h))

theorem entered_get (s : Seg P) (i j : Nat) :
    (s.map[i]?.join.getD (ptealloc s)).pages[j]?.join = s.map[i]?.join.bind fun pte => pte.pages[j]?.join := by
  cases s.map[i]?.join
  case none     => exact ptealloc_get s j
  case some pte => rfl

theorem slot_enter (hs : s.WF) (hi : soff / PTEMAPMEM < s.map.length) :
    (s.enter soff pg).slot k = if k = s.slotno soff then some pg else s.slot k := by
  have hdiv (n : Nat) := Nat.div_add_mod' n s.ptepertab
  have hlt := Nat.mod_lt (s.slotno soff) (ptepertab_pos s.toSegment)
  rw [slot, slot, enter, entry_eq]
  rw [mapno_eq s] at hi ⊢
  by_cases hk : k / s.ptepertab = s.slotno soff / s.ptepertab
  · rw [hk, List.getElem?_set_self hi]
    simp only [Option.join_some, Option.bind_some, List.getElem?_set]
    by_cases hj : s.slotno soff % s.ptepertab = k % s.ptepertab
    · rw [if_pos hj, if_pos (by rwa [(entered_wf hs _).length]), if_pos (by rw [← hdiv k, ← hdiv (s.slotno soff), hk, hj])]
      rfl
    · rw [if_neg hj, entered_get, if_neg fun he => hj (by rw [he])]
  · rw [List.getElem?_set_ne (Ne.symm hk), if_neg fun he => hk (by rw [he])]

theorem WF.enter (hs : s.WF) (hi : soff / PTEMAPMEM < s.map.length)
    (hn : ∀ k, k ≠ s.slotno soff → s.slot k ≠ some pg) : (s.enter soff pg).WF := by
  refine .of_slot_inj (fun pte hp => ?_) fun i k p hpi hpk => ?_
  · rcases List.mem_or_eq_of_mem_set hp with hp | hp
    · exact hs.pte pte hp
    · obtain rfl := Option.some.inj hp
      have hw := entered_wf hs (soff / PTEMAPMEM)
      refine ⟨by rw [List.length_set, hw.length]; rfl, fun j hj => ?_⟩
      rw [List.getElem?_set] at hj
      split at hj
      case isTrue he => exact ⟨he ▸ Nat.min_le_right _ _, he ▸ Nat.le_max_right _ _⟩
      case isFalse   =>
        obtain ⟨hf, hl⟩ := hw.bounds j hj
        exact ⟨(Nat.min_le_left _ _).trans hf, hl.trans (Nat.le_max_left _ _)⟩
  · rw [slot_enter hs hi] at hpi hpk
    split at hpi <;> split at hpk
    case isTrue.isTrue h h'   => exact h.trans h'.symm
    case isTrue.isFalse h h'  => exact absurd (hpk.trans hpi.symm) (hn k h')
    case isFalse.isTrue h h'  => exact absurd (hpi.trans hpk.symm) (hn i h)
    case isFalse.isFalse      => exact hs.slot_inj hpi hpk

end Seg

-- The segment is a whole number of pages, and those that are there are in it.
structure Laid (s : Seg P) : Prop where
  wf     : s.WF
  pgszi  : s.pgszi ≠ .small
  base   : s.pgsz ∣ s.base
  whole  : s.pgsz ∣ s.top
  room   : s.top ≤ s.base + s.map.length * PTEMAPMEM
  within : ∀ k p, s.slot k = some p → s.va k + s.pgsz ≤ s.top

-- What holds of the numbers of a segment besides.
structure Geometry (s : Seg P) : Prop extends Laid s where
  type  : s.type % (SG_TYPE + 1) ≤ SG_PHYSICAL
  image : s.type % (SG_TYPE + 1) = SG_DATA → s.image ≠ none
  top   : s.top = s.base + s.size * BIGPGSZ
  size  : s.size ≤ SEGMAPSIZE * (PTEMAPMEM / BIGPGSZ)
  bound : s.top < 2 ^ 64

theorem le_howmany_mul {x y : Nat} (hy : 0 < y) : x ≤ HOWMANY x y * y := by
  have hd := Nat.div_add_mod' (x + (y - 1)) y
  have hm := Nat.mod_lt (x + (y - 1)) hy
  rw [HOWMANY]
  omega

theorem howmany_le {x y z : Nat} (hy : 0 < y) (h : x ≤ z * y) : HOWMANY x y ≤ z := by
  rw [HOWMANY, Nat.div_le_iff_le_mul_add_pred hy, Nat.mul_comm]
  omega

section

variable {sys : Sys} {type base size : Nat} {image : Option Nat}

theorem newseg_segment {s : Segment} (ha : Asked type base size image) (h : Sysseg.newseg sys type base size = .ok s) :
    s.type = type ∧ s.base = base ∧ s.size = size ∧ s.top = base + size * BIGPGSZ ∧ s.pgszi ≠ .small ∧
    size ≤ SEGMAPSIZE * (PTEMAPMEM / BIGPGSZ) ∧ s.pgsz ∣ base ∧ s.pgsz ∣ size * BIGPGSZ := by
  obtain ⟨-, -, hb, hlt⟩ := ha
  rw [Sysseg.newseg] at h
  split at h
  case isTrue     => cases h
  case isFalse hs =>
    obtain rfl := Except.ok.inj h
    refine ⟨rfl, rfl, rfl, Nat.mod_eq_of_lt hlt, ?_, Nat.le_of_not_lt hs, ?_⟩
    · dsimp only
      split <;> simp
    · by_cases hg : sys.huge ∧ GiB ≤ size * BIGPGSZ ∧ base % GiB = 0 ∧ size * BIGPGSZ % GiB = 0
      · simp only [Segment.pgsz, hg, Pgsz.bytes, and_self, if_true]
        exact ⟨Nat.dvd_of_mod_eq_zero hg.right.right.left, Nat.dvd_of_mod_eq_zero hg.right.right.right⟩
      · simp only [Segment.pgsz, hg, Pgsz.bytes, if_false]
        exact ⟨hb, Nat.dvd_mul_left _ _⟩

theorem newseg_eq_ok (h : newseg sys type base size = .ok s) :
    Sysseg.newseg sys type base size = .ok s.toSegment ∧ s.flushme = false ∧ ∃ n, s.map = List.replicate n none ∧
      min (HOWMANY (size * BIGPGSZ / s.pgsz) s.ptepertab) (SEGMAPSIZE * s.ptepertab) ≤ n := by
  obtain ⟨s₀, h₀, h⟩ := Except.bind_eq_ok_iff.mp h
  obtain rfl := Except.ok.inj h
  refine ⟨h₀, rfl, _, rfl, ?_⟩
  dsimp only
  split <;> omega

theorem slot_of_replicate (h : s.map = List.replicate n none) (k : Nat) : s.slot k = none := by
  rw [Seg.slot, h, List.getElem?_replicate]
  split <;> rfl

theorem le_howmany_ptemapmem (s : Segment) (n : Nat) : n * s.pgsz ≤ HOWMANY n s.ptepertab * PTEMAPMEM := by
  rw [← ptepertab_mul_pgsz s, ← Nat.mul_assoc]
  exact Nat.mul_le_mul_right _ (le_howmany_mul (ptepertab_pos s))

theorem Geometry.newseg {color : Int} (ha : Asked type base size image) (h : newseg sys type base size = .ok s) :
    Geometry { s with image := image, fstart := i, flen := n, color := color } := by
  obtain ⟨h₀, -, m, hm, hle⟩ := newseg_eq_ok h
  obtain ⟨htype, hbase, hsize, htop, hp, hle', hdb, hds⟩ := newseg_segment ha h₀
  have hslot : ∀ k, s.slot k = none := slot_of_replicate hm
  have hbytes : size * BIGPGSZ / s.pgsz * s.pgsz ≤ SEGMAPSIZE * s.ptepertab * s.pgsz := by
    rw [Nat.div_mul_cancel hds, Nat.mul_assoc, ptepertab_mul_pgsz]
    have := Nat.mul_le_mul_right BIGPGSZ hle'
    rwa [Nat.mul_assoc, Nat.div_mul_cancel (by decide)] at this
  have hhow : HOWMANY (size * BIGPGSZ / s.pgsz) s.ptepertab ≤ m := by
    refine (Nat.le_min.mpr ⟨Nat.le_refl _, ?_⟩).trans hle
    refine (howmany_le (ptepertab_pos _) (Nat.le_of_mul_le_mul_right hbytes (pgsz_pos _))).trans ?_
    exact Nat.le_mul_of_pos_right _ (ptepertab_pos _)
  refine ⟨⟨.of_slot_inj (fun pte hpte => ?_) fun i _ p hi => ?_, hp, ?_, ?_, ?_, fun k p hk => ?_⟩, ?_, ?_, ?_, ?_, ?_⟩
  · simp [hm] at hpte
  · exact absurd ((hslot i).symm.trans hi) (by simp)
  · exact hbase ▸ hdb
  · exact htop ▸ Nat.dvd_add hdb hds
  · have hr := le_howmany_ptemapmem s.toSegment (size * BIGPGSZ / s.pgsz)
    rw [Nat.div_mul_cancel hds] at hr
    simp only [htop, hbase, hm, List.length_replicate]
    exact Nat.add_le_add_left (hr.trans (Nat.mul_le_mul_right _ hhow)) _
  · exact absurd ((hslot k).symm.trans hk) (by simp)
  · exact htype ▸ ha.left
  · exact htype ▸ ha.right.left
  · rw [htop, hbase, hsize]
  · exact hsize ▸ hle'
  · exact htop ▸ ha.right.right.right

end

theorem minus_eq {x y : Nat} (hy : y ≤ x) (hx : x < 2 ^ 64) : minus x y = x - y := by
  unfold minus uintptr
  omega

theorem add_le_of_dvd {d x y : Nat} (hx : d ∣ x) (hy : d ∣ y) (h : x < y) : x + d ≤ y := by
  have := Nat.le_of_dvd (Nat.sub_pos_of_lt h) (Nat.dvd_sub hy hx)
  omega

theorem dvd_va (h : s.pgsz ∣ s.base) (k : Nat) : s.pgsz ∣ s.va k :=
  Nat.dvd_add h (Nat.dvd_mul_left _ _)

namespace Geometry

variable {addr : Nat}

theorem enter (h : Geometry s) (hlo : s.base ≤ addr) (hhi : addr < s.top)
    (hn : ∀ k, k ≠ s.slotno (addr - s.base) → s.slot k ≠ some pg) : Geometry (s.enter (addr - s.base) pg) := by
  have hi : (addr - s.base) / PTEMAPMEM < s.map.length := by
    have := h.room
    exact Nat.div_lt_of_lt_mul (by rw [Nat.mul_comm]; omega)
  have hva : s.va (s.slotno (addr - s.base)) + s.pgsz ≤ s.top := by
    have hle := Nat.div_mul_le_self (addr - s.base) s.pgsz
    have hlt : s.va (s.slotno (addr - s.base)) < s.top := by
      rw [Seg.va, Seg.slotno]
      omega
    exact add_le_of_dvd (dvd_va h.base _) h.whole hlt
  refine ⟨⟨h.wf.enter hi hn, h.pgszi, h.base, h.whole, ?_, fun k p hk => ?_⟩, h.type, h.image, h.top, h.size, h.bound⟩
  · exact (List.length_set ..).symm ▸ h.room
  · rw [Seg.slot_enter h.wf hi] at hk
    split at hk
    case isTrue he => exact he ▸ hva
    case isFalse   => exact h.within k p hk

end Geometry

theorem slot_ne_of_notMem (hs : s.WF) (h : pg ∉ s.pages) (k : Nat) : s.slot k ≠ some pg :=
  fun he => h (hs.mem_pages.mpr ⟨k, he⟩)

theorem Geometry.color (h : Geometry s) (c : Int) : Geometry { s with color := c } :=
  ⟨⟨⟨h.wf.pte, h.wf.nodup⟩, h.pgszi, h.base, h.whole, h.room, h.within⟩, h.type, h.image, h.top, h.size, h.bound⟩

theorem Geometry.segpage (h : Geometry s) (hpg : pg ∉ s.pages) (hs : segpage s page pg = .ok s') : Geometry s' := by
  have hcolor : Geometry (if s.color = NOCOLOR then { s with color := (page pg).color } else s) := by
    split
    · exact h.color _
    · exact h
  have hpg' : pg ∉ Seg.pages (if s.color = NOCOLOR then { s with color := (page pg).color } else s) := by
    split <;> exact hpg
  rw [Segment.segpage] at hs
  generalize (if s.color = NOCOLOR then { s with color := (page pg).color } else s) = q at hs hcolor hpg'
  split at hs
  case isTrue => cases hs
  split at hs
  case isTrue => cases hs
  case isFalse hva =>
    rw [not_or, Nat.not_lt, Nat.not_le] at hva
    obtain rfl := Except.ok.inj hs
    have hbound := hcolor.bound
    rw [minus_eq hva.left (by omega)]
    exact hcolor.enter hva.left hva.right fun k _ => slot_ne_of_notMem hcolor.wf hpg' k

section

variable [DecidableEq P] {read copymode : Bool} {load : Got P} {copy : P} {addr : Nat} {old : Option P}

theorem pio_eq_ok (h : pio s addr load page old = .ok (pg, page')) : old = some pg ∨ pg = load.page := by
  cases old
  case some q => exact .inl (congrArg _ (Prod.mk.inj (Except.ok.inj h)).left)
  case none =>
    refine .inr ?_
    cases load
    case cached q => exact (Prod.mk.inj (Except.ok.inj h)).left.symm
    case new q =>
      obtain ⟨page₁, -, h⟩ := Except.bind_eq_ok_iff.mp h
      split at h <;> exact (Prod.mk.inj (Except.ok.inj h)).left.symm

theorem common_eq_ok {q : P} (h : common s addr read copymode copy q page = .ok (pg, page')) : pg = q ∨ pg = copy := by
  rw [common] at h
  split at h
  case isTrue => exact .inl (Prod.mk.inj (Except.ok.inj h)).left.symm
  case isFalse =>
    split at h
    case isFalse => exact .inl (Prod.mk.inj (Except.ok.inj h)).left.symm
    case isTrue =>
      obtain ⟨page₁, -, h⟩ := Except.bind_eq_ok_iff.mp h
      obtain ⟨page₂, -, h⟩ := Except.bind_eq_ok_iff.mp h
      exact .inr (Prod.mk.inj (Except.ok.inj h)).left.symm

theorem faulted_eq_ok (h : faulted s addr read copymode load copy page old = .ok (pg, page')) :
    old = some pg ∨ pg = load.page ∨ pg = copy := by
  unfold faulted at h
  dsimp only at h
  split at h
  case isTrue => exact (pio_eq_ok h).imp_right .inl
  split at h
  case isTrue =>
    cases old
    case some q => exact (common_eq_ok h).imp (fun he => by rw [he]) .inr
    case none =>
      obtain ⟨page₁, -, h⟩ := Except.bind_eq_ok_iff.mp h
      exact .inr (common_eq_ok h)
  split at h
  case isTrue =>
    obtain ⟨⟨q, page₁⟩, hq, h⟩ := Except.bind_eq_ok_iff.mp h
    rcases common_eq_ok h with rfl | hc
    · exact (pio_eq_ok hq).imp_right .inl
    · exact .inr (.inr hc)
  split at h
  case isFalse => cases h
  case isTrue =>
    cases old
    case some q => exact .inl (congrArg _ (Prod.mk.inj (Except.ok.inj h)).left)
    case none   => exact .inr (.inl (Prod.mk.inj (Except.ok.inj h)).left.symm)

theorem Geometry.fixfault (h : Geometry s) (hlo : s.base ≤ addr) (hhi : addr < s.top) (hload : load.page ∉ s.pages)
    (hcopy : copy ∉ s.pages) (hf : fixfault s addr read copymode load copy page = .ok (s', page')) : Geometry s' := by
  have hle := Nat.div_mul_le_self addr s.pgsz
  have hge : s.base ≤ addr / s.pgsz * s.pgsz := by
    have hd := Nat.div_mul_cancel h.base
    rw [← hd]
    exact Nat.mul_le_mul_right _ (Nat.div_le_div_right hlo)
  have hbound := h.bound
  rw [Segment.fixfault] at hf
  simp only [minus_eq hge (by omega)] at hf
  split at hf
  case isTrue => cases hf
  case isFalse =>
    obtain ⟨⟨pg, page₁⟩, hpg, hf⟩ := Except.bind_eq_ok_iff.mp hf
    obtain rfl := (Prod.mk.inj (Except.ok.inj hf)).left
    refine h.enter hge (hle.trans_lt hhi) fun k hk he => ?_
    rcases faulted_eq_ok hpg with ho | rfl | rfl
    · exact hk (h.wf.slot_inj he ho)
    · exact slot_ne_of_notMem h.wf hload k he
    · exact slot_ne_of_notMem h.wf hcopy k he

end

section

variable {newtop : Nat}

theorem pgsz_of_big {s : Segment} (h : s.pgszi = .big) : s.pgsz = BIGPGSZ := by
  rw [Segment.pgsz, h]
  rfl

theorem newsize_eq {s : Segment} (hbig : s.pgszi = .big) (hb : s.base ≤ newtop) (h64 : newtop < 2 ^ 64)
    (hlt : newtop < s.base + 2 ^ 52) : s.newsize newtop = ((newtop - s.base) / BIGPGSZ : Nat) := by
  have hq : (newtop - s.base) / BIGPGSZ < 2 ^ 31 := by
    unfold BIGPGSZ
    omega
  rw [Segment.newsize, minus_eq hb h64, pgsz_of_big hbig, ← Int.natCast_div, int32_eq_self hq]

theorem longusize_eq (h : n < 2 ^ 32) : longusize n = n := by
  unfold longusize
  omega

namespace Geometry

theorem base_le_top (h : Geometry s) : s.base ≤ s.top :=
  h.top ▸ Nat.le_add_right _ _

theorem div_mul_eq (h : Geometry s) (hbig : s.pgszi = .big) (hb : s.base ≤ newtop) (hd : BIGPGSZ ∣ newtop) :
    newtop = s.base + (newtop - s.base) / BIGPGSZ * BIGPGSZ := by
  have := Nat.div_mul_cancel (Nat.dvd_sub hd (pgsz_of_big hbig ▸ h.base))
  omega

theorem resize (h : Geometry s) (hbig : s.pgszi = .big) (ht : s.top ≤ newtop) (hd : BIGPGSZ ∣ newtop)
    (h64 : newtop < 2 ^ 64) (hn : (newtop - s.base) / BIGPGSZ ≤ SEGMAPSIZE * (PTEMAPMEM / BIGPGSZ)) :
    Geometry (s.resize newtop ((newtop - s.base) / BIGPGSZ : Nat)) := by
  have hb := h.base_le_top.trans ht
  have htop := h.div_mul_eq hbig hb hd
  generalize (newtop - s.base) / BIGPGSZ = m at htop hn ⊢
  have hm : longusize m = m := longusize_eq (hn.trans_lt (by decide))
  have hget (i : Nat) : (s.resize newtop m).map[i]?.join = s.map[i]?.join := by
    rw [Seg.resize]
    by_cases hi : i < s.map.length
    · rw [List.getElem?_append_left hi]
    · rw [List.getElem?_append_right (Nat.le_of_not_lt hi), List.getElem?_eq_none (Nat.le_of_not_lt hi),
        List.getElem?_replicate]
      split <;> rfl
  have hslot (k : Nat) : (s.resize newtop m).slot k = s.slot k :=
    congrArg (·.bind fun pte => pte.pages[k % s.ptepertab]?.join) (hget (k / s.ptepertab))
  refine ⟨⟨.of_slot_inj (fun pte hp => ?_) fun i k p hi hk => ?_, h.pgszi, h.base, ?_, ?_, fun k p hk => ?_⟩,
    h.type, h.image, ?_, ?_, h64⟩
  · rcases List.mem_append.mp hp with hp | hp
    · exact h.wf.pte pte hp
    · simp at hp
  · exact h.wf.slot_inj (hslot i ▸ hi) (hslot k ▸ hk)
  · exact (pgsz_of_big hbig).symm ▸ hd
  · have hr := le_howmany_ptemapmem s.toSegment m
    rw [pgsz_of_big hbig] at hr
    have hl : HOWMANY m s.ptepertab ≤ (s.resize newtop m).map.length := by
      simp only [Seg.resize, List.length_append, List.length_replicate, Int.toNat_natCast]
      omega
    exact htop.trans_le (Nat.add_le_add_left (hr.trans (Nat.mul_le_mul_right _ hl)) _)
  · exact (h.within k p (hslot k ▸ hk)).trans ht
  · exact htop.trans (congrArg (s.base + · * BIGPGSZ) hm.symm)
  · exact hm.trans_le hn

theorem shrink [DecidableEq P] (h : Geometry s) (hbig : s.pgszi = .big) (hb : s.base ≤ newtop) (ht : newtop < s.top)
    (hd : BIGPGSZ ∣ newtop)
    (hm : mfreeseg s newtop (int32 ((s.top - newtop) / s.pgsz)) page = .ok (s', page')) :
    Geometry { s' with top := newtop, size := (newtop - s.base) / BIGPGSZ } := by
  have h64 := h.bound
  have hc := mfreeseg_clears h.wf (minus_eq hb (ht.trans h64)) hm
  obtain ⟨map, rfl⟩ : ∃ map, s' = { s with map := map } := ⟨_, hc.same⟩
  have hpg := pgsz_of_big hbig
  have htop := h.div_mul_eq hbig hb hd
  have hsize := h.size
  have hall := h.top
  -- The places that are cleared are those from the new top to the old one.
  have hva : s.va (s.slotno (newtop - s.base)) = newtop := by
    rw [Seg.va, Seg.slotno, hpg, ← htop]
  have hcount : int32 ((s.top - newtop) / s.pgsz) * s.pgsz = s.top - newtop := by
    obtain ⟨c, hc⟩ : BIGPGSZ ∣ s.top - newtop := Nat.dvd_sub (hpg ▸ h.whole) hd
    have hcast : (s.top : Int) - newtop = (BIGPGSZ * c : Nat) := by omega
    have hlt : c < 2 ^ 31 := by
      unfold BIGPGSZ SEGMAPSIZE PTEMAPMEM GiB at *
      omega
    rw [hcast, hpg, Nat.cast_mul, Int.mul_ediv_cancel_left _ (by decide), int32_eq_self hlt, mul_comm]
  have hslot (k : Nat) (p : P) (hk : Seg.slot { s with map := map } k = some p) : s.slot k = some p ∧ s.va k < newtop := by
    by_cases hr : s.InRange (s.va (s.slotno (newtop - s.base))) (int32 ((s.top - newtop) / s.pgsz)) k
    · exact absurd ((hc.empty k hr).symm.trans hk) (by simp)
    · rw [hc.kept k hr] at hk
      have hw := h.within k p hk
      have hpos := pgsz_pos s.toSegment
      rw [Seg.InRange, hva, hcount] at hr
      exact ⟨hk, by omega⟩
  refine ⟨⟨⟨hc.wf.pte, hc.wf.nodup⟩, h.pgszi, h.base, hpg.symm ▸ hd, ?_, fun k p hk => ?_⟩, h.type, h.image, htop, ?_,
    ht.trans h64⟩
  · exact (ht.le.trans h.room).trans (Nat.add_le_add_left (Nat.mul_le_mul_right _ hc.maps.ge) _)
  · exact add_le_of_dvd (dvd_va h.base k) (hpg.symm ▸ hd) (hslot k p hk).right
  · refine (Nat.div_le_div_right (Nat.sub_le_sub_right ht.le s.base)).trans ?_
    rwa [hall, Nat.add_sub_cancel_left, Nat.mul_div_cancel _ (by decide)]

end Geometry

theorem dvd_newtop {s : Segment} (hbig : s.pgszi = .big) (i : SegNo) (addr : Nat) : BIGPGSZ ∣ s.newtop i addr := by
  rw [Segment.newtop, pgsz_of_big hbig]
  split
  case isTrue  => exact (by decide : BIGPGSZ ∣ GiB).trans dvd_roundup
  case isFalse => exact dvd_roundup

theorem segno_bounds {p : Segs P} {i : SegNo} {addr : Nat} (h : segno p addr = some i) (hs : p i = some s) :
    s.base ≤ addr ∧ addr < s.top := by
  rw [segno] at h
  have hf := List.find?_some h
  rw [decide_eq_true_iff] at hf
  obtain ⟨t, ht, hb⟩ := hf
  rw [plain, hs] at ht
  exact Option.some.inj ht ▸ hb

theorem geometry_update {p : Segs P} {i : SegNo} (h : ∀ j, ∀ t ∈ p j, Geometry t) (hs : Geometry s) :
    ∀ j, ∀ t ∈ Function.update p i (some s) j, Geometry t := by
  intro j t ht
  by_cases hj : j = i
  · subst hj
    rw [Function.update_self] at ht
    exact Option.some.inj ht ▸ hs
  · rw [Function.update_of_ne hj] at ht
    exact h j t ht

theorem geometry_extend {sys : Sys} {p : Segs P} {i : SegNo} {addr : Nat} {r : Nat × Segs P}
    (h : ∀ j, ∀ t ∈ p j, Geometry t) (hs : p i = some s) (hbig : s.pgszi = .big) (ht : s.top ≤ s.newtop i addr)
    (hk : s.newtop i addr ≤ KZERO) (hlt : s.newtop i addr < s.base + 2 ^ 52)
    (hsz : s.newsize (s.newtop i addr) % 2 ^ 32 ≤ (SEGMAPSIZE * s.ptepertab : Nat))
    (he : extend sys p s i (s.newtop i addr) = .ok r) : ∀ j, ∀ t ∈ r.snd j, Geometry t := by
  have hg := h i s hs
  have hd := dvd_newtop hbig i addr
  have hfar (hi : i = .bseg ∧ s.far ≤ s.newtop i addr) := @roundup_far addr _ _ s.pgszi hi.right ht hk
    (by rw [Segment.newtop]; simp only [hi.left, true_and]; rfl)
  have hnew := newsize_eq hbig (hg.base_le_top.trans ht) (hk.trans_lt (by decide)) hlt
  have hper : s.ptepertab = PTEMAPMEM / BIGPGSZ := by rw [Segment.ptepertab, pgsz_of_big hbig]
  generalize s.newtop i addr = newtop at *
  have hle : (newtop - s.base) / BIGPGSZ ≤ SEGMAPSIZE * (PTEMAPMEM / BIGPGSZ) := by
    rw [hnew, hper] at hsz
    unfold BIGPGSZ at hsz ⊢
    omega
  rw [extend] at he
  split at he
  case isFalse =>
    obtain rfl := Except.ok.inj he
    rw [hnew]
    exact geometry_update h (hg.resize hbig ht hd (hk.trans_lt (by decide)) hle)
  case isTrue hi =>
    obtain ⟨hup, hdown, hr⟩ := hfar hi
    have hmid : BIGPGSZ ∣ roundup s.top GiB := (by decide : BIGPGSZ ∣ GiB).trans dvd_roundup
    have hb := hg.base_le_top
    have htop : newtop < 2 ^ 64 := hk.trans_lt (by decide)
    have hsize : int32 (s.newsize newtop - minus newtop (roundup s.top GiB) / BIGPGSZ) =
        ((roundup s.top GiB - s.base) / BIGPGSZ : Nat) := by
      have hdiv := hg.div_mul_eq hbig (hb.trans ht) hd
      have hdiv' := hg.div_mul_eq hbig (hb.trans hup) hmid
      rw [hnew, minus_eq hdown htop]
      generalize (newtop - s.base) / BIGPGSZ = n at *
      generalize (roundup s.top GiB - s.base) / BIGPGSZ = m at *
      have hmn : m ≤ n := Nat.le_of_mul_le_mul_right (by omega) (by decide : 0 < BIGPGSZ)
      have hq : (newtop - roundup s.top GiB) / BIGPGSZ = n - m := by
        rw [hdiv, hdiv', Nat.add_sub_add_left, ← Nat.sub_mul, Nat.mul_div_cancel _ (by decide)]
      have hcast : (n : Int) - ((newtop - roundup s.top GiB : Nat) : Int) / BIGPGSZ = m := by
        rw [← Int.natCast_div, hq]
        omega
      rw [hcast, int32_eq_self (hmn.trans_lt (hle.trans_lt (by decide)))]
    rw [hr] at he
    dsimp only at he
    rw [hsize] at he
    split at he
    case isTrue hneg => exact absurd hneg (not_lt.mpr (Int.natCast_nonneg _))
    case isFalse =>
      obtain ⟨ns, hns, he⟩ := Except.bind_eq_ok_iff.mp he
      obtain rfl := Except.ok.inj he
      have hasked : Asked SG_BSS (roundup s.top GiB) (minus newtop (roundup s.top GiB) / BIGPGSZ) ns.image := by
        refine ⟨by decide, fun hty => absurd hty (by decide), hmid, ?_⟩
        have := Nat.div_mul_le_self (newtop - roundup s.top GiB) BIGPGSZ
        rw [minus_eq hdown htop]
        omega
      have hgns : Geometry { ns with color := s.color } := Geometry.newseg hasked hns
      refine geometry_update (geometry_update h hgns) (hg.resize hbig hup hmid (hdown.trans_lt htop) ?_)
      exact (Nat.div_le_div_right (Nat.sub_le_sub_right hdown _)).trans hle

section

variable [DecidableEq P] {sys : Sys} {p : Segs P} {i : SegNo} {saddr addr : Nat} {r : Nat × Segs P × (P → Page)}

theorem geometry_ibrk (h : ∀ j, ∀ t ∈ p j, Geometry t) (hc : Breaks p addr i)
    (hb : ibrk sys p page addr i = .ok r) : ∀ j, ∀ t ∈ r.snd.fst j, Geometry t := by
  rw [Segment.ibrk] at hb
  split at hb
  case h_1 => cases hb
  case h_2 s hs =>
    split at hb
    case isTrue => exact Except.ok.inj hb ▸ h
    case isFalse ha =>
      obtain ⟨n, hclamp, hb⟩ := Except.bind_eq_ok_iff.mp hb
      obtain ⟨hbig, hc⟩ := hc s hs ha
      obtain ⟨hle, hk, hlt⟩ := hc n (Except.toOption_eq_some_iff.mpr hclamp)
      have hbase := (Sysseg.clamp_le hclamp).trans hle
      dsimp only at hb
      split at hb
      case isTrue ht =>
        obtain ⟨⟨s', page₁⟩, hm, hb⟩ := Except.bind_eq_ok_iff.mp hb
        obtain rfl := Except.ok.inj hb
        have hsize : (s.newtop i n - s.base) / BIGPGSZ < 2 ^ 32 := by
          unfold BIGPGSZ
          omega
        rw [newsize_eq hbig hbase (hk.trans_lt (by decide)) hlt, longusize_eq hsize]
        exact geometry_update h ((h i s hs).shrink hbig hbase ht (dvd_newtop hbig i n) hm)
      case isFalse ht =>
        split at hb
        case isTrue => cases hb
        case isFalse hsz =>
          split at hb
          case isTrue => cases hb
          case isFalse =>
            obtain ⟨r', he, hb⟩ := Except.bind_eq_ok_iff.mp hb
            obtain rfl := Except.ok.inj hb
            exact geometry_extend h hs hbig (Nat.le_of_not_lt ht) hk hlt (Int.not_lt.mp hsz) he

theorem geometry_syssegbrk (h : ∀ j, ∀ t ∈ p j, Geometry t)
    (hc : saddr ≠ 0 → ∀ i ∈ segbrkseg (plain p) saddr, Breaks p addr i)
    (hb : syssegbrk sys p page saddr addr = .ok r) : ∀ j, ∀ t ∈ r.snd.fst j, Geometry t := by
  rw [Segment.syssegbrk] at hb
  split at hb
  case isTrue =>
    split at hb
    case h_1 => exact Except.ok.inj hb ▸ h
    case h_2 => exact Except.ok.inj hb ▸ h
    case h_3 => cases hb
  case isFalse ha =>
    split at hb
    case h_1 => cases hb
    case h_2 i hi =>
      split at hb
      case h_1 => cases hb
      case h_2 =>
        split at hb
        case isTrue  => cases hb
        case isFalse => exact geometry_ibrk h (hc ha i hi) hb

theorem geometry_of_plain : (machine sys (P := P)).Invariant Plain fun st => ∀ i, ∀ s ∈ st.seg i, Geometry s where
  init h i s hs := absurd ((h i).symm.trans hs) (by simp)
  step {st a st'} h hc hs := by
    cases a
    case others page => exact Option.some.inj hs ▸ h
    case newseg i type base size image fstart flen =>
      simp only [machine, step] at hs
      split at hs
      case isFalse => cases hs
      case isTrue ha =>
        obtain ⟨s, hn, hs⟩ := Option.bind_eq_some_iff.mp hs
        obtain rfl := Option.some.inj hs
        exact geometry_update h (Geometry.newseg ha (Except.toOption_eq_some_iff.mp hn))
    case ibrk addr i =>
      obtain ⟨r, hr, hs⟩ := Option.bind_eq_some_iff.mp hs
      obtain rfl := Option.some.inj hs
      exact geometry_ibrk h hc (Except.toOption_eq_some_iff.mp hr)
    case segbrk saddr addr =>
      obtain ⟨r, hr, hs⟩ := Option.bind_eq_some_iff.mp hs
      obtain rfl := Option.some.inj hs
      exact geometry_syssegbrk h hc (Except.toOption_eq_some_iff.mp hr)
    case fault addr read copymode load copy =>
      obtain ⟨i, hi, hs⟩ := Option.bind_eq_some_iff.mp hs
      obtain ⟨s, hsi, hs⟩ := Option.bind_eq_some_iff.mp hs
      split at hs
      case isTrue => cases hs
      case isFalse hpg =>
        obtain ⟨⟨s', page'⟩, hf, hs⟩ := Option.bind_eq_some_iff.mp hs
        obtain rfl := Option.some.inj hs
        rw [not_or] at hpg
        obtain ⟨hlo, hhi⟩ := segno_bounds hi hsi
        exact geometry_update h
          ((h i s hsi).fixfault hlo hhi hpg.left hpg.right (Except.toOption_eq_some_iff.mp hf))
    case segpage i pg =>
      obtain ⟨s, hsi, hs⟩ := Option.bind_eq_some_iff.mp hs
      split at hs
      case isTrue => cases hs
      case isFalse hpg =>
        obtain ⟨s', hsp, hs⟩ := Option.bind_eq_some_iff.mp hs
        obtain rfl := Option.some.inj hs
        exact geometry_update h ((h i s hsi).segpage hpg (Except.toOption_eq_some_iff.mp hsp))

end

end

end Port.Segment
