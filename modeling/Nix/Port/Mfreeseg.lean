import Nix.Port.Segment
import Nix.Lib.Except
import Mathlib.Data.List.Nodup

namespace Port.Segment

open Sysseg Rows

variable {P : Type} {s s' : Seg P} {pte pte' : Pte P} {page page' : P → Page} {row : List (Option P)} {list : List P}
variable {map : List (Option (Pte P))} {w j n pages : Nat}

theorem mfreerow_eq (hj : j + n = row.length) (hp : 0 < pages) :
    mfreerow j n row pages list =
      (clear j (j + pages) row, pages - n, (found j (j + pages) row).reverse ++ list) := by
  induction n generalizing j row pages list
  case zero =>
    have hc : clear j (j + pages) row = row := by
      refine List.ext_getElem? fun k => ?_
      rw [clear, List.getElem?_mapIdx]
      by_cases hk : k < row.length
      · simp [show ¬j ≤ k by omega]
      · simp [List.getElem?_eq_none (Nat.le_of_not_lt hk)]
    rw [mfreerow, hc, found, List.drop_eq_nil_of_le (by rw [List.length_take]; omega)]
    rfl
  case succ n ih =>
    have hf := found_eq (l := row) (show j < j + pages by omega)
    have hr : (row[j]?.join.toList).reverse = row[j]?.join.toList := by
      cases row[j]?.join <;> rfl
    rw [mfreerow, hf, List.reverse_append, hr]
    split
    case isTrue h =>
      obtain rfl : pages = 1 := by omega
      rw [set_eq_clear, found_of_le (Nat.le_refl _)]
      simp
    case isFalse h =>
      have hd : j + 1 + (pages - 1) = j + pages := by omega
      rw [ih (by rw [List.length_set]; omega) (by omega), hd, clear_set (by omega), found_set, List.append_assoc,
        Nat.sub_sub, Nat.add_comm 1 n]

theorem mfreerows_eq (pages : Nat) (list : List P) (hm : Wide w (ptes map)) (hj : j ≤ w) :
    flat w (ptes (mfreerows w map j pages list).fst) = clear j (j + pages) (flat w (ptes map)) ∧
    (mfreerows w map j pages list).snd = (found j (j + pages) (flat w (ptes map))).reverse ++ list := by
  induction map generalizing j pages list
  case nil => simp [mfreerows, ptes, clear, found]
  case cons pte map ih =>
    by_cases hp : pages = 0
    · have he : mfreerows w (pte :: map) j pages list = (pte :: map, list) := by
        cases pte <;> simp [mfreerows, hp]
      rw [he, clear_of_le (by omega), found_of_le (by omega)]
      simp
    rw [ptes_cons, wide_cons] at hm
    have hs : 0 + (pages - (w - j)) = j + pages - w := by omega
    cases pte
    case none =>
      obtain ⟨ih, hl⟩ := ih (pages - (w - j)) list hm.right (Nat.zero_le w)
      rw [hs] at ih hl
      simp only [mfreerows, hp, if_false, ptes_cons, flat_cons, clear_append, found_append, ih, hl, Option.map_none,
        Option.getD_none, List.length_replicate, clear_replicate, found_replicate, Nat.sub_eq_zero_of_le hj]
      simp
    case some pte =>
      have hw : pte.pages.length = w := hm.left pte.pages rfl
      simp only [mfreerows, hp, if_false, ptes_cons, flat_cons, clear_append, found_append, Option.map_some,
        Option.getD_some, mfreerow_eq (show j + (w - j) = pte.pages.length by omega) (Nat.pos_of_ne_zero hp)]
      obtain ⟨ih, hl⟩ := ih (pages - (w - j)) ((found j (j + pages) pte.pages).reverse ++ list) hm.right (Nat.zero_le w)
      rw [hs] at ih hl
      rw [ih, hl, hw, Nat.sub_eq_zero_of_le hj, List.reverse_append, List.append_assoc]
      exact ⟨rfl, rfl⟩

theorem mfreerows_wf (hm : ∀ pte, some pte ∈ map → pte.WF w) (hj : j ≤ w) :
    ∀ pte, some pte ∈ (mfreerows w map j pages list).fst → pte.WF w := by
  induction map generalizing j pages list
  case nil => simp [mfreerows]
  case cons pte map ih =>
    have hm' : ∀ pte, some pte ∈ map → pte.WF w := fun pte h => hm pte (List.mem_cons_of_mem _ h)
    cases pte
    case none =>
      intro pte h
      simp only [mfreerows] at h
      split at h
      case isTrue  => exact hm pte h
      case isFalse => exact ih hm' (Nat.zero_le w) pte (by simpa using h)
    case some pte =>
      have hw := hm pte List.mem_cons_self
      intro pte' h
      simp only [mfreerows] at h
      split at h
      case isTrue  => exact hm pte' h
      case isFalse hp =>
        rw [mfreerow_eq (by rw [hw.length]; omega) (Nat.pos_of_ne_zero hp), List.mem_cons] at h
        rcases h with h | h
        · obtain rfl := Option.some.inj h
          refine ⟨by rw [length_clear, hw.length], fun k hk => hw.bounds k fun hn => hk ?_⟩
          rw [get_clear, hn, ite_self]
        · exact ih hm' (Nat.zero_le w) pte' h

theorem length_mfreerows : (mfreerows w map j pages list).fst.length = map.length := by
  induction map generalizing j pages list
  case nil => rfl
  case cons pte map ih =>
    cases pte <;> simp only [mfreerows] <;> split <;> simp [ih]

theorem putpages_eq [DecidableEq P] (hn : list.Nodup) (hr : ∀ p ∈ list, 0 < (page p).ref) :
    putpages page list = .ok fun p => if p ∈ list then { page p with ref := (page p).ref - 1 } else page p := by
  induction list generalizing page
  case nil => simp [putpages]
  case cons pg list ih =>
    rw [List.nodup_cons] at hn
    rw [List.forall_mem_cons] at hr
    have hne : ∀ p ∈ list, p ≠ pg := fun p hp he => hn.left (he ▸ hp)
    rw [putpages, putpage, if_neg (Nat.ne_of_gt hr.left), Except.ok_bind,
      ih hn.right fun p hp => by rw [Function.update_of_ne (hne p hp)]; exact hr.right p hp]
    congr 1
    funext p
    by_cases hp : p = pg
    · simp [hp, hn.left]
    · simp [hp]

-- The maps before the first that is looked at stay, and the others are freed.
theorem flat_mfreerows (hm : Wide w (ptes map)) (hw : 0 < w) (k pages : Nat) :
    let rest := mfreerows w (map.drop (k / w)) (k % w) pages []
    flat w (ptes (map.take (k / w) ++ rest.fst)) = clear k (k + pages) (flat w (ptes map)) ∧
    rest.snd = (found k (k + pages) (flat w (ptes map))).reverse := by
  have hs : flat w (ptes map) = flat w (ptes (map.take (k / w))) ++ flat w (ptes (map.drop (k / w))) := by
    rw [← flat_append, ← ptes_append, List.take_append_drop]
  have hm' := hm
  rw [← List.take_append_drop (k / w) map, ptes_append, wide_append] at hm'
  have ht : (flat w (ptes (map.take (k / w)))).length = min (k / w) map.length * w := by
    rw [length_flat hm'.left, ptes, List.length_map, List.length_take]
  have hk := Nat.div_add_mod' k w
  have hle : (flat w (ptes (map.take (k / w)))).length ≤ k := by
    rw [ht]
    exact (Nat.mul_le_mul_right w (Nat.min_le_left _ _)).trans (Nat.div_mul_le_self k w)
  obtain ⟨hf, hl⟩ := mfreerows_eq pages [] hm'.right (Nat.mod_lt k hw).le
  simp only
  rw [ptes_append, flat_append, hf, hl, List.append_nil, hs, clear_append, found_append, clear_of_length_le hle,
    found_of_length_le hle, List.nil_append]
  by_cases hi : map.length ≤ k / w
  · rw [List.drop_eq_nil_of_le hi]
    exact ⟨rfl, by simp [ptes, found]⟩
  · rw [ht, Nat.min_eq_left (Nat.le_of_not_le hi), ← Nat.sub_eq_of_eq_add' hk.symm,
      show k + pages - k / w * w = k - k / w * w + pages by omega]
    exact ⟨rfl, rfl⟩

-- The places whose addresses are in the range of so many pages from `lo` on.
def Seg.InRange (s : Seg P) (lo : Nat) (pages : Int) (k : Nat) : Prop :=
  lo ≤ s.va k ∧ (s.va k : Int) < lo + pages * s.pgsz

-- The segment has nothing at some places any more, and is as it was otherwise.
structure Clears (s s' : Seg P) (range : Nat → Prop) : Prop where
  wf    : s'.WF
  empty : ∀ k, range k → s'.slot k = none
  kept  : ∀ k, ¬range k → s'.slot k = s.slot k
  maps  : s'.map.length = s.map.length
  same  : s' = { s with map := s'.map }

-- The pages at these places have been put once.
structure Frees (s s' : Seg P) (page page' : P → Page) (range : Nat → Prop) : Prop extends Clears s s' range where
  put  : ∀ k p, range k → s.slot k = some p → page' p = { page p with ref := (page p).ref - 1 }
  rest : ∀ p, (∀ k, range k → s.slot k ≠ some p) → page' p = page p

theorem inRange_eq {i : Nat} {count : Int} :
    s.InRange (s.va i) count = fun k => i ≤ k ∧ k < i + count.toNat := by
  funext k
  have hp : 0 < (s.pgsz : Int) := Int.natCast_pos.mpr (pgsz_pos s.toSegment)
  have hl : s.va i ≤ s.va k ↔ i ≤ k := by
    rw [Seg.va, Seg.va, Nat.add_le_add_iff_left, Nat.mul_le_mul_right_iff (pgsz_pos s.toSegment)]
  have hh : (s.va k : Int) < s.va i + count * s.pgsz ↔ (k : Int) < i + count := by
    rw [Seg.va, Seg.va, Nat.cast_add, Nat.cast_add, Nat.cast_mul, Nat.cast_mul, add_assoc, ← add_mul,
      Int.add_lt_add_iff_left, Int.mul_lt_mul_right hp]
  rw [Seg.InRange, hl, hh, eq_iff_iff]
  omega

theorem Clears.clear {lo hi : Nat} (hs : s.WF) (hm : ∀ pte, some pte ∈ map → pte.WF s.ptepertab)
    (hlen : map.length = s.map.length)
    (hf : flat s.ptepertab (ptes map) = Rows.clear lo hi s.slots) :
    Clears s { s with map := map } fun k => lo ≤ k ∧ k < hi := by
  have hs' : Seg.WF { s with map := map } := by
    refine ⟨hm, ?_⟩
    rw [Seg.pages, Seg.slots, hf]
    exact nodup_clear hs.nodup
  have hslot (k : Nat) : Seg.slot { s with map := map } k = if lo ≤ k ∧ k < hi then none else s.slot k := by
    rw [← hs'.slots_get, Seg.slots, hf, get_clear, hs.slots_get]
  exact ⟨hs', fun k hk => by rw [hslot, if_pos hk], fun k hk => by rw [hslot, if_neg hk], hlen, rfl⟩

section

variable [DecidableEq P] {start soff : Nat} {count : Int}

theorem mfreeseg_eq (count : Int) (page : P → Page) (hs : s.WF) (hm : minus start s.base = soff) :
    ∃ map', Clears s { s with map := map' } (s.InRange (s.va (s.slotno soff)) count) ∧
      mfreeseg s start count page =
        (putpages page (found (s.slotno soff) (s.slotno soff + count.toNat) s.slots).reverse).map
          ({ s with map := map' }, ·) := by
  obtain ⟨hf, hl⟩ := flat_mfreerows hs.wide (ptepertab_pos s.toSegment) (s.slotno soff) count.toNat
  rw [← mapno_eq, ← entry_eq] at hf hl
  rw [inRange_eq]
  refine ⟨_, Clears.clear hs (fun pte hp => ?_) ?_ hf, ?_⟩
  · rcases List.mem_append.mp hp with hp | hp
    · exact hs.pte pte (List.mem_of_mem_take hp)
    · refine mfreerows_wf (fun pte hp => hs.pte pte (List.mem_of_mem_drop hp)) ?_ pte hp
      rw [entry_eq]
      exact (Nat.mod_lt _ (ptepertab_pos s.toSegment)).le
  · rw [List.length_append, length_mfreerows, ← List.length_append, List.take_append_drop]
  · simp only [mfreeseg, hm, hl]
    rw [← Seg.slots]
    cases putpages page (found (s.slotno soff) (s.slotno soff + count.toNat) s.slots).reverse <;> rfl

theorem mfreeseg_clears (hs : s.WF) (hm : minus start s.base = soff)
    (h : mfreeseg s start count page = .ok (s', page')) :
    Clears s s' (s.InRange (s.va (s.slotno soff)) count) := by
  obtain ⟨map', hc, he⟩ := mfreeseg_eq count page hs hm
  rw [he, Except.map_eq_ok_iff] at h
  obtain ⟨_, -, h⟩ := h
  exact (Prod.mk.inj h).left ▸ hc

end

namespace Huge

-- A segment of two pages of 1 GiB, of which the first is there.
def seg : Seg Unit where
  type    := SG_BSS
  base    := GiB
  top     := 3 * GiB
  size    := 1024
  pgszi   := .huge
  ref     := 1
  color   := NOCOLOR
  fstart  := 0
  flen    := 0
  image   := none
  flushme := false
  map     := some ⟨0, 0, [some ()]⟩ :: List.replicate 15 none

def mem (_ : Unit) : Page where
  va       := GiB
  ref      := 1
  pgszi    := .huge
  color    := NOCOLOR
  cachectl := fun _ => PG_NEWCOL

theorem wf : seg.WF where
  pte pte h := by
    obtain rfl : pte = ⟨0, 0, [some ()]⟩ := by simpa [seg] using h
    refine ⟨rfl, fun j hj => ?_⟩
    cases j
    case zero   => exact ⟨Nat.le_refl 0, Nat.le_refl 0⟩
    case succ j => simp at hj
  nodup := by decide

end Huge

end Port.Segment
