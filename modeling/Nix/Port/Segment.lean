import Nix.Lib.Rows
import Nix.Port.Sysseg

namespace Port.Segment

open Sysseg

def SSEGMAPSIZE : Nat := 16

def SG_SHARED : Nat := 4

def SG_PHYSICAL : Nat := 5

def NOCOLOR : Int := -1

def PG_TXTFLUSH : Nat := 1

def PG_NEWCOL : Nat := 3

def HOWMANY (x y : Nat) : Nat := (x + (y - 1)) / y

-- The memory that the kernel has for pages.
structure Page where
  va    : Nat
  ref   : Nat
  pgszi : Pgsz
  color : Int
  -- how each machine is to flush the page
  cachectl : Nat → Nat

-- The pages of 1 GiB of a segment, and the first and the last place that is used.
structure Pte (P : Type) where
  first : Nat
  last  : Nat
  pages : List (Option P)
deriving DecidableEq

structure Seg (P : Type) extends Sysseg.Segment where
  ref     : Nat
  color   : Int
  fstart  : Nat
  flen    : Nat
  image   : Option Nat
  flushme : Bool
  map     : List (Option (Pte P))
deriving DecidableEq

variable {P : Type}

def ptes (map : List (Option (Pte P))) : List (Option (List (Option P))) :=
  map.map (Option.map Pte.pages)

@[simp]
theorem ptes_cons (pte : Option (Pte P)) (map : List (Option (Pte P))) :
    ptes (pte :: map) = pte.map Pte.pages :: ptes map :=
  rfl

theorem ptes_append (map map' : List (Option (Pte P))) : ptes (map ++ map') = ptes map ++ ptes map' :=
  List.map_append

namespace Seg

variable (s : Seg P)

-- The number of the place that is `soff` bytes into the segment, and its address.
def slotno (soff : Nat) : Nat := soff / s.pgsz

def va (k : Nat) : Nat := s.base + k * s.pgsz

-- The page at a place.
def slot (k : Nat) : Option P :=
  s.map[k / s.ptepertab]?.join.bind fun pte => pte.pages[k % s.ptepertab]?.join

-- All places of the segment, and all of its pages.
def slots : List (Option P) :=
  Rows.flat s.ptepertab (ptes s.map)

def pages : List P :=
  s.slots.reduceOption

end Seg

-- The pages of a map are as many as a map has, and the bounds are not inside of them.
structure Pte.WF (n : Nat) (pte : Pte P) : Prop where
  length : pte.pages.length = n
  bounds : ∀ j, pte.pages[j]?.join ≠ none → pte.first ≤ j ∧ j ≤ pte.last

-- No page is at two places of one segment.
structure Seg.WF (s : Seg P) : Prop where
  pte   : ∀ pte, some pte ∈ s.map → pte.WF s.ptepertab
  nodup : s.pages.Nodup

theorem ptepertab_mul_pgsz (s : Segment) : s.ptepertab * s.pgsz = PTEMAPMEM := by
  unfold Segment.ptepertab Segment.pgsz
  cases s.pgszi <;> rfl

theorem pgsz_pos (s : Segment) : 0 < s.pgsz :=
  Nat.pos_of_mul_pos_left (ptepertab_mul_pgsz s ▸ by decide : 0 < s.ptepertab * s.pgsz)

theorem ptepertab_pos (s : Segment) : 0 < s.ptepertab :=
  Nat.pos_of_mul_pos_right (ptepertab_mul_pgsz s ▸ by decide : 0 < s.ptepertab * s.pgsz)

theorem mapno_eq (s : Seg P) (soff : Nat) : soff / PTEMAPMEM = s.slotno soff / s.ptepertab := by
  rw [← ptepertab_mul_pgsz s.toSegment, Seg.slotno, Nat.div_div_eq_div_mul, Nat.mul_comm]

theorem entry_eq (s : Seg P) (soff : Nat) : soff % PTEMAPMEM / s.pgsz = s.slotno soff % s.ptepertab := by
  rw [← ptepertab_mul_pgsz s.toSegment, Seg.slotno, Nat.mod_mul_left_div_self]

namespace Seg.WF

variable {s : Seg P} {i k : Nat} {p : P}

theorem wide_of_pte (h : ∀ pte, some pte ∈ s.map → pte.WF s.ptepertab) : Rows.Wide s.ptepertab (ptes s.map) := by
  intro row hr l hl
  obtain ⟨pte, hp, rfl⟩ := List.mem_map.mp hr
  obtain ⟨pte, rfl, rfl⟩ := Option.map_eq_some_iff.mp hl
  exact (h pte hp).length

theorem slots_get_of_wide (h : Rows.Wide s.ptepertab (ptes s.map)) : s.slots[k]?.join = s.slot k := by
  rw [slots, Rows.get_flat (ptepertab_pos s.toSegment) h, ptes, List.getElem?_map, slot]
  cases s.map[k / s.ptepertab]?
  case none     => rfl
  case some pte => cases pte <;> rfl

theorem of_slot_inj (hp : ∀ pte, some pte ∈ s.map → pte.WF s.ptepertab)
    (hn : ∀ i k p, s.slot i = some p → s.slot k = some p → i = k) : s.WF where
  pte   := hp
  nodup := Rows.nodup_iff.mpr fun i k p => by
    rw [slots_get_of_wide (wide_of_pte hp), slots_get_of_wide (wide_of_pte hp)]
    exact hn i k p

theorem wide (h : s.WF) : Rows.Wide s.ptepertab (ptes s.map) :=
  wide_of_pte h.pte

theorem slots_get (h : s.WF) : s.slots[k]?.join = s.slot k :=
  slots_get_of_wide h.wide

theorem mem_pages (h : s.WF) : p ∈ s.pages ↔ ∃ k, s.slot k = some p := by
  simp only [pages, Rows.mem_reduceOption, h.slots_get]

theorem slot_inj (h : s.WF) (hi : s.slot i = some p) (hk : s.slot k = some p) : i = k :=
  Rows.nodup_iff.mp h.nodup i k p (h.slots_get.trans hi) (h.slots_get.trans hk)

end Seg.WF

def newseg (sys : Sys) (type base size : Nat) : Except Fault (Seg P) := do
  let s ← Sysseg.newseg sys type base size
  let mapsize := HOWMANY (size * BIGPGSZ / s.pgsz) s.ptepertab
  let mapsize := if SSEGMAPSIZE < mapsize then min (2 * mapsize) (SEGMAPSIZE * s.ptepertab) else SSEGMAPSIZE
  return { s with
    ref := 1, color := NOCOLOR, fstart := 0, flen := 0, image := none, flushme := false,
    map := List.replicate mapsize none }

def ptealloc (s : Seg P) : Pte P where
  first := s.ptepertab
  last  := 0
  pages := List.replicate s.ptepertab none

section

variable [DecidableEq P]

def putpage (page : P → Page) (p : P) : Except Fault (P → Page) :=
  if (page p).ref = 0 then
    .error (.panic "putpage")
  else
    .ok (Function.update page p { page p with ref := (page p).ref - 1 })

def putpages (page : P → Page) : List P → Except Fault (P → Page)
  | []        => .ok page
  | p :: list => do putpages (← putpage page p) list

end

-- The loop of `mfreeseg` over the last `n` places of a map, when `pages` are still to be looked at.
def mfreerow (j : Nat) : Nat → List (Option P) → Nat → List P → List (Option P) × Nat × List P
  | 0, row, pages, list => (row, pages, list)
  | n + 1, row, pages, list =>
    let list := row[j]?.join.toList ++ list
    if pages - 1 = 0 then
      (row.set j none, 0, list)
    else
      mfreerow (j + 1) n (row.set j none) (pages - 1) list

-- The loop of `mfreeseg` over the maps. The pages that are to be put are on the list.
def mfreerows (ptepertab : Nat) :
    List (Option (Pte P)) → Nat → Nat → List P → List (Option (Pte P)) × List P
  | [], _, _, list => ([], list)
  | none :: map, j, pages, list =>
    if pages = 0 then
      (none :: map, list)
    else
      let (map, list) := mfreerows ptepertab map 0 (pages - (ptepertab - j)) list
      (none :: map, list)
  | some pte :: map, j, pages, list =>
    if pages = 0 then
      (some pte :: map, list)
    else
      let (row, pages, list) := mfreerow j (ptepertab - j) pte.pages pages list
      let (map, list) := mfreerows ptepertab map 0 pages list
      (some { pte with pages := row } :: map, list)

-- The loops stop when there are no more pages to look at, and also when there were never any.
def mfreeseg [DecidableEq P] (s : Seg P) (start : Nat) (pages : Int) (page : P → Page) :
    Except Fault (Seg P × (P → Page)) := do
  let soff := minus start s.base
  let rest := mfreerows s.ptepertab (s.map.drop (soff / PTEMAPMEM)) (soff % PTEMAPMEM / s.pgsz) pages.toNat []
  let page ← putpages page rest.snd
  return ({ s with map := s.map.take (soff / PTEMAPMEM) ++ rest.fst }, page)

-- A place is given a page, in a map that is made for it if there is none.
def Seg.enter (s : Seg P) (soff : Nat) (pg : P) : Seg P :=
  let i := soff / PTEMAPMEM
  let j := soff % PTEMAPMEM / s.pgsz
  let pte := s.map[i]?.join.getD (ptealloc s)
  { s with map := s.map.set i (some
      { first := min pte.first j, last := max pte.last j, pages := pte.pages.set j (some pg) }) }

def segpage (s : Seg P) (page : P → Page) (p : P) : Except Fault (Seg P) :=
  let s := if s.color = NOCOLOR then { s with color := (page p).color } else s
  if s.pgszi ≠ (page p).pgszi then
    .error (.panic "segpage: s->pgszi != p->pgszi")
  else if (page p).va < s.base ∨ s.top ≤ (page p).va then
    .error (.panic "segpage: p->va < s->base || p->va >= s->top")
  else
    .ok (s.enter (minus (page p).va s.base) p)

section

variable [DecidableEq P]

def incref (page : P → Page) (p : P) : P → Page :=
  Function.update page p { page p with ref := (page p).ref + 1 }

-- The loop of `ptecpy` over `n` places from `j` on. A map of `n` may have fewer than that of the original.
def ptecpyrow (old : Pte P) : Nat → Nat → Pte P → (P → Page) → Except Fault (Pte P × (P → Page))
  | 0, _, new, page => .ok (new, page)
  | n + 1, j, new, page =>
    match old.pages[j]?.join with
    | none    => ptecpyrow old n (j + 1) new page
    | some pg =>
      if j < new.pages.length then
        ptecpyrow old n (j + 1) { new with last := j, pages := new.pages.set j (some pg) } (incref page pg)
      else
        .error .nil

def ptecpy (s : Seg P) (old : Pte P) (page : P → Page) : Except Fault (Pte P × (P → Page)) :=
  ptecpyrow old (old.last + 1 - old.first) old.first { ptealloc s with first := old.first } page

-- The loop of `dupseg` over the maps.
def dupmap (n : Seg P) :
    List (Option (Pte P)) → List (Option (Pte P)) → (P → Page) → Except Fault (List (Option (Pte P)) × (P → Page))
  | [], new, page => .ok (new, page)
  | none :: old, new, page => do
    let (rest, page) ← dupmap n old new.tail page
    return (new.head?.toList ++ rest, page)
  | some _ :: _, [], _ => .error .nil
  | some pte :: old, _ :: new, page => do
    let (pte, page) ← ptecpy n pte page
    let (rest, page) ← dupmap n old new page
    return (some pte :: rest, page)

structure Mem (P : Type) where
  page     : P → Page
  imageref : Nat → Nat

-- What `dupseg` makes of a segment: the segment itself, or one more.
inductive Dup (P : Type)
  | same (s : Seg P)
  | copy (n : Seg P) (mem : Mem P)

def increfimage (mem : Mem P) (i : Nat) : Mem P :=
  { mem with imageref := Function.update mem.imageref i (mem.imageref i + 1) }

def data2txt (sys : Sys) (s : Seg P) (mem : Mem P) : Except Fault (Dup P) := do
  let ps ← newseg sys SG_TEXT s.base s.size
  match s.image with
  | none   => .error .nil
  | some i =>
    return .copy { ps with image := some i, fstart := s.fstart, flen := s.flen, flushme := true } (increfimage mem i)

def copyseg (s n : Seg P) (mem : Mem P) : Except Fault (Dup P) := do
  let (map, page) ← dupmap n s.map n.map mem.page
  return .copy { n with map := map, flushme := s.flushme } { mem with page := page }

-- The variable `n` is not set for a type that is not known.
def dupseg (sys : Sys) (s : Seg P) (segno : SegNo) (share : Bool) (mem : Mem P) : Except Fault (Dup P) :=
  let type := s.type % (SG_TYPE + 1)
  if type ∈ [SG_TEXT, SG_SHARED, SG_PHYSICAL] then
    .ok (.same { s with ref := s.ref + 1 })
  else if type = SG_STACK ∨ (type = SG_BSS ∧ ¬share) then do
    copyseg s (← newseg sys s.type s.base s.size) mem
  else if type = SG_BSS then
    .ok (.same { s with ref := s.ref + 1 })
  else if type = SG_DATA then
    if segno = .tseg then
      data2txt sys s mem
    else if share then
      .ok (.same { s with ref := s.ref + 1 })
    else do
      let n ← newseg sys s.type s.base s.size
      match s.image with
      | none   => .error .nil
      | some i =>
        copyseg s { n with image := some i, fstart := s.fstart, flen := s.flen, pgszi := s.pgszi, color := s.color }
          (increfimage mem i)
  else
    .error .nil

end

end Port.Segment
