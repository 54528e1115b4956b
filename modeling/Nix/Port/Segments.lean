import Nix.Port.Segment

namespace Port.Segment

open Sysseg

variable {P : Type}

abbrev Segs (P : Type) := SegNo → Option (Seg P)

-- The segments without what they hold.
def plain (p : Segs P) : Proc := fun i => (p i).map Seg.toSegment

-- The page that is found for a fault: a new one, or one that the image cache has.
inductive Got (P : Type)
  | new (pg : P)
  | cached (pg : P)

def Got.page : Got P → P
  | new pg | cached pg => pg

section

variable [DecidableEq P]

def newpage (page : P → Page) (pg : P) (va : Nat) : Except Fault (P → Page) :=
  if (page pg).ref ≠ 0 then
    .error (.panic "newpage pa")
  else
    .ok (Function.update page pg { page pg with va := va, ref := 1, cachectl := fun _ => PG_NEWCOL })

-- The page from the image, unless it is there.
def pio (s : Seg P) (addr : Nat) (load : Got P) (page : P → Page) : Option P → Except Fault (P × (P → Page))
  | some pg => .ok (pg, page)
  | none    =>
    match load with
    | .cached pg => .ok (pg, incref page pg)
    | .new pg    => do
      let page ← newpage page pg addr
      if s.flushme then
        return (pg, Function.update page pg { page pg with cachectl := fun _ => PG_TXTFLUSH })
      else
        return (pg, page)

-- The page, or a copy of it if others refer to it.
def common (s : Seg P) (addr : Nat) (read copymode : Bool) (copy : P) (pg : P) (page : P → Page) :
    Except Fault (P × (P → Page)) :=
  if read ∧ ¬copymode ∧ s.ref = 1 then
    .ok (pg, page)
  else if 1 < (page pg).ref then do
    let page ← newpage page copy addr
    return (copy, ← putpage page pg)
  else
    .ok (pg, page)

-- The page that a fault leaves at a place where there is `old`.
def faulted (s : Seg P) (addr : Nat) (read copymode : Bool) (load : Got P) (copy : P) (page : P → Page)
    (old : Option P) : Except Fault (P × (P → Page)) :=
  let type := s.type % (SG_TYPE + 1)
  if type = SG_TEXT then
    pio s addr load page old
  else if type ∈ [SG_BSS, SG_SHARED, SG_STACK] then
    match old with
    | some pg => common s addr read copymode copy pg page
    | none    => do common s addr read copymode copy load.page (← newpage page load.page addr)
  else if type = SG_DATA then do
    let (pg, page) ← pio s addr load page old
    common s addr read copymode copy pg page
  else if type = SG_PHYSICAL then
    match old with
    | some pg => .ok (pg, page)
    | none    =>
      .ok (load.page, Function.update page load.page { page load.page with va := addr, ref := 1 })
  else
    .error (.panic "fault")

def fixfault (s : Seg P) (addr : Nat) (read copymode : Bool) (load : Got P) (copy : P) (page : P → Page) :
    Except Fault (Seg P × (P → Page)) :=
  let addr := addr / s.pgsz * s.pgsz
  let soff := minus addr s.base
  if s.map.length ≤ soff / PTEMAPMEM then
    .error .nil
  else do
    let (pg, page) ← faulted s addr read copymode load copy page (s.slot (s.slotno soff))
    return (s.enter soff pg, page)

end

-- The map is made larger if there is no room in it.
def Seg.resize (s : Seg P) (newtop : Nat) (newsize : Int) : Seg P :=
  { s with
    top  := newtop
    size := longusize newsize
    map  := s.map ++ List.replicate (HOWMANY newsize.toNat s.ptepertab - s.map.length) none }

def extend (sys : Sys) (p : Segs P) (s : Seg P) (seg : SegNo) (newtop : Nat) : Except Fault (Nat × Segs P) :=
  if seg = .bseg ∧ s.far ≤ newtop then do
    let rtop := roundup newtop GiB
    let newtop' := roundup s.top GiB
    let newsize := int32 (s.newsize newtop - minus rtop newtop' / BIGPGSZ)
    if newsize < 0 then
      .error (.panic "newsize >= 0")
    else do
      let ns ← newseg sys SG_BSS newtop' (minus rtop newtop' / BIGPGSZ)
      let p := Function.update p .hseg (some { ns with color := s.color })
      return (rtop, Function.update p seg (some (s.resize newtop' newsize)))
  else
    return (newtop, Function.update p seg (some (s.resize newtop (s.newsize newtop))))

section

variable [DecidableEq P]

def ibrk (sys : Sys) (p : Segs P) (page : P → Page) (addr : Nat) (seg : SegNo) :
    Except Fault (Nat × Segs P × (P → Page)) :=
  match p seg with
  | none => .error (.error Ebadarg)
  | some s =>
    if addr = 0 then
      .ok (s.top, p, page)
    else do
      let addr ← clamp (plain p) s.toSegment seg addr
      let newtop := s.newtop seg addr
      let newsize := s.newsize newtop
      if newtop < s.top then do
        let (s', page) ← mfreeseg s newtop (int32 ((s.top - newtop) / s.pgsz)) page
        return (newtop, Function.update p seg (some { s' with top := newtop, size := longusize newsize }), page)
      else if SEGMAPSIZE * s.ptepertab < newsize % 2 ^ 32 then
        .error (.error Enovmem)
      else if ∃ i ∈ SegNo.all, i ≠ seg ∧ ∃ ns ∈ plain p i, ns.base ≤ newtop ∧ newtop < ns.top then
        .error (.error Esoverlap)
      else do
        let (rtop, p) ← extend sys p s seg newtop
        return (rtop, p, page)

def syssegbrk (sys : Sys) (p : Segs P) (page : P → Page) (saddr addr : Nat) :
    Except Fault (Nat × Segs P × (P → Page)) :=
  if saddr = 0 then
    match p .hseg, p .bseg with
    | some s, _    => .ok (s.top, p, page)
    | none, some s => .ok (s.top, p, page)
    | none, none   => .error .nil
  else
    match segbrkseg (plain p) saddr with
    | none => .error (.error Ebadarg)
    | some i =>
      match p i with
      | none => .error (.error Ebadarg)
      | some s =>
        if s.type % (SG_TYPE + 1) ∈ [SG_TEXT, SG_DATA, SG_STACK] then
          .error (.error Ebadarg)
        else
          ibrk sys p page addr i

-- The segment that an address is in.
def segno (p : Segs P) (addr : Nat) : Option SegNo :=
  SegNo.all.find? fun i => ∃ s ∈ plain p i, s.base ≤ addr ∧ addr < s.top

structure Up (P : Type) where
  seg  : Segs P
  page : P → Page

inductive Act (P : Type)
  | newseg (i : SegNo) (type base size : Nat) (image : Option Nat) (fstart flen : Nat)
  | ibrk (addr : Nat) (i : SegNo)
  | segbrk (saddr addr : Nat)
  | fault (addr : Nat) (read copymode : Bool) (load : Got P) (copy : P)
  | segpage (i : SegNo) (pg : P)
  -- what others do to the pages
  | others (page : P → Page)

-- What those who make a segment see to.
def Asked (type base size : Nat) (image : Option Nat) : Prop :=
  type % (SG_TYPE + 1) ≤ SG_PHYSICAL ∧ (type % (SG_TYPE + 1) = SG_DATA → image ≠ none) ∧
  BIGPGSZ ∣ base ∧ base + size * BIGPGSZ < 2 ^ 64

instance : Decidable (Asked type base size image) :=
  inferInstanceAs (Decidable (_ ∧ _))

-- The page that is found for a place is not at another place of the segment.
def step (sys : Sys) (st : Up P) : Act P → Option (Up P)
  | .newseg i type base size image fstart flen =>
    if Asked type base size image then do
      let s : Seg P ← (newseg sys type base size).toOption
      some { st with seg := Function.update st.seg i (some { s with image := image, fstart := fstart, flen := flen }) }
    else
      none
  | .ibrk addr i => do
    let r ← (ibrk sys st.seg st.page (uintptr addr) i).toOption
    some { seg := r.snd.fst, page := r.snd.snd }
  | .segbrk saddr addr => do
    let r ← (syssegbrk sys st.seg st.page (uintptr saddr) (uintptr addr)).toOption
    some { seg := r.snd.fst, page := r.snd.snd }
  | .fault addr read copymode load copy => do
    let i ← segno st.seg addr
    let s ← st.seg i
    if load.page ∈ s.pages ∨ copy ∈ s.pages then
      none
    else
      let r ← (fixfault s addr read copymode load copy st.page).toOption
      some { seg := Function.update st.seg i (some r.fst), page := r.snd }
  | .segpage i pg => do
    let s ← st.seg i
    if pg ∈ s.pages then
      none
    else
      let s ← (segpage s st.page pg).toOption
      some { st with seg := Function.update st.seg i (some s) }
  | .others page => some { st with page := page }

-- There are no segments to begin with.
def machine (sys : Sys) : Machine (Up P) (Act P) where
  init st := ∀ i, st.seg i = none
  step    := step sys

-- The break is of a segment of 2 MiB pages, and the numbers that are computed for it are not too large.
def Breaks (p : Segs P) (addr : Nat) (i : SegNo) : Prop :=
  ∀ s ∈ p i, addr ≠ 0 → s.pgszi = .big ∧ ∀ addr' ∈ (clamp (plain p) s.toSegment i addr).toOption,
    addr' ≤ s.newtop i addr' ∧ s.newtop i addr' ≤ KZERO ∧ s.newtop i addr' < s.base + 2 ^ 52

instance (p : Segs P) (addr : Nat) (i : SegNo) : Decidable (Breaks p addr i) :=
  inferInstanceAs (Decidable (∀ s ∈ p i, _))

def Plain (st : Up P) : Act P → Prop
  | .ibrk addr i        => Breaks st.seg (uintptr addr) i
  | .segbrk saddr addr  => uintptr saddr ≠ 0 → ∀ i ∈ segbrkseg (plain st.seg) (uintptr saddr),
    Breaks st.seg (uintptr addr) i
  | _ => True

instance : ∀ (st : Up P) (a : Act P), Decidable (Plain st a)
  | st, .ibrk addr i        => inferInstanceAs (Decidable (Breaks st.seg (uintptr addr) i))
  | st, .segbrk saddr _     => inferInstanceAs (Decidable (uintptr saddr ≠ 0 → ∀ i ∈ segbrkseg (plain st.seg) _, _))
  | _, .newseg ..           => inferInstanceAs (Decidable True)
  | _, .fault ..            => inferInstanceAs (Decidable True)
  | _, .segpage ..          => inferInstanceAs (Decidable True)
  | _, .others _            => inferInstanceAs (Decidable True)

end

end Port.Segment
