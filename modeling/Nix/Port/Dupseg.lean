import Nix.Port.SegmentRuns

namespace Port.Segment

open Sysseg Rows

variable {P : Type} [DecidableEq P] {s n : Seg P} {page : P → Page} {mem : Mem P} {old new : Pte P} {map : List (Option (Pte P))}
variable {w j m : Nat}

theorem ptecpyrow_eq (page : P → Page) (hl : new.pages.length = w) (ho : old.pages.length = w)
    (hn : ∀ k, j ≤ k → new.pages[k]?.join = none) (hlast : ∀ k, new.pages[k]?.join ≠ none → k ≤ new.last)
    (hj : new.last ≤ j) : ∃ last pages,
      ptecpyrow old m j new page =
        .ok ({ new with last := last, pages := pages }, (found j (j + m) old.pages).foldl incref page) ∧
      pages.length = w ∧ (∀ k : Nat, pages[k]?.join ≠ none → k ≤ last) ∧
      ∀ k : Nat, pages[k]?.join = if j ≤ k ∧ k < j + m then old.pages[k]?.join else new.pages[k]?.join := by
  induction m generalizing j new page
  case zero =>
    refine ⟨new.last, new.pages, ?_, hl, hlast, fun k => by rw [if_neg (by omega)]⟩
    rw [Nat.add_zero, found_of_le (Nat.le_refl _)]
    rfl
  case succ m ih =>
    rw [ptecpyrow, found_eq (show j < j + (m + 1) by omega), show j + (m + 1) = j + 1 + m by omega]
    cases h : old.pages[j]?.join
    case none =>
      obtain ⟨last, pages, hp, hlen, hlast, hget⟩ :=
        ih (j := j + 1) page hl (fun k hk => hn k (by omega)) hlast (by omega)
      refine ⟨last, pages, hp, hlen, hlast, fun k => ?_⟩
      rw [hget]
      by_cases hk : j = k
      · subst hk
        rw [if_neg (by omega), if_pos (by omega), hn j (Nat.le_refl j), h]
      · have hi : j + 1 ≤ k ∧ k < j + 1 + m ↔ j ≤ k ∧ k < j + 1 + m := by omega
        simp only [hi]
    case some pg =>
      have hlt : j < new.pages.length := by
        refine (List.getElem?_eq_some_iff.mp (Option.join_eq_some_iff.mp h)).choose.trans_eq ?_
        rw [ho, hl]
      have hset (k : Nat) : (new.pages.set j (some pg))[k]?.join = if j = k then some pg else new.pages[k]?.join := by
        rw [List.getElem?_set]
        by_cases hk : j = k
        · rw [if_pos hk, if_pos hlt, if_pos hk]
          rfl
        · rw [if_neg hk, if_neg hk]
      have hlast' (k : Nat) (hk : (new.pages.set j (some pg))[k]?.join ≠ none) : k ≤ j := by
        rw [hset] at hk
        by_cases hjk : j = k
        · exact hjk.ge
        · rw [if_neg hjk] at hk
          exact (hlast k hk).trans hj
      obtain ⟨last, pages, hp, hlen, hlast, hget⟩ :=
        @ih { new with last := j, pages := new.pages.set j (some pg) } (j + 1) (incref page pg)
          (by rwa [List.length_set]) (fun k hk => by rw [hset, if_neg (by omega), hn k (by omega)]) hlast'
          (Nat.le_succ j)
      refine ⟨last, pages, ?_, hlen, hlast, fun k => ?_⟩
      · dsimp only
        rw [if_pos hlt, hp]
        rfl
      · rw [hget, hset]
        by_cases hk : j = k
        · subst hk
          rw [if_neg (by omega), if_pos rfl, if_pos (by omega), h]
        · have hi : j + 1 ≤ k ∧ k < j + 1 + m ↔ j ≤ k ∧ k < j + 1 + m := by omega
          simp only [hi, hk, if_false]

theorem ptecpy_eq (page : P → Page) (ho : old.WF s.ptepertab) : ∃ last,
    ptecpy s old page =
      .ok ({ first := old.first, last := last, pages := old.pages }, old.pages.reduceOption.foldl incref page) ∧
    Pte.WF s.ptepertab { first := old.first, last := last, pages := old.pages } := by
  have hnew : ({ ptealloc s with first := old.first } : Pte P).pages.length = s.ptepertab := (ptealloc_wf s).length
  obtain ⟨last, pages, hp, hlen, hlast, hget⟩ := ptecpyrow_eq (m := old.last + 1 - old.first) page hnew ho.length
    (fun (k : Nat) (_ : old.first ≤ k) => ptealloc_get s k) (fun k hk => absurd (ptealloc_get s k) hk) (Nat.zero_le _)
  have hall (k : Nat) (hk : old.pages[k]?.join ≠ none) :
      old.first ≤ k ∧ k < old.first + (old.last + 1 - old.first) := by
    have := ho.bounds k hk
    omega
  obtain rfl : pages = old.pages := by
    refine ext_get (hlen.trans ho.length.symm) fun k => ?_
    rw [hget]
    split
    case isTrue     => rfl
    case isFalse hk => rw [ptealloc_get, not_ne_iff.mp fun hn => hk (hall k hn)]
  rw [found_eq_all hall] at hp
  exact ⟨last, hp, hlen, fun k hk => ⟨(ho.bounds k hk).left, hlast k hk⟩⟩

-- The loop over the maps copies each map to where it was, if it is not past the end of the new ones.
theorem dupmap_eq (page : P → Page) (hm : ∀ pte, some pte ∈ map → pte.WF n.ptepertab) (hb : ∀ pte, some pte ∉ map.drop m) :
    ∃ map', dupmap n map (List.replicate m none) page =
        .ok (map', (flat n.ptepertab (ptes map)).reduceOption.foldl incref page) ∧
      map'.length = m ∧ (∀ pte, some pte ∈ map' → pte.WF n.ptepertab) ∧
      ∀ i : Nat, map'[i]?.join.map Pte.pages = map[i]?.join.map Pte.pages := by
  induction map generalizing m page
  case nil =>
    refine ⟨List.replicate m none, rfl, List.length_replicate, by simp, fun i => ?_⟩
    rw [List.getElem?_replicate]
    split <;> rfl
  case cons pte map ih =>
    have hm' : ∀ pte, some pte ∈ map → pte.WF n.ptepertab := fun pte h => hm pte (List.mem_cons_of_mem _ h)
    cases pte
    case none =>
      have hflat : (flat n.ptepertab (ptes (none :: map))).reduceOption = (flat n.ptepertab (ptes map)).reduceOption := by
        rw [ptes_cons, flat_cons, List.reduceOption_append, Option.map_none, Option.getD_none,
          List.reduceOption_replicate_none, List.nil_append]
      rw [hflat, dupmap]
      cases m
      case zero =>
        obtain ⟨map', hd, hlen, hw, hget⟩ := ih (m := 0) page hm' fun pte h => hb pte (List.mem_cons_of_mem _ h)
        obtain rfl := List.length_eq_zero_iff.mp hlen
        rw [List.replicate_zero, List.tail_nil, ← List.replicate_zero, hd]
        refine ⟨[], rfl, rfl, hw, fun i => ?_⟩
        cases i
        case zero   => rfl
        case succ i => exact hget i
      case succ m =>
        obtain ⟨map', hd, hlen, hw, hget⟩ := ih page hm' hb
        rw [List.replicate_succ, List.tail_cons, hd]
        refine ⟨none :: map', rfl, congrArg _ hlen, by simpa using hw, fun i => ?_⟩
        cases i
        case zero   => rfl
        case succ i => exact hget i
    case some pte =>
      cases m
      case zero => exact absurd List.mem_cons_self (hb pte)
      case succ m =>
        have hw := hm pte List.mem_cons_self
        obtain ⟨last, hc, hw'⟩ := ptecpy_eq page hw
        obtain ⟨map', hd, hlen, hws, hget⟩ :=
          ih (pte.pages.reduceOption.foldl incref page) hm' hb
        rw [ptes_cons, flat_cons, List.reduceOption_append, Option.map_some, Option.getD_some, List.foldl_append,
          List.replicate_succ, dupmap, hc, Except.ok_bind]
        dsimp only
        rw [hd]
        refine ⟨_, rfl, congrArg _ hlen, fun pte' h => ?_, fun i => ?_⟩
        · rcases List.mem_cons.mp h with h | h
          · exact Option.some.inj h ▸ hw'
          · exact hws pte' h
        · cases i
          case zero   => rfl
          case succ i => exact hget i

theorem foldl_incref {list : List P} (hn : list.Nodup) (p : P) : list.foldl incref page p =
    if p ∈ list then { page p with ref := (page p).ref + 1 } else page p := by
  induction list generalizing page
  case nil => rfl
  case cons q list ih =>
    rw [List.nodup_cons] at hn
    rw [List.foldl_cons, ih hn.right, incref]
    by_cases hp : p = q
    · simp [hp, hn.left]
    · simp [hp]

-- The segment has been copied: the copy is where the original is, and has the same pages.
structure Copies (s n : Seg P) (page page' : P → Page) : Prop where
  type   : n.type = s.type
  base   : n.base = s.base
  top    : n.top = s.top
  size   : n.size = s.size
  slot   : ∀ k, n.slot k = s.slot k
  mapped : ∀ k p, s.slot k = some p → page' p = { page p with ref := (page p).ref + 1 }
  rest   : ∀ p, (∀ k, s.slot k ≠ some p) → page' p = page p

-- The text is read from its image again. It has no pages to begin with.
structure Reloads (s n : Seg P) (page page' : P → Page) : Prop where
  type  : n.type = SG_TEXT
  base  : n.base = s.base
  top   : n.top = s.top
  size  : n.size = s.size
  image : n.image = s.image ∧ n.fstart = s.fstart ∧ n.flen = s.flen
  slot  : ∀ k, n.slot k = none
  pages : page' = page

-- A segment that is made for a copy has pages of the same size, and its map has room for all maps that there are.
def Fits (sys : Sys) (s : Seg P) : Prop :=
  ∀ n ∈ (newseg sys s.type s.base s.size : Except Fault (Seg P)).toOption,
    (s.type % (SG_TYPE + 1) ≠ SG_DATA → n.pgszi = s.pgszi) ∧ ∀ pte ∈ s.map.drop n.map.length, pte = none

instance (sys : Sys) (s : Seg P) : Decidable (Fits sys s) :=
  inferInstanceAs (Decidable (∀ n ∈ (newseg sys s.type s.base s.size : Except Fault (Seg P)).toOption, _))

theorem copyseg_copies (mem : Mem P) (hs : s.WF) (hn : n.map = List.replicate m none) (htype : n.type = s.type)
    (hbase : n.base = s.base) (htop : n.top = s.top) (hsize : n.size = s.size) (hp : n.pgszi = s.pgszi)
    (hb : ∀ pte, some pte ∉ s.map.drop m) :
    ∃ n' mem', copyseg s n mem = .ok (.copy n' mem') ∧ Copies s n' mem.page mem'.page := by
  have hper : n.ptepertab = s.ptepertab := by
    rw [Segment.ptepertab, Segment.ptepertab, Segment.pgsz, Segment.pgsz, hp]
  obtain ⟨map, hd, -, -, hget⟩ := dupmap_eq (n := n) mem.page (hper ▸ hs.pte) hb
  rw [hper] at hd
  rw [copyseg, hn, hd]
  refine ⟨_, _, rfl, htype, hbase, htop, hsize, fun k => ?_, fun k p hk => ?_, fun p hp => ?_⟩
  · have hj := congrArg (fun row => row.bind fun l => l[k % s.ptepertab]?.join) (hget (k / s.ptepertab))
    simp only [Option.bind_map] at hj
    simp only [Seg.slot, hper]
    exact hj
  · exact (foldl_incref hs.nodup p).trans (if_pos (hs.mem_pages.mpr ⟨k, hk⟩))
  · refine (foldl_incref hs.nodup p).trans (if_neg fun hm => ?_)
    obtain ⟨k, hk⟩ := hs.mem_pages.mp hm
    exact hp k hk

omit [DecidableEq P] in
theorem exists_newseg (sys : Sys) (h : Geometry s) (type : Nat) :
    ∃ n : Seg P, newseg sys type s.base s.size = .ok n ∧ n.type = type ∧ n.base = s.base ∧ n.top = s.top ∧
      n.size = s.size ∧ n.map = List.replicate n.map.length none := by
  have htop : uintptr (s.base + s.size * BIGPGSZ) = s.top := h.top ▸ Nat.mod_eq_of_lt h.bound
  rw [newseg, Sysseg.newseg, if_neg (Nat.not_lt.mpr h.size)]
  refine ⟨_, rfl, rfl, rfl, htop, rfl, ?_⟩
  simp only [List.length_replicate]

-- What is made of a segment is the segment, with one more reference, or a copy of it.
def Dup.Of (s : Seg P) (mem : Mem P) : Dup P → Prop
  | .same t      => t = { s with ref := s.ref + 1 }
  | .copy n mem' => Copies s n mem.page mem'.page

theorem dupseg_eq_ok {sys : Sys} (h : Geometry s) (hf : Fits sys s) (segno : SegNo) (share : Bool) (mem : Mem P) :
    ∃ r, dupseg sys s segno share mem = .ok r ∧ (r.Of s mem ∨
      (s.type % (SG_TYPE + 1) = SG_DATA ∧ segno = .tseg) ∧
        ∃ n mem', r = .copy n mem' ∧ Reloads s n mem.page mem'.page) := by
  obtain ⟨n, hn, htype, hbase, htop, hsize, hmap⟩ := exists_newseg sys h s.type
  obtain ⟨hp, hb⟩ := hf n (Except.toOption_eq_some_iff.mpr hn)
  replace hb (pte : Pte P) (hm : some pte ∈ s.map.drop n.map.length) : False := by simpa using hb _ hm
  unfold dupseg
  dsimp only
  split
  case isTrue => exact ⟨_, rfl, .inl rfl⟩
  case isFalse hty =>
    split
    case isTrue hty =>
      have hne : s.type % (SG_TYPE + 1) ≠ SG_DATA := by
        rcases hty with hty | hty
        · rw [hty]; decide
        · rw [hty.left]; decide
      obtain ⟨n', mem', hc, hcopy⟩ := copyseg_copies mem h.wf hmap htype hbase htop hsize (hp hne) hb
      rw [hn, Except.ok_bind]
      exact ⟨_, hc, .inl hcopy⟩
    case isFalse =>
      split
      case isTrue => exact ⟨_, rfl, .inl rfl⟩
      case isFalse =>
        split
        case isFalse hd =>
          have hle := h.type
          simp only [SG_TEXT, SG_SHARED, SG_PHYSICAL, SG_STACK, SG_BSS, SG_DATA, List.mem_cons, List.not_mem_nil,
            or_false] at *
          omega
        case isTrue hd =>
          obtain ⟨image, hi⟩ := Option.ne_none_iff_exists'.mp (h.image hd)
          split
          case isTrue hseg =>
            obtain ⟨ps, hps, htype, hbase, htop, hsize, hmap⟩ := exists_newseg sys h SG_TEXT
            rw [data2txt, hps, Except.ok_bind, hi]
            exact ⟨_, rfl, .inr ⟨⟨hd, hseg⟩, _, _, rfl, htype, hbase, htop, hsize, ⟨hi.symm, rfl, rfl⟩,
              slot_of_replicate hmap, rfl⟩⟩
          case isFalse =>
            split
            case isTrue => exact ⟨_, rfl, .inl rfl⟩
            case isFalse =>
              rw [hn, Except.ok_bind, hi]
              obtain ⟨n', mem', hc, hcopy⟩ := copyseg_copies (increfimage mem image) h.wf
                (n := { n with image := some image, fstart := s.fstart, flen := s.flen, pgszi := s.pgszi, color := s.color })
                hmap htype hbase htop hsize rfl hb
              exact ⟨_, hc, .inl hcopy⟩

def Dup.seg : Dup P → Seg P
  | .same s   => s
  | .copy n _ => n

omit [DecidableEq P] in
theorem Dup.Of.slot {r : Dup P} (h : r.Of s mem) (k : Nat) : r.seg.slot k = s.slot k := by
  cases r
  case same t =>
    obtain rfl : t = { s with ref := s.ref + 1 } := h
    rfl
  case copy n mem' =>
    exact Copies.slot h k

theorem segment_geometry {sys : Sys} {st : Up P} {i : SegNo} (hr : (machine sys).Reachable Plain st)
    (hs : st.seg i = some s) :
    s.top = s.base + s.size * BIGPGSZ ∧ (∀ k p, s.slot k = some p → s.base ≤ s.va k ∧ s.va k + s.pgsz ≤ s.top) ∧
    (Fits sys s → ∀ share imageref, ∃ r, dupseg sys s i share ⟨st.page, imageref⟩ = .ok r ∧
      (r.Of s ⟨st.page, imageref⟩ ∨ (s.type % (SG_TYPE + 1) = SG_DATA ∧ i = .tseg) ∧
        ∃ n mem', r = .copy n mem' ∧ Reloads s n st.page mem'.page)) := by
  have h := geometry_of_plain.holds hr i s hs
  exact ⟨h.top, fun k p hk => ⟨Nat.le_add_right _ _, h.within k p hk⟩,
    fun hf share imageref => dupseg_eq_ok h hf i share ⟨st.page, imageref⟩⟩

-- There is one page, which is free.
def start : Up Unit where
  seg _  := none
  page _ := { va := 0, ref := 0, pgszi := .big, color := 0, cachectl := fun _ => 0 }

def grown : Up Unit :=
  (((machine shared).guarded Plain).exec start
    [.newseg .seg1 SG_BSS UTZERO 1 none 0 0, .ibrk (20 * GiB) .seg1, .fault (18 * GiB) false false (.new ()) (),
      .segbrk UTZERO (19 * GiB)]).get (by decide +kernel)

def grownseg : Seg Unit := (grown.seg .seg1).get (by decide +kernel)

theorem grown_geometry : grownseg.top = grownseg.base + grownseg.size * BIGPGSZ ∧
    ∃ r, dupseg shared grownseg .seg1 false ⟨grown.page, fun _ => 0⟩ = .ok r ∧
      (r.Of grownseg ⟨grown.page, fun _ => 0⟩ ∨ (grownseg.type % (SG_TYPE + 1) = SG_DATA ∧ SegNo.seg1 = .tseg) ∧
        ∃ n mem', r = .copy n mem' ∧ Reloads grownseg n grown.page mem'.page) :=
  have hinit : (machine shared).Reachable Plain start := .init fun _ => rfl
  have hr : (machine shared).Reachable Plain grown := hinit.guarded (Option.some_get _).symm
  have h := segment_geometry (s := grownseg) (i := .seg1) hr (Option.some_get _).symm
  ⟨h.left, h.right.right (by decide +kernel) false fun _ => 0⟩

-- The data segment that the text of a traced process has become, with a page of it.
def traced : Up Unit :=
  ((machine shared).exec start
    [.newseg .tseg SG_DATA UTZERO 1 (some 0) 0 0, .fault UTZERO true false (.new ()) ()]).get (by decide +kernel)

def tracedseg : Seg Unit := (traced.seg .tseg).get (by decide +kernel)

theorem not_segment_geometry : ¬∀ (st : Up Unit) (i : SegNo) (s : Seg Unit) (share : Bool) (imageref : Nat → Nat),
    (machine shared).Reachable (fun _ _ => True) st → st.seg i = some s →
    s.top = s.base + s.size * BIGPGSZ ∧ (∀ k p, s.slot k = some p → s.base ≤ s.va k ∧ s.va k + s.pgsz ≤ s.top) ∧
    ∃ r, dupseg shared s i share ⟨st.page, imageref⟩ = .ok r ∧ r.Of s ⟨st.page, imageref⟩ := by
  intro h
  have hinit : (machine shared).Reachable (fun _ _ => True) start := .init fun _ => rfl
  obtain ⟨-, -, r, hr, hof⟩ := h traced .tseg tracedseg false (fun _ => 0)
    (hinit.exec (fun _ _ _ => trivial) (Option.some_get _).symm) (Option.some_get _).symm
  have hs : ((dupseg shared tracedseg .tseg false ⟨traced.page, fun _ => 0⟩).map fun r => r.seg.slot 0) = .ok none := by
    decide +kernel
  have hp : tracedseg.slot 0 = some () := by decide +kernel
  rw [hr] at hs
  have he : r.seg.slot 0 = none := Except.ok.inj hs
  rw [hof.slot 0, hp] at he
  cases he

-- The size of a segment of 1 GiB pages is in those pages after a break.
example : (((machine shared).exec start
    [.newseg .seg1 SG_BSS GiB 512 none 0 0, .ibrk (3 * GiB) .seg1]).bind (·.seg .seg1)).map
    (fun s => (s.top, s.base + s.size * BIGPGSZ)) = some (3 * GiB, GiB + 2 * BIGPGSZ) := by
  decide +kernel

end Port.Segment
