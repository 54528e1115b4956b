import Nix.Port.Chan

namespace Port.Chan

open Libc (CStr Elem cleanname cleanname_slashed slash dot hash)
open Slashes

variable {C : Type} {s t : Block UInt8} {u : List UInt8} {l : List (Option C)} {len alen mlen malen : Nat}

-- What a path is for: a root and the elements below it, each with the channel of the mount point that was crossed there.
structure Name (C : Type) where
  root  : List UInt8
  base  : Option C
  elems : List (List UInt8 × Option C)
deriving DecidableEq

namespace Name

variable (n : Name C)

-- What the elements are added to.
def stem (root : List UInt8) : List UInt8 :=
  if root.getLast? = some slash then root.dropLast else root

def bytes : List UInt8 :=
  if n.elems = [] then n.root else stem n.root ++ slashed slash (n.elems.map Prod.fst)

def points : List (Option C) :=
  n.base :: n.elems.map Prod.snd

def up : Name C :=
  { n with elems := n.elems.dropLast }

def push (e : List UInt8) (c : Option C) : Name C :=
  { n with elems := n.elems ++ [(e, c)] }

def add (e : List UInt8) (c : Option C) : Name C :=
  if e = [dot] then n else if e = [dot, dot] then n.up else n.push e c

-- Another mount point at the last element.
def cross (c : Option C) : Name C :=
  match n.elems.getLast? with
  | none   => { n with base := c }
  | some e => { n with elems := n.elems.dropLast ++ [(e.fst, c)] }

end Name

-- The root of all the names, the one of the root device, or the one of another device.
def Root (root : List UInt8) : Prop :=
  root = [slash] ∨ root = [hash, slash] ∨ root.head? = some hash ∧ root.tail ≠ [] ∧ slash ∉ root.tail

instance : DecidablePred Root :=
  fun _ => inferInstanceAs (Decidable (_ ∨ _ ∨ _))

-- A name that cannot be shortened.
structure Name.Canonical (n : Name C) : Prop where
  root  : Root n.root
  nul   : 0 ∉ n.root
  plain : ∀ e ∈ n.elems, Plain slash dot e.fst ∧ 0 ∉ e.fst

-- A block of memory with a string, and its length.
structure Text (s : Block UInt8) (len alen : Nat) (u : List UInt8) : Prop where
  holds : s.Holds (u ++ [0])
  alen  : s.length = alen
  len   : len = u.length
  nul   : 0 ∉ u

structure Points (mtpt : Block (Option C)) (mlen malen : Nat) (l : List (Option C)) : Prop where
  holds : mtpt.Holds l
  malen : mtpt.length = malen
  mlen  : mlen = l.length

structure Path.Names (p : Path C) (n : Name C) : Prop where
  text   : Text p.s p.len p.alen n.bytes
  points : Points p.mtpt p.mlen p.malen n.points

theorem str_holds (h : s.Holds (u ++ [0])) (hu : 0 ∉ u) : str s = u := by
  obtain ⟨v, rfl⟩ := h
  have hne : ∀ c ∈ u, decide (c ≠ 0) = true := fun c hc => decide_eq_true fun h => hu (h ▸ hc)
  rw [str, List.append_assoc, List.takeWhile_append_of_pos hne]
  exact List.append_nil u

namespace Text

theorem str (h : Text s len alen u) : str s = u :=
  str_holds h.holds h.nul

end Text

theorem newpath_names (name : CStr) : ∃ p : Path C, newpath name = some p ∧ p.ref = 1 ∧ p.Names ⟨name.bytes, none, []⟩ := by
  have hroom : (name.bytes ++ [0]).length ≤ name.bytes.length + PATHSLOP := by
    rw [List.length_append]
    exact Nat.add_le_add_left (by decide) _
  obtain ⟨s, hs, hlen, hholds⟩ := Block.store_alloc (z := (0 : UInt8)) hroom
  refine ⟨_, by rw [newpath, hs]; rfl, rfl, ⟨hholds, hlen, rfl, name.nulfree⟩, ?_, Block.length_alloc, rfl⟩
  exact ⟨List.replicate 19 none, rfl⟩

theorem copypath_names {p : Path C} {n : Name C} (h : p.Names n) :
    ∃ pp, p.copypath = some pp ∧ pp.ref = 1 ∧ pp.Names n ∧ pp.mtpts = p.mtpts := by
  have hload : p.s.load (p.len + 1) = some (n.bytes ++ [0]) := by
    have hlen : p.len + 1 = (n.bytes ++ [0]).length := by rw [h.text.len, List.length_append, List.length_singleton]
    rw [hlen]
    exact Block.load_holds h.text.holds
  have hmtpt : p.mtpt.load p.mlen = some n.points := by
    rw [h.points.mlen]
    exact Block.load_holds h.points.holds
  have hroom : (n.bytes ++ [0]).length ≤ p.alen := h.text.alen ▸ h.text.holds.length_le
  have hmroom : n.points.length ≤ p.malen := h.points.malen ▸ h.points.holds.length_le
  obtain ⟨s, hs, hlen, hholds⟩ := Block.store_alloc (z := (0 : UInt8)) hroom
  obtain ⟨t, ht, hmlen, hmholds⟩ := Block.store_alloc (z := (none : Option C)) hmroom
  refine ⟨{ p with ref := 1, s, mtpt := t }, by simp [Path.copypath, hload, hmtpt, hs, ht], rfl, ?_, ?_⟩
  · exact ⟨⟨hholds, hlen, h.text.len, h.text.nul⟩, hmholds, hmlen, h.points.mlen⟩
  · rw [Path.mtpts, Path.mtpts]
    dsimp only
    rw [h.points.mlen, ← List.prefix_iff_eq_take.mp hmholds, ← List.prefix_iff_eq_take.mp h.points.holds]

-- The string with a slash at its end.
def slashended (u : List UInt8) : List UInt8 :=
  if u.getLast? = some slash then u else u ++ [slash]

theorem growname_text {p : Path C} (h : Text p.s p.len p.alen u) (i : Nat) :
    ∃ s alen, p.growname i = some { p with s, alen } ∧ Text s p.len alen u ∧ u.length + i + 2 ≤ alen := by
  rw [Path.growname]
  split
  case isTrue hgrow =>
    have hload : p.s.load (p.len + 1) = some (u ++ [0]) := by
      have hlen : p.len + 1 = (u ++ [0]).length := by rw [h.len, List.length_append, List.length_singleton]
      rw [hlen]
      exact Block.load_holds h.holds
    have hroom : (u ++ [0]).length ≤ p.len + 1 + i + 1 + PATHSLOP := by
      rw [List.length_append, List.length_singleton, ← h.len]
      omega
    obtain ⟨s, hs, hlen, hholds⟩ := Block.store_alloc (z := (0 : UInt8)) hroom
    refine ⟨s, _, by simp [hload, hs], ⟨hholds, hlen, h.len, h.nul⟩, ?_⟩
    rw [← h.len]
    omega
  case isFalse hroom =>
    rw [h.len] at hroom
    exact ⟨p.s, p.alen, rfl, h, by omega⟩

theorem last_eq (hu : u ≠ []) (h : s.Holds (u ++ [0])) : s[u.length - 1]? = u.getLast? := by
  have hpos := List.length_pos_iff.mpr hu
  obtain ⟨v, rfl⟩ := h
  rw [List.append_assoc, List.getElem?_append_left (by omega), List.getLast?_eq_getElem?]

theorem addslash_holds {p : Path C} {e : CStr} (h : Text p.s p.len p.alen u) (hu : u ≠ []) (he : Elem e.bytes)
    (hroom : u.length + 2 ≤ p.alen) :
    ∃ s, p.addslash e = some { p with s, len := (slashended u).length } ∧ s.length = p.alen ∧ s.Holds (slashended u) := by
  have hlen : p.len = u.length := h.len
  have hpos := List.length_pos_iff.mpr hu
  have hhead : e.bytes.head? ≠ some slash := fun hs => he.slash (List.mem_of_head? hs)
  rw [Path.addslash, hlen, last_eq hu h.holds, slashended]
  by_cases hs : u.getLast? = some slash
  case pos =>
    rw [if_neg fun hc => hc.right.left hs, if_pos hs, ← hlen]
    exact ⟨p.s, rfl, h.alen, h.holds.of_append⟩
  case neg =>
    have hfits : u.length + [slash].length ≤ p.s.length := h.alen ▸ Nat.le_of_succ_le hroom
    obtain ⟨s, hst, hslen, hholds⟩ := Block.store_holds h.holds.of_append hfits
    rw [if_pos ⟨hpos, hs, hhead⟩, if_neg hs, hst, List.length_append]
    exact ⟨s, rfl, hslen.trans h.alen, hholds⟩

theorem addname_text {p : Path C} {e : CStr} (h : Text p.s p.len p.alen u) (hu : u ≠ []) (he : Elem e.bytes) :
    ∃ s len alen, p.addname e = some { p with s, len, alen } ∧ Text s len alen (slashended u ++ e.bytes) := by
  obtain ⟨s, alen, hgrow, htext, hroom⟩ := growname_text h e.bytes.length
  obtain ⟨t, hslash, htlen, hholds⟩ := addslash_holds (p := { p with s, alen }) htext hu he (Nat.le_trans (by omega) hroom)
  have hslashed : (slashended u).length ≤ u.length + 1 := by
    rw [slashended]
    split
    · exact Nat.le_succ _
    · exact Nat.le_of_eq List.length_append
  have hfits : (slashended u).length + (e.bytes ++ [0]).length ≤ t.length := by
    rw [htlen, List.length_append, List.length_singleton]
    change _ ≤ alen
    omega
  obtain ⟨v, hv, hvlen, hvholds⟩ := Block.store_holds hholds hfits
  refine ⟨v, (slashended u ++ e.bytes).length, alen, ?_, ?_, hvlen.trans htlen, rfl, ?_⟩
  · rw [Path.addname, hgrow, Option.bind_eq_bind, Option.bind_some, hslash, Option.bind_eq_bind, Option.bind_some, hv,
      List.length_append]
    rfl
  · rw [List.append_assoc]
    exact hvholds
  · have hslash : 0 ∉ slashended u := by
      rw [slashended]
      split
      · exact h.nul
      · exact fun hm => (List.mem_append.mp hm).elim h.nul (by decide)
    exact fun hm => (List.mem_append.mp hm).elim hslash he.nul

theorem growmtpt_points {p : Path C} (h : Points p.mtpt p.mlen p.malen l) :
    ∃ mtpt malen, p.growmtpt = some { p with mtpt, malen } ∧ Points mtpt p.mlen malen l ∧ l.length < malen := by
  rw [Path.growmtpt]
  split
  case isTrue =>
    have hload : p.mtpt.load p.mlen = some l := by
      rw [h.mlen]
      exact Block.load_holds h.holds
    have hroom : l.length ≤ p.mlen + 1 + PATHMSLOP := by
      rw [← h.mlen]
      omega
    obtain ⟨t, ht, hlen, hholds⟩ := Block.store_alloc (z := (none : Option C)) hroom
    refine ⟨t, _, by simp [hload, ht], ⟨hholds, hlen, h.mlen⟩, ?_⟩
    rw [← h.mlen]
    omega
  case isFalse hlt =>
    rw [h.mlen] at hlt
    exact ⟨p.mtpt, p.malen, rfl, h, Nat.not_le.mp hlt⟩

theorem addmtpt_points {p : Path C} (h : Points p.mtpt p.mlen p.malen l) (c : Option C) :
    ∃ mtpt malen, p.addmtpt c = some { p with mtpt, malen, mlen := p.mlen + 1 } ∧
      Points mtpt (p.mlen + 1) malen (l ++ [c]) := by
  obtain ⟨t, malen, hgrow, hpoints, hroom⟩ := growmtpt_points h
  have hfits : l.length + [c].length ≤ t.length := hpoints.malen ▸ hroom
  obtain ⟨v, hv, hvlen, hvholds⟩ := Block.store_holds hpoints.holds hfits
  refine ⟨v, malen, ?_, hvholds, hvlen.trans hpoints.malen, ?_⟩
  · rw [← h.mlen] at hv
    rw [Path.addmtpt, hgrow, Option.bind_eq_bind, Option.bind_some, hv]
    rfl
  · rw [h.mlen, List.length_append, List.length_singleton]

theorem stem_cases {root : List UInt8} (h : Root root) :
    (root = [slash] ∧ Name.stem root = []) ∨ (root = [hash, slash] ∧ Name.stem root = [hash]) ∨
      ∃ c t, c ≠ slash ∧ slash ∉ t ∧ root = hash :: c :: t ∧ Name.stem root = hash :: c :: t := by
  rcases h with rfl | rfl | ⟨hhead, hne, hslash⟩
  · exact .inl ⟨rfl, rfl⟩
  · exact .inr <| .inl ⟨rfl, rfl⟩
  · obtain ⟨u, rfl⟩ := List.head?_eq_some_iff.mp hhead
    obtain ⟨c, t, rfl⟩ := List.exists_cons_of_ne_nil hne
    rw [List.tail_cons, List.mem_cons, not_or] at hslash
    have hlast : (hash :: c :: t).getLast? ≠ some slash := by
      intro hl
      rcases List.mem_cons.mp (List.mem_of_getLast? hl) with he | hm
      · exact absurd he (by decide)
      · rcases List.mem_cons.mp hm with he | hm
        · exact hslash.left he
        · exact hslash.right hm
    exact .inr <| .inr ⟨c, t, Ne.symm hslash.left, hslash.right, rfl, if_neg hlast⟩

theorem Name.Canonical.plains {n : Name C} (h : n.Canonical) : ∀ e ∈ n.elems.map Prod.fst, Plain slash dot e := by
  intro e he
  obtain ⟨f, hf, rfl⟩ := List.mem_map.mp he
  exact (h.plain f hf).left

theorem slashended_bytes {n : Name C} (h : n.Canonical) :
    slashended n.bytes = Name.stem n.root ++ slashed slash (n.elems.map Prod.fst) ++ [slash] := by
  by_cases hnil : n.elems = []
  case pos =>
    rw [Name.bytes, if_pos hnil, hnil, slashended, Name.stem]
    split
    case isTrue hs => rw [List.map_nil, slashed_nil, List.append_nil, List.dropLast_append_getLast? _ hs]
    case isFalse => rw [List.map_nil, slashed_nil, List.append_nil]
  case neg =>
    obtain ⟨es, e, he⟩ := (List.eq_nil_or_concat' n.elems).resolve_left hnil
    have hplain := (h.plain e (he ▸ List.mem_append_right es (List.mem_singleton_self e))).left
    have hlast : n.bytes.getLast? ≠ some slash := by
      rw [Name.bytes, if_neg hnil, he, List.map_append, List.map_singleton, slashed_concat, ← List.append_assoc]
      rw [List.getLast?_append_of_ne_nil _ (List.cons_ne_nil slash _), List.getLast?_cons_of_ne_nil hplain.nonempty]
      exact fun hl => hplain.sep (List.mem_of_getLast? hl)
    rw [slashended, if_neg hlast, Name.bytes, if_neg hnil]

theorem push_bytes {n : Name C} (e : List UInt8) (c : Option C) :
    (n.push e c).bytes = Name.stem n.root ++ slashed slash (n.elems.map Prod.fst) ++ [slash] ++ e := by
  rw [Name.bytes, Name.push, if_neg (List.append_ne_nil_of_right_ne_nil _ (List.cons_ne_nil _ _)), List.map_append,
    List.map_singleton, slashed_concat, List.append_assoc, List.append_assoc]
  rfl

theorem clean_dotdot {es : List (List UInt8)} (h : ∀ e ∈ es, Plain slash dot e) :
    clean dot (es ++ [[dot, dot]]) = es.dropLast := by
  rw [clean, List.foldl_append, foldl_visit [] h, List.nil_append, List.foldl_cons, visit_parent, List.foldl_nil]

-- How `fixdotdotname` takes a string apart and what it puts in place of the end.
structure Fixed (pre r c : List UInt8) : Prop where
  split : (if (pre ++ r).head? = some hash then (pre ++ r).dropWhile (· ≠ slash) else pre ++ r) = r
  keep  : (if (pre ++ r).head? = some hash ∧ cleanname r = [slash] ∧ (pre ++ r)[1]? ≠ some slash then [] else cleanname r) = c

theorem dropWhile_slash {pre r : List UInt8} (hpre : slash ∉ pre) : (pre ++ slash :: r).dropWhile (· ≠ slash) = slash :: r := by
  have hpos : ∀ c ∈ pre, decide (c ≠ slash) = true := fun c hc => decide_eq_true fun h => hpre (h ▸ hc)
  rw [List.dropWhile_append_of_pos hpos]
  rfl

-- The slash after the name of a device goes if there is nothing else, but not that of the root device.
theorem fixed_root {root r : List UInt8} (h : Root root) :
    Fixed (Name.stem root) (slash :: r)
      (if cleanname (slash :: r) = [slash] then root.drop (Name.stem root).length else cleanname (slash :: r)) := by
  rcases stem_cases h with ⟨hr, hs⟩ | ⟨hr, hs⟩ | ⟨c, t, hc, ht, hr, hs⟩
  case inl =>
    rw [hs, hr]
    refine ⟨rfl, ?_⟩
    have hne : slash ≠ hash := by decide
    rw [if_neg fun hh => hne (Option.some.inj hh.left)]
    split
    case isTrue hroot => exact hroot
    case isFalse => rfl
  case inr.inl =>
    rw [hs, hr]
    refine ⟨rfl, ?_⟩
    rw [if_neg fun hh => hh.right.right rfl]
    split
    case isTrue hroot => exact hroot
    case isFalse => rfl
  case inr.inr =>
    have hpre : slash ∉ hash :: c :: t := by
      rw [List.mem_cons, List.mem_cons]
      rintro (he | he | hm)
      · exact absurd he (by decide)
      · exact hc he.symm
      · exact ht hm
    rw [hs, hr]
    refine ⟨?_, ?_⟩
    · exact (if_pos rfl).trans (dropWhile_slash hpre)
    · have hone : (hash :: c :: t ++ slash :: r)[1]? ≠ some slash := fun h1 => hc (Option.some.inj h1)
      by_cases hroot : cleanname (slash :: r) = [slash]
      case pos => rw [if_pos ⟨rfl, hroot, hone⟩, if_pos hroot, List.drop_length]
      case neg => rw [if_neg fun hh => hroot hh.right.left, if_neg hroot]

theorem stem_drop {root : List UInt8} (h : Root root) : Name.stem root ++ root.drop (Name.stem root).length = root := by
  rcases stem_cases h with ⟨hr, hs⟩ | ⟨hr, hs⟩ | ⟨c, t, _, _, hr, hs⟩
  · rw [hs, hr]
    rfl
  · rw [hs, hr]
    rfl
  · rw [hs, hr, List.drop_length, List.append_nil]

theorem fixdotdotname_text {p : Path C} {pre r c : List UInt8} (h : Text p.s p.len p.alen (pre ++ r)) (hf : Fixed pre r c)
    (hne : r ≠ []) (hlen : c.length ≤ r.length) (hnul : 0 ∉ c) :
    ∃ s, p.fixdotdotname = some { p with s, len := (pre ++ c).length } ∧ Text s (pre ++ c).length p.alen (pre ++ c) := by
  have hholds : p.s.Holds (pre ++ (r ++ [0])) := by
    rw [← List.append_assoc]
    exact h.holds
  have hfits : (c ++ [0]).length ≤ (r ++ [0]).length := by
    rw [List.length_append, List.length_append]
    exact Nat.add_le_add_right hlen _
  obtain ⟨s, hs, hslen, hsholds⟩ := Block.store_within hholds hfits
  rw [← List.append_assoc] at hsholds
  have hpre : 0 ∉ pre ++ c := fun hm => (List.mem_append.mp hm).elim (fun hm => h.nul (List.mem_append_left r hm)) hnul
  have hoff : (pre ++ r).length - r.length = pre.length := by
    rw [List.length_append, Nat.add_sub_cancel]
  refine ⟨s, ?_, hsholds, hslen.trans h.alen, rfl, hpre⟩
  rw [Path.fixdotdotname, h.str]
  dsimp only
  rw [hf.split, if_neg hne, hf.keep, hoff, hs, Option.bind_eq_bind, Option.bind_some, str_holds hsholds hpre]

namespace Name

variable {n : Name C}

theorem Canonical.up (h : n.Canonical) : n.up.Canonical :=
  ⟨h.root, h.nul, fun e he => h.plain e (List.dropLast_subset n.elems he)⟩

theorem Canonical.push (h : n.Canonical) {e : List UInt8} (he : Plain slash dot e) (hnul : 0 ∉ e) (c : Option C) :
    (n.push e c).Canonical := by
  refine ⟨h.root, h.nul, fun f hf => ?_⟩
  rcases List.mem_append.mp hf with hf | hf
  · exact h.plain f hf
  · rw [List.mem_singleton.mp hf]
    exact ⟨he, hnul⟩

theorem Canonical.cross (h : n.Canonical) (c : Option C) : (n.cross c).Canonical := by
  rw [Name.cross]
  split
  case h_1 => exact ⟨h.root, h.nul, h.plain⟩
  case h_2 e he =>
    refine ⟨h.root, h.nul, fun f hf => ?_⟩
    rcases List.mem_append.mp hf with hf | hf
    · exact h.plain f (List.dropLast_subset n.elems hf)
    · rw [List.mem_singleton.mp hf]
      exact h.plain e (List.mem_of_getLast? he)

theorem Canonical.ne_nil (h : n.Canonical) : n.bytes ≠ [] := by
  rw [bytes]
  split
  case isTrue =>
    rcases stem_cases h.root with ⟨hr, _⟩ | ⟨hr, _⟩ | ⟨c, t, _, _, hr, _⟩
    all_goals
      rw [hr]
      exact List.cons_ne_nil _ _
  case isFalse hne =>
    obtain ⟨e, es, he⟩ := List.exists_cons_of_ne_nil hne
    rw [he, List.map_cons, slashed_cons]
    exact List.append_ne_nil_of_right_ne_nil _ (List.cons_ne_nil _ _)

theorem Canonical.elem (h : n.Canonical) : ∀ e ∈ n.elems.map Prod.fst, Elem e := by
  intro e he
  obtain ⟨f, hf, rfl⟩ := List.mem_map.mp he
  exact ⟨(h.plain f hf).left.sep, (h.plain f hf).right⟩

theorem nul_slashed {es : List (List UInt8)} (h : ∀ e ∈ es, Elem e) : 0 ∉ slashed slash es := by
  intro hm
  obtain ⟨e, he, hm⟩ := List.mem_flatMap.mp hm
  rcases List.mem_cons.mp hm with hz | hm
  · exact absurd hz (by decide)
  · exact (h e he).nul hm

theorem Canonical.bytes_nul (h : n.Canonical) : 0 ∉ n.bytes := by
  rw [bytes]
  split
  case isTrue => exact h.nul
  case isFalse =>
    intro hm
    rcases List.mem_append.mp hm with hm | hm
    · rw [stem] at hm
      split at hm
      · exact h.nul (List.dropLast_subset n.root hm)
      · exact h.nul hm
    · exact nul_slashed h.elem hm

theorem Canonical.cleanname_up (h : n.Canonical) :
    cleanname (slashed slash (n.elems.map Prod.fst ++ [[dot, dot]])) = rooted slash (n.up.elems.map Prod.fst) := by
  have hes : ∀ e ∈ n.elems.map Prod.fst ++ [[dot, dot]], Elem e := by
    intro e he
    rcases List.mem_append.mp he with he | he
    · exact h.elem e he
    · rw [List.mem_singleton.mp he]
      exact ⟨by decide, by decide⟩
  have hne : n.elems.map Prod.fst ++ [[dot, dot]] ≠ [] := List.concat_ne_nil _ _
  rw [cleanname_slashed hne hes, clean_dotdot h.plains, Name.up, List.map_dropLast]

theorem Canonical.up_bytes (h : n.Canonical) :
    stem n.root ++ (if rooted slash (n.up.elems.map Prod.fst) = [slash] then n.root.drop (stem n.root).length
      else rooted slash (n.up.elems.map Prod.fst)) = n.up.bytes := by
  by_cases hnil : n.up.elems = []
  case pos =>
    have hroot : rooted slash (([] : List (List UInt8 × Option C)).map Prod.fst) = [slash] := rfl
    rw [bytes, if_pos hnil, hnil, if_pos hroot]
    exact stem_drop h.root
  case neg =>
    have hne : n.up.elems.map Prod.fst ≠ [] := mt List.map_eq_nil_iff.mp hnil
    have hlt := (Libc.one_lt_rooted h.up.plains).mpr hne
    have hroot : rooted slash (n.up.elems.map Prod.fst) ≠ [slash] := by
      intro he
      rw [he] at hlt
      exact Nat.lt_irrefl 1 hlt
    rw [if_neg hroot, bytes, if_neg hnil, rooted_of_ne hne]
    rfl

theorem Canonical.up_short (h : n.Canonical) :
    (if rooted slash (n.up.elems.map Prod.fst) = [slash] then n.root.drop (stem n.root).length
      else rooted slash (n.up.elems.map Prod.fst)).length ≤
      (slashed slash (n.elems.map Prod.fst ++ [[dot, dot]])).length := by
  have hlen := congrArg List.length h.up_bytes
  have hstem : n.root.length ≤ (stem n.root).length + 1 := by
    rw [stem]
    split
    · rw [List.length_dropLast]
      omega
    · exact Nat.le_succ _
  have hdots : ([dot, dot] : List UInt8).length = 2 := rfl
  rw [slashed_concat, List.length_append, List.length_cons, hdots]
  by_cases hnil : n.up.elems = []
  case pos =>
    have hroot : n.up.bytes = n.root := if_pos hnil
    rw [List.length_append, hroot] at hlen
    omega
  case neg =>
    obtain ⟨es, e, he⟩ := (List.eq_nil_or_concat' n.elems).resolve_left fun hn => hnil (by rw [Name.up, hn]; rfl)
    rw [List.length_append, bytes, if_neg hnil, List.length_append] at hlen
    have hup : n.up.elems = es := by rw [Name.up, he, List.dropLast_concat]
    have hle : (slashed slash (n.up.elems.map Prod.fst)).length ≤ (slashed slash (n.elems.map Prod.fst)).length := by
      rw [hup, he, List.map_append, slashed_append, List.length_append]
      exact Nat.le_add_right _ _
    have hroot : (stem n.up.root).length = (stem n.root).length := rfl
    omega

theorem cross_bytes (c : Option C) : (n.cross c).bytes = n.bytes := by
  rw [cross]
  split
  case h_1 => rfl
  case h_2 e he =>
    have hne : n.elems ≠ [] := fun hnil => by rw [hnil] at he; cases he
    have hsplit : n.elems = n.elems.dropLast ++ [e] := (List.dropLast_append_getLast? e he).symm
    have hmap : (n.elems.dropLast ++ [(e.fst, c)]).map Prod.fst = n.elems.map Prod.fst := by
      conv_rhs => rw [hsplit]
      rw [List.map_append, List.map_append]
      rfl
    rw [bytes, bytes, if_neg hne, if_neg (List.concat_ne_nil _ _), hmap]

theorem cross_points (c : Option C) : (n.cross c).points = n.points.dropLast ++ [c] := by
  rw [cross]
  split
  case h_1 he =>
    rw [points, points, List.getLast?_eq_none_iff.mp he]
    rfl
  case h_2 e he =>
    obtain ⟨f, es, hes⟩ := List.exists_cons_of_ne_nil fun hnil : n.elems = [] => by rw [hnil] at he; cases he
    have hdrop : (n.base :: (f :: es).map Prod.snd).dropLast = n.base :: ((f :: es).map Prod.snd).dropLast := rfl
    rw [points, points, hes, hdrop, List.map_append, ← List.map_dropLast]
    rfl

end Name

theorem mtpts_points {p : Path C} (h : Points p.mtpt p.mlen p.malen l) : p.mtpts = l.filterMap id := by
  rw [Path.mtpts, h.mlen, ← List.prefix_iff_eq_take.mp h.holds]

theorem dropmtpt_points {p : Path C} {x : Option C} (h : Points p.mtpt p.mlen p.malen (l ++ [x])) (hl : l ≠ []) :
    ∃ mtpt, p.dropmtpt = some ({ p with mtpt, mlen := p.mlen - 1 }, x) ∧ Points mtpt (p.mlen - 1) p.malen l := by
  have hpos := List.length_pos_iff.mpr hl
  have hmlen : p.mlen = l.length + 1 := by rw [h.mlen, List.length_append, List.length_singleton]
  have hsub : p.mlen - 1 = l.length := by rw [hmlen, Nat.add_sub_cancel]
  have hget : p.mtpt[p.mlen - 1]? = some x := by
    rw [hsub]
    exact Block.getElem?_holds h.holds
  rw [Path.dropmtpt, if_pos (by omega), hget]
  cases x
  case none => exact ⟨p.mtpt, rfl, h.holds.of_append, h.malen, hsub⟩
  case some c =>
    refine ⟨p.mtpt.set (p.mlen - 1) none, rfl, ?_, ?_, hsub⟩
    · rw [hsub]
      exact (Block.set_holds h.holds).of_append
    · rw [List.length_set]
      exact h.malen

theorem dropmtpt_root {p : Path C} {x : Option C} (h : Points p.mtpt p.mlen p.malen [x]) : p.dropmtpt = some (p, none) :=
  if_neg (by rw [h.mlen]; exact Nat.lt_irrefl 1)

theorem elem_dotdot : Elem State.dotdot.bytes :=
  ⟨by decide, by decide⟩

theorem fixdotdotname_up {p : Path C} {n : Name C} (h : p.Names n) (hn : n.Canonical) :
    ∃ s len alen, (p.addname State.dotdot).bind Path.fixdotdotname = some { p with s, len, alen } ∧
      Text s len alen n.up.bytes := by
  obtain ⟨s, len, alen, hadd, htext⟩ := addname_text h.text hn.ne_nil elem_dotdot
  have hr : slash :: (slashed slash (n.elems.map Prod.fst ++ [[dot, dot]])).tail =
      slashed slash (n.elems.map Prod.fst ++ [[dot, dot]]) := by
    cases n.elems
    · rfl
    · rfl
  have hsplit : slashended n.bytes ++ State.dotdot.bytes =
      Name.stem n.root ++ slashed slash (n.elems.map Prod.fst ++ [[dot, dot]]) := by
    rw [slashended_bytes hn, slashed_concat, List.append_assoc, List.append_assoc]
    rfl
  have hfixed := fixed_root (r := (slashed slash (n.elems.map Prod.fst ++ [[dot, dot]])).tail) hn.root
  rw [hr, hn.cleanname_up] at hfixed
  have hshort : (if rooted slash (n.up.elems.map Prod.fst) = [slash] then n.root.drop (Name.stem n.root).length
      else rooted slash (n.up.elems.map Prod.fst)).length ≤
      (slashed slash (n.elems.map Prod.fst ++ [[dot, dot]])).length := hn.up_short
  have hnul : 0 ∉ (if rooted slash (n.up.elems.map Prod.fst) = [slash] then n.root.drop (Name.stem n.root).length
      else rooted slash (n.up.elems.map Prod.fst)) := by
    intro hm
    exact hn.up.bytes_nul (hn.up_bytes ▸ List.mem_append_right _ hm)
  rw [hsplit] at htext
  have hne : slashed slash (n.elems.map Prod.fst ++ [[dot, dot]]) ≠ [] := hr ▸ List.cons_ne_nil _ _
  obtain ⟨t, hfix, htfix⟩ := fixdotdotname_text (p := { p with s, len, alen }) htext hfixed hne hshort hnul
  rw [hn.up_bytes] at hfix htfix
  exact ⟨t, _, alen, by rw [hadd, Option.bind_some, hfix], htfix⟩

theorem Path.Names.up {p : Path C} {n : Name C} (h : p.Names n) (hn : n.Canonical) :
    ∃ q p' c, (p.addname State.dotdot).bind Path.fixdotdotname = some q ∧ q.dropmtpt = some (p', c) ∧ p'.ref = p.ref ∧
      p'.Names n.up ∧ n.points.filterMap id = n.up.points.filterMap id ++ c.toList := by
  obtain ⟨s, len, alen, hfix, htext⟩ := fixdotdotname_up h hn
  by_cases hnil : n.elems = []
  case pos =>
    have hup : n.up.points = [n.base] := by rw [Name.up, Name.points, hnil]; rfl
    have hpoints : n.points = [n.base] := by rw [Name.points, hnil]; rfl
    have hp := h.points
    rw [hpoints] at hp
    refine ⟨_, { p with s, len, alen }, none, hfix, dropmtpt_root hp, rfl, ⟨htext, hup ▸ hp⟩, ?_⟩
    rw [hup, hpoints]
    exact (List.append_nil _).symm
  case neg =>
    obtain ⟨es, e, he⟩ := (List.eq_nil_or_concat' n.elems).resolve_left hnil
    have hup : n.up.points = n.base :: es.map Prod.snd := by rw [Name.up, Name.points, he, List.dropLast_concat]
    have hpoints : n.points = n.base :: es.map Prod.snd ++ [e.snd] := by
      rw [Name.points, he, List.map_append]
      rfl
    have hp := h.points
    rw [hpoints] at hp
    obtain ⟨mtpt, hdrop, hp⟩ := dropmtpt_points (p := { p with s, len, alen }) hp (List.cons_ne_nil _ _)
    refine ⟨_, _, e.snd, hfix, hdrop, rfl, ⟨htext, hup ▸ hp⟩, ?_⟩
    rw [hup, hpoints, List.filterMap_append]
    cases e.snd
    · rfl
    · rfl

theorem Path.Names.push {p : Path C} {n : Name C} (h : p.Names n) (hn : n.Canonical) {e : CStr} (he : Elem e.bytes)
    (c : Option C) :
    ∃ q p', p.addname e = some q ∧ q.addmtpt c = some p' ∧ p'.ref = p.ref ∧ p'.Names (n.push e.bytes c) ∧
      (n.push e.bytes c).points.filterMap id = n.points.filterMap id ++ c.toList := by
  obtain ⟨s, len, alen, hadd, htext⟩ := addname_text h.text hn.ne_nil he
  obtain ⟨mtpt, malen, hmtpt, hpoints⟩ := addmtpt_points (p := { p with s, len, alen }) h.points c
  have hpush : (n.push e.bytes c).points = n.points ++ [c] := by
    rw [Name.points, Name.push, List.map_append]
    rfl
  rw [slashended_bytes hn, ← push_bytes e.bytes c] at htext
  refine ⟨_, _, hadd, hmtpt, rfl, ⟨htext, hpush ▸ hpoints⟩, ?_⟩
  rw [hpush, List.filterMap_append]
  cases c
  · rfl
  · rfl

theorem Path.Names.cross {p : Path C} {n : Name C} (h : p.Names n) (c : Option C) :
    ∃ x, p.mtpt[p.mlen - 1]? = some x ∧ { p with mtpt := p.mtpt.set (p.mlen - 1) c }.Names (n.cross c) ∧
      n.points.filterMap id = n.points.dropLast.filterMap id ++ x.toList ∧
      (n.cross c).points.filterMap id = n.points.dropLast.filterMap id ++ c.toList := by
  have hne : n.points ≠ [] := List.cons_ne_nil _ _
  have hsplit := List.dropLast_append_getLast hne
  have hsub : p.mlen - 1 = n.points.dropLast.length := by rw [h.points.mlen, List.length_dropLast]
  have hholds := h.points.holds
  rw [← hsplit] at hholds
  have htoList (y : Option C) : [y].filterMap id = y.toList := by
    cases y
    · rfl
    · rfl
  refine ⟨n.points.getLast hne, ?_, ⟨?_, ?_, ?_, ?_⟩, ?_, ?_⟩
  · rw [hsub]
    exact Block.getElem?_holds hholds
  · rw [Name.cross_bytes]
    exact h.text
  · rw [Name.cross_points, hsub]
    exact Block.set_holds hholds
  · rw [List.length_set]
    exact h.points.malen
  · rw [Name.cross_points, List.length_append, List.length_singleton, ← hsub, h.points.mlen]
    exact (Nat.sub_add_cancel (List.length_pos_iff.mpr hne)).symm
  · conv_lhs => rw [← hsplit]
    rw [List.filterMap_append, htoList]
  · rw [Name.cross_points, List.filterMap_append, htoList]

end Port.Chan
