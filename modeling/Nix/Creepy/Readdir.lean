import Nix.Libc.Dir
import Nix.Lib.Sorted
import Nix.Creepy.DirWalk

-- A directory is read through an open fid, while its children come and go.
namespace Creepy.Readdir

section

open Fblk Dir
open Libc (convD2M)

-- The inner loop of `dfdirnth`: the entry that is found, or how many were seen.
def scan (n : Nat) : List Nat → (tot : Nat) → Except Nat Nat
  | [], tot => .error tot
  | a :: de, tot => if a = 0 then scan n de tot else if tot ≥ n then .ok a else scan n de (tot + 1)

-- The loop of `dfdirnth`, which does not go on past a hole.
def nthloop (d : File) (n : Nat) : (fuel off tot : Nat) → Option (Except Fault Nat)
  | 0, _, _ => none
  | fuel + 1, off, tot =>
    match d.dfslice Dblkdatasz off with
    | .error e => some (.error e)
    | .ok sl =>
      if sl.len = 0 then some (.ok 0) else
      match sl.data with
      | none      => nthloop d n fuel off tot
      | some data =>
        match scan n ((List.range (sl.len / Daddrsz)).map (de data)) tot with
        | .ok a      => some (.ok a)
        | .error tot => nthloop d n fuel (off + sl.len) tot

-- Each slice has an entry at least.
def dfdirnth (d : File) (n : Nat) : Option (Except Fault Nat) :=
  nthloop d n (d.length / Daddrsz + 1) 0 0

-- What is packed of a file.
abbrev Stat := Libc.Dir (Option Libc.CStr)

structure Fid where
  loff : Nat
  lidx : Nat
deriving DecidableEq

section

-- The children, and whether their blocks can be read.
variable (s : Dir.State) (stat : Nat → Stat) (io : Nat → Bool)

-- The result along with the index that is left in the fid. There is no file to pack if `dfdirnth` finds nothing.
def loop (ndata : Nat) : (fuel lidx : Nat) → (data : List UInt8) → Option (Nat × Except Fault (List UInt8))
  | 0, _, _ => none
  | fuel + 1, lidx, data =>
    if data.length + 2 < ndata ∧ lidx < s.ndents then
      match dfdirnth s.d lidx with
      | none            => none
      | some (.error e) => some (lidx, .error e)
      | some (.ok a)    =>
        if a = 0 then some (lidx, .error .fatal) else
        if io a then
          let (nr, p) := convD2M (stat a) (ndata - data.length)
          if nr ≤ 2 then some (lidx, .ok data) else loop ndata fuel (lidx + 1) (data ++ p)
        else some (lidx, .error .error)
    else some (lidx, .ok data)

def readdir (lidx ndata : Nat) : Option (Nat × Except Fault (List UInt8)) :=
  loop s stat io ndata (s.ndents - lidx + 1) lidx []

-- The part of `fidread` that is about directories.
def fidread (fid : Fid) (count : Nat) (offset : Int) : Option (Fid × Except Fault (List UInt8)) :=
  if offset < 0 then some (fid, .error .error) else
  -- non-sequential dir read not supported
  if fid.loff ≠ offset then some (fid, .error .error) else
  (readdir s stat io fid.lidx count).map fun (lidx, r) =>
    match r with
    | .error e  => ({ fid with lidx := lidx }, .error e)
    | .ok data  => ({ loff := fid.loff + data.length, lidx := lidx }, .ok data)

end

-- The entries that are in use, in order, and the children.
def slots (d : Dir.State) : List Nat :=
  (List.range (d.d.length / Daddrsz)).filter (entry d.d · ≠ 0)

def children (d : Dir.State) : List Nat :=
  (slots d).map (entry d.d)

-- A reply, and what was there for it: the entries between the old index and the new one, and their files.
structure Reply where
  data    : List UInt8
  entries : List Nat
  stats   : List Stat

structure State where
  dir     : Dir.State
  fid     : Fid
  -- A number tells what is in an entry. It is not used again.
  who     : Nat → Nat
  next    : Nat
  -- what was in the directory when it was opened, and at some time since then
  opened  : Finset Nat
  seen    : Finset Nat
  replies : List Reply
  -- A read had room for another entry, and there was none.
  ended   : Bool

inductive Act
  | dir (a : Dir.Act)
  | fidread (count : Nat) (offset : Int) (stat : Nat → Stat) (io : Nat → Bool)

namespace State

variable (s : State)

def ids : List Nat :=
  (slots s.dir).map s.who

def got : List Nat :=
  s.replies.flatMap Reply.entries

-- The directory has changed. An entry that was not in use has something new.
def change (dir : Dir.State) : State :=
  let who k := if k ∈ dir.used ∧ k ∉ s.dir.used then s.next else s.who k
  { s with
    dir  := dir
    who  := who
    next := s.next + 1
    seen := s.seen ∪ dir.used.image who }

def fidread (count : Nat) (offset : Int) (stat : Nat → Stat) (io : Nat → Bool) : Option State :=
  (Readdir.fidread s.dir stat io s.fid count offset).map fun (fid, r) =>
    match r with
    | .error _ => { s with fid := fid }
    | .ok data =>
      let n := fid.lidx - s.fid.lidx
      { s with
        fid     := fid
        replies := s.replies ++ [{
          data    := data
          entries := (s.ids.drop s.fid.lidx).take n
          stats   := (((children s.dir).drop s.fid.lidx).take n).map stat }]
        ended   := s.ended ∨ data = [] ∧ 2 < count }

end State

def step (s : State) : Act → Option State
  | .dir a                          => (Dir.step s.dir a).map s.change
  | .fidread count offset stat io   => s.fidread count offset stat io

-- A directory of any history was opened.
structure Init (s : State) : Prop where
  dir     : Dir.machine.Reachable (fun _ _ => True) s.dir
  fid     : s.fid = { loff := 0, lidx := 0 }
  who     : Set.InjOn s.who s.dir.used
  next    : ∀ k ∈ s.dir.used, s.who k < s.next
  opened  : s.opened = s.dir.used.image s.who
  seen    : s.seen = s.opened
  replies : s.replies = []
  ended   : s.ended = false

def machine : Machine State Act where
  init := Init
  step := step

end

open Fblk Dir
open Libc (convD2M sizeD2M encoding text)

variable {s : Dir.State} {stat : Nat → Stat} {io : Nat → Bool} {l : List Nat} {n tot k fuel lidx ndata : Nat}

theorem scan_eq (l : List Nat) (h : tot ≤ n) :
    scan n l tot =
      match (l.filter (· ≠ 0))[n - tot]? with
      | some a => .ok a
      | none   => .error (tot + (l.filter (· ≠ 0)).length) := by
  induction l generalizing tot
  case nil => rfl
  case cons a l ih =>
    rw [scan]
    split
    case isTrue ha => simp [ha, ih h]
    case isFalse ha =>
      have hcons : (a :: l).filter (· ≠ 0) = a :: l.filter (· ≠ 0) := by simp [ha]
      rw [hcons]
      split
      case isTrue hge => rw [Nat.sub_eq_zero_of_le hge]; rfl
      case isFalse hlt =>
        have hsub : n - tot = n - (tot + 1) + 1 := by omega
        rw [ih (by omega), hsub, List.getElem?_cons_succ, List.length_cons, Nat.add_assoc, Nat.add_comm 1]

theorem children_eq (s : Dir.State) :
    children s = ((List.range (s.d.length / Daddrsz)).map (entry s.d)).filter (· ≠ 0) := by
  rw [children, slots, List.filter_map]
  simp only [Function.comp_def]

theorem nthloop_eq (h : Layout s.d) (hk : k ≤ s.d.length / Daddrsz) (hfuel : s.d.length / Daddrsz < k + fuel)
    (ht : tot ≤ n) :
    nthloop s.d n fuel (k * Daddrsz) tot =
      some (.ok ((((List.range' k (s.d.length / Daddrsz - k)).map (entry s.d)).filter (· ≠ 0))[n - tot]?.getD 0)) := by
  induction fuel generalizing k tot
  case zero => omega
  case succ fuel ih =>
    rw [nthloop]
    rcases Nat.eq_or_lt_of_le hk with rfl | hlt
    case inl =>
      have hpast : s.d.length ≤ s.d.length / Daddrsz * Daddrsz := by
        have := h.mod
        simp only [Daddrsz] at *
        omega
      rw [File.dfslice_past hpast]
      simp
    case inr =>
      have ⟨data, m, hsl, hpos, hle, hdata⟩ := dfslice_entries h hlt
      have hm : m * Daddrsz / Daddrsz = m := Nat.mul_div_cancel _ (by decide)
      have hz : m * Daddrsz ≠ 0 := Nat.mul_ne_zero (Nat.ne_of_gt hpos) (by decide)
      have hslice : (List.range m).map (de data) = (List.range' k m).map (entry s.d) := by
        rw [List.range'_eq_map_range, List.map_map]
        exact List.map_congr_left fun i hi => hdata i (List.mem_range.mp hi)
      have hsplit : List.range' k (s.d.length / Daddrsz - k) =
          List.range' k m ++ List.range' (k + m) (s.d.length / Daddrsz - (k + m)) := by
        have hsum : s.d.length / Daddrsz - k = m + (s.d.length / Daddrsz - (k + m)) := by omega
        rw [hsum, ← List.range'_append_1]
      simp only [hsl, if_neg hz, hm, hslice, scan_eq _ ht]
      rw [hsplit, List.map_append, List.filter_append]
      obtain ⟨here, hhere⟩ : ∃ here, here = ((List.range' k m).map (entry s.d)).filter (· ≠ 0) := ⟨_, rfl⟩
      rw [← hhere]
      cases ha : here[n - tot]?
      case some a =>
        rw [List.getElem?_append_left (List.getElem?_eq_some_iff.mp ha).choose, ha]
        rfl
      case none =>
        have hlen := List.getElem?_eq_none_iff.mp ha
        rw [← Nat.add_mul, List.getElem?_append_right hlen, Nat.sub_sub]
        exact ih hle (by omega) (by omega)

theorem dfdirnth_eq (h : Layout s.d) (n : Nat) : dfdirnth s.d n = some (.ok ((children s)[n]?.getD 0)) := by
  have heq : nthloop s.d n (s.d.length / Daddrsz + 1) (0 * Daddrsz) 0 = _ :=
    nthloop_eq h (Nat.zero_le _) (by omega) (Nat.zero_le n)
  rw [Nat.zero_mul] at heq
  rw [dfdirnth, heq, children_eq, List.range_eq_range', Nat.sub_zero, Nat.sub_zero]

theorem mem_slots : k ∈ slots s ↔ k ∈ s.used := by
  rw [slots, List.mem_filter, List.mem_range, State.used, Finset.mem_filter, Finset.mem_range, decide_eq_true_iff]

theorem slots_eq (s : Dir.State) : slots s = s.used.sort := by
  have hnodup : (slots s).Nodup := List.nodup_range.filter _
  have hsorted : (slots s).Pairwise (· ≤ ·) := List.pairwise_le_range.filter _
  have hmem : (slots s).toFinset = s.used := by
    ext k
    rw [List.mem_toFinset, mem_slots]
  rw [← (List.toFinset_sort (· ≤ ·) hnodup).mpr hsorted, hmem]

theorem children_length (s : Dir.State) : (children s).length = s.used.card := by
  rw [children, List.length_map, slots_eq, Finset.length_sort]

theorem children_ne_zero (s : Dir.State) : ∀ a ∈ children s, a ≠ 0 := by
  intro a ha
  rw [children_eq, List.mem_filter, decide_eq_true_iff] at ha
  exact ha.right

-- What is packed of a file.
def packed (st : Stat) : List UInt8 :=
  encoding (st.map text)

-- What the loop has done: the data of the children from one index up to another are behind what there was, or a block
-- could not be read.
structure Packs (s : Dir.State) (stat : Nat → Stat) (io : Nat → Bool) (lidx : Nat) (data : List UInt8) (lidx' : Nat)
    (r : Except Fault (List UInt8)) : Prop where
  ge    : lidx ≤ lidx'
  le    : lidx' ≤ s.ndents
  data  : ∀ data', r = .ok data' →
    data' = data ++ (((children s).drop lidx).take (lidx' - lidx)).flatMap fun a => packed (stat a)
  error : ∀ e, r = .error e → ∃ a, (children s)[lidx']? = some a ∧ io a = false

theorem drop_children {a : Nat} (ha : (children s)[lidx]? = some a) :
    (children s).drop lidx = a :: (children s).drop (lidx + 1) := by
  have hidx := (List.getElem?_eq_some_iff.mp ha).choose
  rw [List.drop_eq_getElem_cons hidx]
  exact congrArg (· :: _) <| Option.some.inj <| (List.getElem?_eq_getElem hidx).symm.trans ha

theorem sizeD2M_eq_length (st : Stat) : sizeD2M st = (packed st).length :=
  Libc.sizeD2M_eq st

theorem packed_gt (st : Stat) : 2 < (packed st).length := by
  rw [packed, Libc.encoding_length]
  omega

theorem convD2M_short (st : Stat) (h : n < (packed st).length) : (convD2M st n).fst ≤ 2 := by
  rw [Libc.convD2M_short (by rwa [sizeD2M_eq_length])]
  split
  · exact Nat.zero_le 2
  · exact Nat.le_refl 2

theorem Packs.ne_nil {lidx' : Nat} {data : List UInt8} (hp : Packs s stat io lidx [] lidx' (.ok data)) (h : Shape s)
    (hlt : lidx < lidx') : data ≠ [] := by
  have hidx : lidx < (children s).length := by
    rw [children_length, ← h.ndents]
    exact hlt.trans_le hp.le
  have hsub : lidx' - lidx = lidx' - (lidx + 1) + 1 := by omega
  rw [hp.data data rfl, drop_children (List.getElem?_eq_getElem hidx), hsub, List.take_succ_cons, List.flatMap_cons]
  intro hnil
  have hpacked := packed_gt (stat (children s)[lidx])
  rw [(List.append_eq_nil_iff.mp (List.append_eq_nil_iff.mp hnil).right).left] at hpacked
  contradiction

theorem loop_succ (h : Shape s) (data : List UInt8) (hroom : data.length + 2 < ndata) {a : Nat}
    (ha : (children s)[lidx]? = some a) :
    loop s stat io ndata (fuel + 1) lidx data =
      if io a = false then some (lidx, .error .error)
      else if ndata - data.length < (packed (stat a)).length then some (lidx, .ok data)
      else loop s stat io ndata fuel (lidx + 1) (data ++ packed (stat a)) := by
  have hlt : lidx < s.ndents := by
    rw [h.ndents, ← children_length]
    exact (List.getElem?_eq_some_iff.mp ha).choose
  have hz : a ≠ 0 := children_ne_zero s a (List.mem_of_getElem? ha)
  rw [loop, if_pos ⟨hroom, hlt⟩, dfdirnth_eq h.layout, ha]
  simp only [Option.getD_some, if_neg hz]
  cases io a
  case false => rfl
  case true =>
    by_cases hs : ndata - data.length < (packed (stat a)).length
    case pos => simp [hs, convD2M_short (stat a) hs]
    case neg =>
      have hge : sizeD2M (stat a) ≤ ndata - data.length := by
        rw [sizeD2M_eq_length]
        exact Nat.not_lt.mp hs
      have hconv : convD2M (stat a) (ndata - data.length) = ((packed (stat a)).length, packed (stat a)) := by
        rw [Libc.convD2M_eq hge, sizeD2M_eq_length]
        rfl
      simp [hs, hconv, packed_gt]

theorem loop_stop {data : List UInt8} (h : ¬(data.length + 2 < ndata ∧ lidx < s.ndents)) :
    loop s stat io ndata (fuel + 1) lidx data = some (lidx, .ok data) := by
  rw [loop, if_neg h]

theorem loop_packs (h : Shape s) (data : List UInt8) (hle : lidx ≤ s.ndents) (hfuel : s.ndents < lidx + fuel) :
    ∃ lidx' r, loop s stat io ndata fuel lidx data = some (lidx', r) ∧ Packs s stat io lidx data lidx' r := by
  induction fuel generalizing lidx data
  case zero => omega
  case succ fuel ih =>
    have hstop : Packs s stat io lidx data lidx (.ok data) :=
      { ge := Nat.le_refl _, le := hle, data := by simp, error := nofun }
    by_cases hgo : data.length + 2 < ndata ∧ lidx < s.ndents
    case neg => exact ⟨lidx, .ok data, loop_stop hgo, hstop⟩
    case pos =>
      obtain ⟨hroom, hlt⟩ := hgo
      have hidx : lidx < (children s).length := by rwa [children_length, ← h.ndents]
      obtain ⟨a, ha⟩ : ∃ a, (children s)[lidx]? = some a := ⟨_, List.getElem?_eq_getElem hidx⟩
      rw [loop_succ h data hroom ha]
      split
      case isTrue hio =>
        refine ⟨lidx, .error .error, rfl, Nat.le_refl _, hle, nofun, fun _ _ => ⟨a, ha, hio⟩⟩
      case isFalse =>
        split
        case isTrue => exact ⟨lidx, .ok data, rfl, hstop⟩
        case isFalse =>
          obtain ⟨lidx', r, hr, hp⟩ := ih (data ++ packed (stat a)) hlt (by omega)
          have hsub : lidx' - lidx = lidx' - (lidx + 1) + 1 := by have := hp.ge; omega
          refine ⟨lidx', r, hr, Nat.le_of_succ_le hp.ge, hp.le, fun data' hd => ?_, hp.error⟩
          rw [hp.data data' hd, drop_children ha, hsub, List.take_succ_cons, List.flatMap_cons, List.append_assoc]

theorem lt_of_loop (h : Shape s) {lidx' : Nat} {r : Except Fault (List UInt8)} {a : Nat}
    (hl : loop s stat io ndata (fuel + 1) lidx [] = some (lidx', r)) (hfuel : s.ndents < lidx + (fuel + 1))
    (ha : (children s)[lidx]? = some a) (hio : io a = true) (hroom : (packed (stat a)).length ≤ ndata) : lidx < lidx' := by
  have hlt : lidx < s.ndents := by
    rw [h.ndents, ← children_length]
    exact (List.getElem?_eq_some_iff.mp ha).choose
  have hgt := packed_gt (stat a)
  have hfits : ¬ndata - ([] : List UInt8).length < (packed (stat a)).length := Nat.not_lt.mpr hroom
  rw [loop_succ h [] (hgt.trans_le hroom) ha, if_neg (by simp [hio]), if_neg hfits] at hl
  obtain ⟨lidx'', r', hr, hp⟩ : ∃ lidx'' r', loop s stat io ndata fuel (lidx + 1) ([] ++ packed (stat a)) = some (lidx'', r') ∧
      Packs s stat io (lidx + 1) ([] ++ packed (stat a)) lidx'' r' := loop_packs h _ hlt (by omega)
  rw [hl] at hr
  cases hr
  exact hp.ge

end Creepy.Readdir
