import Nix.Lib.Memory
import Nix.Creepy.FblkData

-- A directory and the requests for its children. Each request has the directory locked, and melted
-- if it is changed.
namespace Creepy.Dir

section

open Fblk

-- The file of a child.
structure Child where
  name : String
  dir  : Bool
  deriving DecidableEq

structure State where
  -- the directory, whose data are the addresses of its children and zeroes
  d      : File
  ndents : Nat
  -- the file at each address
  child  : Nat → Child

-- The entry `i` of a slice.
def de (data : Data) (i : Nat) : Nat :=
  LittleEndian.decode <| (List.range Daddrsz).map fun j => data (i * Daddrsz + j)

-- The entry of a directory at an index.
def entry (f : File) (k : Nat) : Nat :=
  de f.stored k

-- More slices than `dfblk` can find blocks for.
def Nslices : Nat :=
  Ndptr + Dptrperblk + Dptrperblk ^ 2 + 2

-- `dfslice` to write, for all there is of a block.
def dfslicemk (f : File) (off : Nat) : Except Fault (File × Nat × Data) :=
  if off < f.dlen then .ok (f, f.dlen - off, fun k => f.embed (f.embedattrsz + off + k))
  else do
    let boff := (off - f.dlen) % Dblkdatasz
    let l ← locate (ulong <| (off - f.dlen) / Dblkdatasz)
    let f := f.modify id l
    .ok (f, Dblkdatasz - boff, fun k => (f.blk l).getD 0 (boff + k))

-- The loop of `dfchdentry`, which allocates blocks as it looks for an entry.
def chloop (addr : Nat) : (fuel : Nat) → File → (off : Nat) → Except Fault (File × Nat)
  | 0, _, _ => .error .fatal
  | fuel + 1, f, off => do
    let (f, len, data) ← dfslicemk f off
    match (List.range (len / Daddrsz)).find? (de data · = addr) with
    | some i => .ok (f, off + i * Daddrsz)
    | none   => chloop addr fuel f (off + len)

namespace State

variable (s : State)

-- The indices of the entries that are in use.
def used : Finset Nat :=
  {k ∈ Finset.range (s.d.length / Daddrsz) | entry s.d k ≠ 0}

-- The addresses of the children.
def linked (a : Nat) : Prop :=
  ∃ k ∈ s.used, entry s.d k = a

-- The address of a new block.
def fresh (a : Nat) : Prop :=
  0 < a ∧ a < 2 ^ 64 ∧ ∀ k ∈ s.used, entry s.d k ≠ a

instance : Decidable (s.fresh a) :=
  inferInstanceAs (Decidable (_ ∧ _ ∧ _))

def setchild (a : Nat) (c : Child) : State :=
  { s with child := Function.update s.child a c }

-- What `dfchdentry` does once it has found the entry for `addr` at `off`.
def chdentry (addr naddr off : Nat) (f : File) : State :=
  if addr = 0 ∧ naddr ≠ 0 then
    { s with d := f.grow (off + Daddrsz), ndents := s.ndents + 1 }
  else if addr ≠ 0 ∧ naddr = 0 then
    { s with d := f, ndents := s.ndents - 1 }
  else { s with d := f }

def dfchdentry (addr naddr : Nat) : Except Fault State := do
  if addr = naddr ∨ s.d.length / Daddrsz < s.ndents then .error .fatal else
  let (f, off) ← chloop addr Nslices s.d 0
  let (_, f) ← f.store off (LittleEndian.encode Daddrsz naddr)
  let s := s.chdentry addr naddr off f
  if s.d.length / Daddrsz < s.ndents then .error .fatal else .ok s

-- The length is reset when the last child goes.
def dfremove (a : Nat) : Except Fault State := do
  let s ← s.dfchdentry a 0
  .ok <| if s.ndents = 0 ∧ s.d.length > 0 then { s with d.length := 0 } else s

-- The loop of `dfwalk`. It does not go on past a hole.
def walkloop (name : String) : (fuel off : Nat) → Option (Except Fault Nat)
  | 0, _ => none
  | fuel + 1, off =>
    match s.d.dfslice Dblkdatasz off with
    | .error e => some (.error e)
    | .ok sl =>
      -- file not found
      if sl.len = 0 then some (.error .error) else
      match sl.data with
      | none => walkloop name fuel off
      | some data =>
        let found i := decide (de data i ≠ 0 ∧ (s.child (de data i)).name = name)
        match (List.range (sl.len / Daddrsz)).find? found with
        | some i => some (.ok (de data i))
        | none   => walkloop name fuel (off + sl.len)

-- `none` when the loop goes round more than `fuel` times.
def dfwalk (name : String) (fuel : Nat) : Option (Except Fault Nat) :=
  if name = ".." then some (.error .fatal) else s.walkloop name fuel 0

end State

-- Requests that pass the checks for permissions. `a` is the address of a child, and `na` that of the
-- block that is allocated for a new one, or for a copy of one that is frozen.
inductive Act
  | create (name : String) (dir : Bool) (na : Nat)
  | remove (a : Nat)
  | rename (a : Nat) (name : String)
  | melt (a na : Nat)

-- Those that complete.
def step (s : State) : Act → Option State
  | .create name dir na =>
    if name = "." ∨ name = ".." ∨ '/' ∈ name.toList ∨ ¬s.fresh na then none else
    -- Whether there is a file with this name makes no difference: the error that says so is caught.
    ((s.setchild na { name := name, dir := dir }).dfchdentry 0 na).toOption
  | .remove a => (s.dfremove a).toOption
  | .rename a name =>
    if name = "" ∨ name = (s.child a).name then some s else
    -- The name is looked up in the child itself, which then has to be a directory.
    if ¬(s.child a).dir ∨ name = ".." then none else
    some <| s.setchild a { s.child a with name := name }
  | .melt a na =>
    if a = 0 ∨ ¬s.fresh na then none else
    ((s.setchild na (s.child a)).dfchdentry a na).toOption

-- A new directory.
structure Created (s : State) : Prop where
  file   : Fblk.Created s.d
  ndents : s.ndents = 0

def machine : Machine State Act where
  init := Created
  step := step

end

open Fblk

variable {f f' : File}

theorem dlen_mod (f : File) : f.dlen % Daddrsz = 0 := by
  rw [File.dlen, File.embedattrsz]
  split <;> rfl

theorem room_mod (f : File) (k : Nat) : f.room (k * Daddrsz) % Daddrsz = 0 := by
  have hd := dlen_mod f
  rw [File.room]
  simp only [Dblkdatasz, Dblksz, Dblkhdrsz, Daddrsz] at *
  split <;> omega

theorem de_congr {data data' : Data} (h : ∀ j < Daddrsz, data (i * Daddrsz + j) = data' (k * Daddrsz + j)) :
    de data i = de data' k := by
  rw [de, de]
  exact congrArg _ <| List.map_congr_left fun j hj => h j (List.mem_range.mp hj)

theorem de_slice {data : Data} (h : ∀ j < n, data j = f.stored (k * Daddrsz + j)) (hi : (i + 1) * Daddrsz ≤ n) :
    de data i = entry f (k + i) := by
  refine de_congr fun j hj => ?_
  rw [h _ (by simp only [Daddrsz] at *; omega), Nat.add_mul, Nat.add_assoc]

theorem entry_overwrite (hv : v < 2 ^ 64)
    (h : ∀ pos < f.capacity, f'.stored pos = overwrite f.stored (k * Daddrsz) (LittleEndian.encode Daddrsz v) pos)
    (hj : (j + 1) * Daddrsz ≤ f.capacity) : entry f' j = if j = k then v else entry f j := by
  have hlen : (LittleEndian.encode Daddrsz v).length = Daddrsz := LittleEndian.encode_length ..
  split
  case isTrue hjk =>
    subst hjk
    have hbytes : (List.range Daddrsz).map (fun i => f'.stored (j * Daddrsz + i)) = LittleEndian.encode Daddrsz v := by
      refine List.ext_getElem (by simp) fun i hi hi' => ?_
      have hlt : i < Daddrsz := by simpa using hi
      have hin := overwrite_of_mem (d := f.stored) (l := LittleEndian.encode Daddrsz v)
        (Nat.le_add_right (j * Daddrsz) i) (by omega)
      rw [Nat.add_sub_cancel_left, List.getElem?_eq_getElem hi'] at hin
      rw [List.getElem_map, List.getElem_range, h _ (by simp only [Daddrsz] at *; omega)]
      exact Option.some.inj hin
    rw [entry, de, hbytes]
    exact LittleEndian.decode_encode (by simpa [Daddrsz] using hv)
  case isFalse hjk =>
    refine de_congr fun i hi => ?_
    rw [h _ (by simp only [Daddrsz] at *; omega)]
    rcases Nat.lt_or_gt_of_ne hjk with hlt | hgt
    · exact overwrite_of_lt (by simp only [Daddrsz] at *; omega)
    · exact overwrite_of_le (by rw [hlen]; simp only [Daddrsz] at *; omega)

-- A slice to write, its block being allocated.
structure Slice (f f' : File) (off len : Nat) (data : Data) : Prop where
  same   : File.Same f f'
  length : f'.length = f.length
  stored : f'.stored = f.stored
  size   : len = f.room off
  data   : ∀ j < len, data j = f.stored (off + j)
  solid  : ∀ pos, f.solid pos ∨ off ≤ pos ∧ pos < off + len → f'.solid pos
  -- The next slice can be addressed as well.
  le     : off + len < f.capacity

theorem dfslicemk_eq_ok (h : dfslicemk f off = .ok (f', len, data)) (hoff : off < f.capacity) :
    Slice f f' off len data := by
  by_cases hlt : off < f.dlen
  case pos =>
    have hroom : f.room off = f.dlen - off := if_pos hlt
    rw [dfslicemk, if_pos hlt] at h
    cases h
    exact
      { same := ⟨rfl, rfl, rfl⟩
        length := rfl
        stored := rfl
        size := hroom.symm
        data := fun j hj => by rw [File.stored_add (hroom ▸ hj), if_pos hlt]
        solid := fun pos hs => hs.elim id fun hin => .inl (by omega)
        le := by
          have hcap : f.dlen < f.capacity := Nat.lt_add_of_pos_right (by decide)
          omega }
  case neg =>
    have hge := Nat.not_lt.mp hlt
    have hroom : f.room off = Dblkdatasz - (off - f.dlen) % Dblkdatasz := if_neg hlt
    rw [dfslicemk, if_neg hlt] at h
    cases hl : locate (f.bno off)
    case error =>
      rw [File.bno] at hl
      rw [hl] at h
      contradiction
    case ok l =>
      have hloc := locate_eq_ok_iff.mp hl
      have hsame : File.Same f (f.modify id l) := File.modify_same ..
      rw [File.bno] at hl
      rw [hl] at h
      cases h
      exact
        { same := hsame
          length := File.modify_length ..
          stored := by
            funext pos
            rw [File.stored, File.stored, hsame.dlen, hsame.embedattrsz, hsame.bno, File.modify_embed,
              File.block_modify_id hloc]
          size := hroom.symm
          data := fun j hj => by
            rw [File.stored_add (hroom ▸ hj), if_neg hlt, File.blk_modify_self hloc, File.block_of_located hloc]
            rfl
          solid := fun pos hs => by
            rcases hs with hs | hin
            · exact File.solid_modify hloc hs _
            · rw [File.solid, hsame.dlen, hsame.bno]
              obtain ⟨j, rfl⟩ := Nat.exists_eq_add_of_le hin.left
              have hbno := (File.bno_add (k := j) hge (by omega)).left
              refine .inr ⟨l, ?_, ?_⟩
              · rw [hbno, locate_eq_ok_iff.mpr hloc]
              · rw [File.blk_modify_self hloc]
                rfl
          le := by
            have hb := hloc.lt
            rw [File.bno_of_lt hoff] at hb
            rw [File.capacity] at hoff ⊢
            simp only [Dblkdatasz, Dblksz, Dblkhdrsz] at *
            omega }

-- The first entry for `addr` from the entry `k` on is `j`.
structure Found (f f' : File) (addr k j : Nat) : Prop where
  same   : File.Same f f'
  length : f'.length = f.length
  stored : f'.stored = f.stored
  solid  : ∀ pos, f.solid pos ∨ k * Daddrsz ≤ pos ∧ pos < (j + 1) * Daddrsz → f'.solid pos
  ge     : k ≤ j
  entry  : entry f j = addr
  first  : ∀ i, k ≤ i → i < j → Dir.entry f i ≠ addr
  le     : (j + 1) * Daddrsz ≤ f.capacity

theorem entry_congr (h : f'.stored = f.stored) : entry f' = entry f := by
  funext k
  rw [entry, entry, h]

theorem room_eq (f : File) (k : Nat) : f.room (k * Daddrsz) = f.room (k * Daddrsz) / Daddrsz * Daddrsz :=
  (Nat.div_mul_cancel <| Nat.dvd_of_mod_eq_zero <| room_mod f k).symm

theorem Slice.entry {data : Data} (h : Slice f f' (k * Daddrsz) len data) (hi : i < len / Daddrsz) :
    de data i = entry f (k + i) := by
  refine de_slice h.data ?_
  have hr := h.size ▸ room_eq f k
  rw [hr]
  exact Nat.mul_le_mul_right _ hi

theorem chloop_eq_ok (h : chloop addr fuel f (k * Daddrsz) = .ok (f', off)) (hk : k * Daddrsz < f.capacity) :
    ∃ j, off = j * Daddrsz ∧ Found f f' addr k j := by
  induction fuel generalizing f k
  case zero => contradiction
  case succ fuel ih =>
    rw [chloop] at h
    cases hsl : dfslicemk f (k * Daddrsz)
    case error => rw [hsl] at h; contradiction
    case ok sl =>
      obtain ⟨f₁, len, data⟩ := sl
      have hs := dfslicemk_eq_ok hsl hk
      obtain ⟨n, rfl⟩ : ∃ n, len = n * Daddrsz := ⟨_, hs.size ▸ room_eq f k⟩
      have hn : n * Daddrsz / Daddrsz = n := Nat.mul_div_cancel _ (by decide)
      have hnext := hs.le
      simp only [hsl, bind, Except.bind, hn] at h
      rw [← Nat.add_mul] at hnext
      split at h
      case h_1 i hi =>
        obtain ⟨rfl, rfl⟩ := Prod.mk.inj (Except.ok.inj h)
        have ⟨he, hin, hfirst⟩ := List.find?_range_eq_some.mp hi
        have hin := List.mem_range.mp hin
        refine ⟨k + i, (Nat.add_mul ..).symm, ?_⟩
        exact
          { same := hs.same
            length := hs.length
            stored := hs.stored
            solid := fun pos hp => hs.solid pos <| hp.imp id fun hp => by simp only [Daddrsz] at *; omega
            ge := Nat.le_add_right ..
            entry := (hs.entry (hn.symm ▸ hin)).symm.trans (of_decide_eq_true he)
            first := fun j hkj hji he' => by
              obtain ⟨j, rfl⟩ := Nat.exists_eq_add_of_le hkj
              have hj := hfirst j (by omega)
              rw [hs.entry (hn.symm ▸ by omega)] at hj
              simp [he'] at hj
            le := by simp only [Daddrsz] at *; omega }
      case h_2 hi =>
        have hfirst := List.find?_range_eq_none.mp hi
        rw [← Nat.add_mul] at h
        have ⟨j, hoff, hf⟩ := ih h (hs.same.capacity ▸ hnext)
        refine ⟨j, hoff, ?_⟩
        have he := entry_congr hs.stored
        exact
          { same := hs.same.trans hf.same
            length := hf.length.trans hs.length
            stored := hf.stored.trans hs.stored
            solid := fun pos hp => by
              refine hf.solid pos ?_
              by_cases hin : k * Daddrsz ≤ pos ∧ pos < (k + n) * Daddrsz
              case pos => exact .inl <| hs.solid pos <| .inr (by rwa [← Nat.add_mul])
              case neg => exact hp.imp (fun hp => hs.solid pos <| .inl hp) (by omega)
            ge := Nat.le_trans (Nat.le_add_right ..) hf.ge
            entry := (congrFun he j).symm.trans hf.entry
            first := fun i hki hij he' => by
              by_cases hin : i < k + n
              case pos =>
                obtain ⟨i, rfl⟩ := Nat.exists_eq_add_of_le hki
                have hi := hfirst i (by omega)
                rw [hs.entry (hn.symm ▸ by omega)] at hi
                simp [he'] at hi
              case neg => exact hf.first i (by omega) hij ((congrFun he i).trans he')
            le := hs.same.capacity ▸ hf.le }

end Creepy.Dir
