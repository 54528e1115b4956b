import Nix.Lib.Contents
import Nix.Lib.Machine
import Nix.Creepy.Dk

-- The data of a file: some is embedded in the block of the file, after the attributes, and the rest
-- is in blocks that the file points to. The file is melted, and nobody else has it locked.
namespace Creepy.Fblk

abbrev Ndptr      := 8
abbrev Niptr      := 4
abbrev Dminattrsz := Dblksz / 2
abbrev Dblkdatasz := Dblksz - Dblkhdrsz
-- what precedes `embed`: sizes and pointers, and the predefined attributes
abbrev Embedsz    := Dblkdatasz - (3 + Ndptr + Niptr + 8 + 1) * Daddrsz + Daddrsz
abbrev Dptrperblk := Dblkdatasz / Daddrsz

-- What `fsinit` computes, which does not count blocks in bytes when they are indirect.
def maxfsz : Nat :=
  Ndptr * Dblkdatasz + ((List.range Niptr).map fun i => Dptrperblk * Dptrperblk ^ i).sum

-- Integers of 32 and of 64 bits.
def ulong (n : Nat) : Nat := n % 2 ^ 32
def uvlong (n : Nat) : Nat := n % 2 ^ 64

abbrev Data := Nat → UInt8

-- A request fails, or the process dies: there was a call to `fatal`, a division by zero or an access
-- out of a block.
inductive Fault
  | error | fatal
  deriving DecidableEq

-- Where the pointer to a block is.
inductive Loc
  | direct (bno : Nat)
  | indirect (i : Nat) (path : List Nat)
  deriving DecidableEq

structure File where
  -- the bits DMDIR and DMAPPEND of the mode
  dir    : Bool
  append : Bool
  -- attribute size
  asize  : Nat
  length : Nat
  embed  : Data
  dptr   : Nat → Sparse Data 0
  iptr   : (i : Nat) → Sparse Data (i + 1)

-- The loop of `dfblk` that looks for an indirect pointer, of which there are `k` left.
def findptr : (k i bno nblks : Nat) → Option (Nat × Nat × Nat)
  | 0, _, _, _ => none
  | k + 1, i, bno, nblks =>
    if bno < nblks then some (i, bno, nblks)
    else findptr k (i + 1) (bno - nblks) (ulong <| nblks * Dptrperblk)

-- The indices that `dfblk` computes in its loop, from block to block.
def indices : (nindir nblks bno : Nat) → Option (List Nat)
  | 0, _, _ => some []
  | nindir + 1, nblks, bno =>
    let nblks := nblks / Dptrperblk
    if nblks = 0 then none else
    let idx := bno / nblks
    if idx ≥ Dptrperblk then none else (indices nindir nblks (bno - idx * nblks)).map (idx :: ·)

def locate (bno : Nat) : Except Fault Loc :=
  if bno < Ndptr then .ok (.direct bno) else
  match findptr Niptr 0 (bno - Ndptr) Dptrperblk with
  | none => .error .error
  | some (i, bno, nblks) =>
    match indices (i + 1) nblks bno with
    | none => .error .fatal
    | some path => .ok (.indirect i path)

-- A slice of a block, or of a hole.
structure Blksl where
  len  : Nat
  data : Option Data

namespace File

variable (f : File)

def embedattrsz : Nat :=
  if (f.asize + 7) / 8 * 8 < Dminattrsz then Dminattrsz else Embedsz

-- The size of the data that is embedded.
def dlen : Nat :=
  Embedsz - f.embedattrsz

-- The pointer of the file on the way to a block.
def ptr : Loc → Bool
  | .direct bno   => ¬(f.dptr bno).isNil
  | .indirect i _ => ¬(f.iptr i).isNil

def blk : Loc → Option Data
  | .direct bno   => (f.dptr bno).get []
  | .indirect i p => (f.iptr i).get p

-- The block is allocated if it is not there, as are those on the way to it.
def modify (g : Data → Data) : Loc → File
  | .direct bno =>
    { f with dptr := Function.update f.dptr bno ((f.dptr bno).modify 0 g 0 []) }
  | .indirect i p =>
    { f with iptr := Function.update f.iptr i ((f.iptr i).modify 0 g (i + 1) p) }

-- `dfblk` with `Dontmk`. The pointers of the file are not checked, and no block has the address 0.
def dfblk (bno : Nat) : Except Fault (Option Data) := do
  let l ← locate bno
  if f.ptr l then .ok (f.blk l) else .error .fatal

-- `dfblk` with `Mkit`, and what is done to the block.
def dfblkmk (bno : Nat) (g : Data → Data) : Except Fault File := do
  let l ← locate bno
  .ok (f.modify g l)

-- The block and the offset in it for `off`.
def dfbno (off : Nat) : Nat × Nat :=
  if off < f.dlen then (0, f.embedattrsz + off)
  else (ulong ((off - f.dlen) / Dblkdatasz), (off - f.dlen) % Dblkdatasz)

-- `dfslice` to read.
def dfslice (len off : Nat) : Except Fault Blksl := do
  if off ≥ f.length then .ok { len := 0, data := none } else
  let sl ←
    if off < f.dlen then
      Except.ok (ε := Fault)
        { len := f.dlen - off, data := some fun k => f.embed (f.embedattrsz + off + k) : Blksl }
    else do
      let boff := (off - f.dlen) % Dblkdatasz
      let b ← f.dfblk (ulong <| (off - f.dlen) / Dblkdatasz)
      .ok { len := Dblkdatasz - boff, data := b.map fun d k => d (boff + k) }
  let n := min sl.len len
  .ok { sl with len := if uvlong (off + n) > f.length then f.length - off else n }

-- `dfslice` to write, and the copy of the first of the bytes, as many as there is room for.
def store (off : Nat) (bs : List UInt8) : Except Fault (Nat × File) := do
  if off < f.dlen then
    let n := min (f.dlen - off) bs.length
    .ok (n, { f with embed := overwrite f.embed (f.embedattrsz + off) (bs.take n) })
  else
    let boff := (off - f.dlen) % Dblkdatasz
    let n := min (Dblkdatasz - boff) bs.length
    let f ← f.dfblkmk (ulong <| (off - f.dlen) / Dblkdatasz) fun d => overwrite d boff (bs.take n)
    .ok (n, f)

-- The loop of `dfpread`, that goes round `fuel` times at most.
def readloop (f : File) : (fuel count off : Nat) → Except Fault (List UInt8)
  | 0, _, _ => .ok []
  | fuel + 1, count, off => do
    if count = 0 then .ok [] else
    let sl ← f.dfslice count off
    if sl.len = 0 then .ok [] else
    let bs := (List.range sl.len).map fun k => sl.data.elim 0 (· k)
    let rest ← f.readloop fuel (count - sl.len) (uvlong <| off + sl.len)
    .ok (bs ++ rest)

def dfpread (count off : Nat) : Except Fault (List UInt8) :=
  f.readloop count count off

def grow (len : Nat) : File :=
  if len > f.length then { f with length := len } else f

-- The loop of `dfpwrite`.
def writeloop (f : File) : (fuel : Nat) → (bs : List UInt8) → (off : Nat) → Except Fault File
  | 0, _, _ => .ok f
  | fuel + 1, bs, off => do
    if bs = [] then .ok f else
    let (n, f) ← f.store off bs
    if n = 0 then .error .fatal else
    (f.grow <| uvlong (off + n)).writeloop fuel (bs.drop n) (uvlong <| off + n)

def dfpwrite (bs : List UInt8) (off : Nat) : Except Fault File :=
  f.writeloop bs.length bs (if f.append then f.length else off)

-- The data in `n` blocks is zeroed. Errors are ignored.
def dfdropblks (f : File) (bno : Nat) : (n : Nat) → Except Fault File
  | 0 => .ok f
  | n + 1 =>
    match f.dfblk bno with
    | .error .fatal | .ok none => .error .fatal
    | .error .error => f.dfdropblks (bno + 1) n
    | .ok (some _) => do (← f.dfblkmk bno fun _ => 0).dfdropblks (bno + 1) n

def resized (sz : Nat) : Except Fault File :=
  if f.dir then .error .error else
  if sz > maxfsz then .error .error else
  if sz ≥ f.length then .ok f else
  let (bno, boff) := f.dfbno sz
  let bno := if boff > 0 then bno + 1 else bno
  let (bend, boff) := f.dfbno sz
  let bend := if boff > 0 then bend + 1 else bend
  f.dfdropblks bno (bend - bno)

def wlength (sz : Nat) : Except Fault File :=
  { f with length := sz }.resized sz

end File

-- The requests that change the data or the length of a file.
inductive Act
  | dfpwrite (bs : List UInt8) (off : Nat)
  | wlength (sz : Nat)

-- Those that complete without error.
def step (f : File) : Act → Option File
  | .dfpwrite bs off => (f.dfpwrite bs off).toOption
  | .wlength sz      => (f.wlength sz).toOption

-- As `dfcreate` leaves a file.
structure Created (f : File) : Prop where
  length : f.length = 0
  embed  : ∀ k ≥ f.embedattrsz, f.embed k = 0
  dptr   : ∀ i, f.dptr i = .nil
  iptr   : ∀ i, f.iptr i = .nil

def machine : Machine File Act where
  init := Created
  step := step

variable {f f' : File} {l l' : Loc}

theorem findptr_eq (bno : Nat) :
    findptr Niptr 0 bno Dptrperblk =
      if bno < 2047 then some (0, bno, 2047)
      else if bno - 2047 < 2047 ^ 2 then some (1, bno - 2047, 2047 ^ 2)
      else if bno - 2047 - 2047 ^ 2 < 4282390527 then some (2, bno - 2047 - 2047 ^ 2, 4282390527)
      else if bno - 2047 - 2047 ^ 2 - 4282390527 < 25157633 then
        some (3, bno - 2047 - 2047 ^ 2 - 4282390527, 25157633)
      else none :=
  rfl

theorem indices_succ (n nblks bno : Nat) :
    indices (n + 1) nblks bno =
      if nblks / 2047 = 0 then none
      else if bno / (nblks / 2047) ≥ 2047 then none
      else (indices n (nblks / 2047) (bno - bno / (nblks / 2047) * (nblks / 2047))).map
        (bno / (nblks / 2047) :: ·) :=
  rfl

theorem exists_of_indices (h : indices (n + 1) nblks bno = some p) :
    nblks / 2047 ≠ 0 ∧ ∃ b q, indices n (nblks / 2047) b = some q := by
  rw [indices_succ] at h
  split at h
  case isTrue => contradiction
  case isFalse hz =>
    split at h
    case isTrue => contradiction
    case isFalse =>
      have ⟨q, hq, _⟩ := Option.map_eq_some_iff.mp h
      exact ⟨hz, _, q, hq⟩

-- There is a division by zero unless the number of blocks is as large as it has to be.
theorem indices_le (h : indices (n + 1) nblks bno = some p) : 2047 ^ (n + 1) ≤ nblks := by
  induction n generalizing nblks bno p
  case zero =>
    have ⟨hz, _⟩ := exists_of_indices h
    exact Nat.le_of_not_lt fun hlt => hz (Nat.div_eq_of_lt hlt)
  case succ n ih =>
    have ⟨_, _, _, hq⟩ := exists_of_indices h
    rw [Nat.pow_succ]
    exact Nat.mul_le_of_le_div _ _ _ (ih hq)

theorem indices_single (h : b < 2047) : indices 1 2047 b = some [b] := by
  rw [indices_succ, Nat.div_self (by decide), Nat.div_one, if_neg (by decide), if_neg (Nat.not_le.mpr h)]
  rfl

theorem indices_double (h : b < 2047 ^ 2) : indices 2 (2047 ^ 2) b = some [b / 2047, b % 2047] := by
  have hb : b / 2047 < 2047 := Nat.div_lt_of_lt_mul (by rwa [Nat.pow_two] at h)
  have hmod : b - b / 2047 * 2047 = b % 2047 := by omega
  have hnblks : 2047 ^ 2 / 2047 = 2047 := rfl
  rw [indices_succ, hnblks, if_neg (by decide), if_neg (Nat.not_le.mpr hb), hmod,
    indices_single (Nat.mod_lt _ (by decide))]
  rfl

-- The number of the block that is found at a place.
def Loc.bno : Loc → Nat
  | .direct b            => b
  | .indirect _ [b]      => 8 + b
  | .indirect _ (b :: p) => 2055 + (b * 2047 + p.headD 0)
  | .indirect _ []       => 0

-- The blocks that are reached by one pointer to data, one block of pointers, and two of them.
inductive Located (bno : Nat) : Loc → Prop
  | direct (h : bno < 8) : Located bno (.direct bno)
  | single (h : 8 ≤ bno) (h' : bno < 2055) : Located bno (.indirect 0 [bno - 8])
  | double (h : 2055 ≤ bno) (h' : bno < 4192264) :
    Located bno (.indirect 1 [(bno - 2055) / 2047, (bno - 2055) % 2047])

theorem locate_eq (bno : Nat) :
    locate bno =
      if bno < 8 then .ok (.direct bno) else
      match findptr Niptr 0 (bno - 8) Dptrperblk with
      | none => .error .error
      | some (i, bno, nblks) =>
        match indices (i + 1) nblks bno with
        | none => .error .fatal
        | some path => .ok (.indirect i path) :=
  rfl

theorem indirect_of_locate (h : locate bno = .ok l) (hb : 8 ≤ bno) :
    ∃ i b nblks p, findptr Niptr 0 (bno - 8) Dptrperblk = some (i, b, nblks) ∧
      indices (i + 1) nblks b = some p ∧ l = .indirect i p := by
  rw [locate_eq, if_neg (Nat.not_lt.mpr hb)] at h
  split at h
  case h_1 => contradiction
  case h_2 i b nblks hf =>
    split at h
    case h_1 => contradiction
    case h_2 p hp =>
      cases h
      exact ⟨i, b, nblks, p, hf, hp, rfl⟩

theorem found {i j b c m n : Nat} (h : some (i, b, m) = some (j, c, n)) : i = j ∧ b = c ∧ m = n := by
  simpa using h

theorem locate_eq_ok_iff : locate bno = .ok l ↔ Located bno l := by
  constructor
  case mp =>
    intro h
    by_cases hb : bno < 8
    case pos =>
      rw [locate_eq, if_pos hb] at h
      cases h
      exact .direct hb
    case neg =>
      have hb := Nat.not_lt.mp hb
      have ⟨i, b, nblks₀, p, hf, hp, hl⟩ := indirect_of_locate h hb
      subst hl
      have hle := indices_le hp
      have hfar : ∀ n nblks, nblks < 2047 ^ (n + 1) → nblks = nblks₀ → i = n → False := by
        intro n nblks hlt hn hi
        exact Nat.not_le.mpr hlt (hn ▸ hi ▸ hle)
      rw [findptr_eq] at hf
      split at hf
      case isTrue h0 =>
        obtain ⟨rfl, rfl, rfl⟩ := found hf
        rw [indices_single h0] at hp
        obtain rfl := Option.some.inj hp
        exact .single hb (by omega)
      case isFalse h0 =>
        split at hf
        case isTrue h1 =>
          obtain ⟨rfl, rfl, rfl⟩ := found hf
          rw [indices_double h1] at hp
          obtain rfl := Option.some.inj hp
          have hsub : bno - 8 - 2047 = bno - 2055 := by omega
          rw [hsub]
          exact .double (by omega) (by omega)
        case isFalse =>
          split at hf
          case isTrue =>
            obtain ⟨hi, -, hn⟩ := found hf
            exact (hfar 2 _ (by norm_num) hn hi.symm).elim
          case isFalse =>
            split at hf
            case isTrue =>
              obtain ⟨hi, -, hn⟩ := found hf
              exact (hfar 3 _ (by norm_num) hn hi.symm).elim
            case isFalse => exact nomatch hf
  case mpr =>
    intro h
    rw [locate_eq]
    cases h
    case direct h => exact if_pos h
    case single h h' =>
      have hb : bno - 8 < 2047 := by omega
      rw [if_neg (Nat.not_lt.mpr h), findptr_eq, if_pos hb]
      simp only [Nat.zero_add, indices_single hb]
    case double h h' =>
      have hb : bno - 8 - 2047 < 2047 ^ 2 := by omega
      have hsub : bno - 8 - 2047 = bno - 2055 := by omega
      rw [if_neg (by omega), findptr_eq, if_neg (by omega), if_pos hb]
      rw [hsub] at hb ⊢
      simp only [Nat.reduceAdd, indices_double hb]

namespace Located

theorem bno_eq (h : Located b l) : l.bno = b := by
  cases h
  case direct => rfl
  case single h h' => exact Nat.add_sub_cancel' h
  case double h h' =>
    simp only [Loc.bno, List.headD_cons]
    omega

theorem lt (h : Located b l) : b < 4192264 := by
  cases h
  all_goals omega

theorem inj (h : Located b l) (h' : Located c l) : b = c :=
  h.bno_eq.symm.trans h'.bno_eq

theorem eq (h : Located b l) (h' : Located b l') : l = l' :=
  Except.ok.inj <| (locate_eq_ok_iff.mpr h).symm.trans (locate_eq_ok_iff.mpr h')

theorem length (h : Located b (.indirect i p)) : p.length = i + 1 := by
  cases h <;> rfl

end Located

namespace File

theorem blk_modify_self (h : Located b l) (g : Data → Data) :
    (f.modify g l).blk l = some (g ((f.blk l).getD 0)) := by
  cases l
  case direct bno =>
    simp only [modify, blk, Function.update_self]
    exact Sparse.get_modify_self _ rfl
  case indirect i p =>
    simp only [modify, blk, Function.update_self]
    exact Sparse.get_modify_self _ h.length

theorem blk_modify_of_ne (h : Located b l) (h' : Located c l') (hne : b ≠ c) (g : Data → Data) :
    (f.modify g l).blk l' = f.blk l' := by
  have hl : l' ≠ l := fun he => hne (h.inj (he ▸ h'))
  cases l <;> cases l'
  case direct.direct bno bno' =>
    have hb : bno' ≠ bno := fun he => hl (he ▸ rfl)
    simp only [modify, blk, Function.update_of_ne hb]
  case direct.indirect => rfl
  case indirect.direct => rfl
  case indirect.indirect i p j q =>
    by_cases hij : j = i
    case neg => simp only [modify, blk, Function.update_of_ne hij]
    case pos =>
      subst hij
      have hpq : q ≠ p := fun he => hl (he ▸ rfl)
      simp only [modify, blk, Function.update_self]
      exact Sparse.get_modify_of_ne _ h.length h'.length hpq

-- What is in the block of a number, if anything.
def block (f : File) (bno : Nat) : Data :=
  match locate bno with
  | .ok l    => (f.blk l).getD 0
  | .error _ => 0

theorem block_of_located (h : Located b l) : f.block b = (f.blk l).getD 0 := by
  rw [block, locate_eq_ok_iff.mpr h]

theorem block_modify_self (h : Located b l) (g : Data → Data) :
    (f.modify g l).block b = g (f.block b) := by
  rw [block_of_located h, block_of_located h, blk_modify_self h]
  rfl

theorem block_modify_of_ne (h : Located b l) (hne : c ≠ b) (g : Data → Data) :
    (f.modify g l).block c = f.block c := by
  rw [block, block]
  split
  case h_1 l' hl => rw [blk_modify_of_ne h (locate_eq_ok_iff.mp hl) hne.symm]
  case h_2 => rfl

theorem block_modify_id (h : Located b l) : (f.modify id l).block = f.block := by
  funext c
  by_cases hc : c = b
  case pos => rw [hc, block_modify_self h, id]
  case neg => rw [block_modify_of_ne h hc]

theorem blk_modify_isSome (h : Located b l) (h' : Located c l') (hs : (f.blk l').isSome) (g : Data → Data) :
    ((f.modify g l).blk l').isSome := by
  by_cases hc : b = c
  case pos =>
    subst hc
    rw [h.eq h', blk_modify_self h']
    rfl
  case neg => rwa [blk_modify_of_ne h h' hc]

end File

end Creepy.Fblk
