import Nix.Lib.Except
import Nix.Lib.Words
import Nix.Creepy.BlkAlloc

-- The check of the disk, which puts the blocks that are in no file and not free on the list of free blocks. Nothing else
-- uses the file system meanwhile.
namespace Creepy.Fscheck

section

open BlkAlloc (Super okaddr)

-- An error was raised; the process died, or wrote outside of a table; the loop did not end.
inductive Stop
  | error
  | fatal
  | endless
deriving DecidableEq

-- The files, with the addresses in their blocks. The entries of a directory are files, or 0, or they cannot be read. What
-- is below a file that comes again is not looked at.
mutual

inductive File
  | mk (addr : Nat) (dptr iptr : List Nat) (kids : Kids)

inductive Kids
  | nil
  | file (f : File) (rest : Kids)
  | hole (rest : Kids)
  | unread (rest : Kids)

end

-- What does not change: the size of the disk, the files, the addresses in each block of some depth unless it cannot be
-- read, and which reference blocks can be read, and written to be changed.
structure Disk where
  ndblk  : Nat
  fits   : ndblk * Dblksz < Fakeaddr
  root   : File
  blk    : Nat → Nat → Option (List Nat)
  getref : Nat → Bool
  melt   : Nat → Bool

def Disk.limit (k : Disk) : Nat :=
  k.ndblk * Dblksz

structure Fs where
  super : Super
  ref   : Nat × Nat → Nat

-- The references found for each block. It is 0xFF for blocks that are free, or that are in no file by their place.
abbrev Dchk := Nat → Nat

-- An error leaves the counts.
abbrev M := ExceptT Stop (StateM Dchk)

def countref (addr : Nat) : M Nat := do
  let c ← get
  let i := addr / Dblksz
  if c i ≠ 0xFE then
    set (Function.update c i ((c i + 1) % 0x100))
  return c i

variable (k : Disk)

-- `ptrmap` with `bcountrefs`.
def ptrmap : Nat → Nat → M Unit
  | nind, addr =>
    if addr = 0 then
      pure ()
    else if okaddr k.limit addr = false then
      throw .fatal
    else
      match k.blk nind addr with
      | none     => throw .error
      | some ptr => do
        let old ← countref addr
        if old = 0 then
          match nind with
          | 0        => pure ()
          | nind + 1 => ptr.forM (ptrmap nind)

mutual

def dfcountrefs : File → M Nat
  | .mk addr dptr iptr kids => do
    if addr < Fakeaddr ∧ k.limit ≤ addr then
      return 1
    let old ← if addr < Fakeaddr then countref addr else pure 0
    if old ≠ 0 then
      return 0
    try
      dptr.forM (ptrmap k 0)
      iptr.zipIdx.forM fun (addr, i) => ptrmap k (i + 1) addr
      dfcountkids kids
    catch
      | .error => return 1
      | e      => throw e

-- A nil file is the end of the process.
def dfcountkids : Kids → M Nat
  | .nil => pure 0
  | .file f rest => do
    let nfails ← dfcountrefs f
    let more ← dfcountkids rest
    return nfails + more
  | .hole _ => throw .fatal
  | .unread _ => throw .error

end

variable (s : Fs)

-- `dbaddref` for an address that is not 0. An address below `Dblk0addr` has its reference block at a fake address.
def dbaddref (addr : Nat) (delta set : Int) : Except Stop (Nat × Fs) :=
  if addr = 0 ∨ Fakeaddr ≤ addr then
    .ok (0, s)
  else if addr < Dblk0addr ∨ k.limit ≤ (refaddr addr).fst then
    .error .fatal
  else if k.getref (refaddr addr).fst = false then
    .error .error
  else if delta ≠ 0 ∨ set ≠ 0 then
    if k.melt (refaddr addr).fst = false then
      .error .error
    else
      let ref := if set ≠ 0 then set % 2 ^ 64 else (s.ref (refaddr addr) + delta) % 2 ^ 64
      .ok (ref.toNat, { s with ref := Function.update s.ref (refaddr addr) ref.toNat })
  else
    .ok (s.ref (refaddr addr), s)

def dbgetref (addr : Nat) : Except Stop Nat :=
  (dbaddref k s addr 0 0).map Prod.fst

-- The second argument is an `int`.
def dbsetref (addr ref : Nat) : Except Stop Fs :=
  (dbaddref k s addr 0 (int32 ref)).map Prod.snd

def countfree (c : Dchk) (addr : Nat) : Except Stop Dchk :=
  let i := addr / Dblksz
  if k.ndblk ≤ i then .error .fatal
  else .ok (if c i = 0 then Function.update c i 0xFF else c)

-- The list, from some address on.
def countlist : Nat → Nat → Dchk → Except Stop Dchk
  | fuel, addr, c =>
    if addr = 0 ∨ k.limit < addr then
      .ok c
    else
      match fuel with
      | 0        => .error .endless
      | fuel + 1 => do
        let c ← countfree k c addr
        let next ← dbgetref k s addr
        countlist fuel next c

-- heading unused part, and DBref blocks
def hdrs : List Nat :=
  [0, Dblksz]

def refblks (eaddr : Nat) : List Nat :=
  (List.range ((eaddr - Dblk0addr + Dblksz * Nblkgrpsz - 1) / (Dblksz * Nblkgrpsz))).flatMap fun g =>
    [blkaddr (g * Nblkgrpsz), blkaddr (g * Nblkgrpsz) + Dblksz]

def dfcountfree (fuel : Nat) (c : Dchk) : Except Stop Dchk := do
  let c ← countlist k s fuel s.super.free c
  (hdrs ++ refblks s.super.eaddr).foldlM (countfree k) c

-- What a check has done. The code keeps no record of the blocks that it found to leak, and of those linked to others.
structure Run where
  fs     : Fs
  leaks  : List Nat
  links  : List (Nat × Nat)
  nfails : Nat

-- A block that leaks is put on the list.
def repair (r : Run) (addr : Nat) : Except Stop Run :=
  let r := { r with leaks := r.leaks ++ [addr] }
  match dbsetref k r.fs addr r.fs.super.free with
  | .ok fs         => .ok { r with fs := { fs with super.free := addr }, links := r.links ++ [(addr, r.fs.super.free)] }
  | .error .error  => .ok { r with nfails := r.nfails + 1 }
  | .error e       => .error e

def checkblk (c : Dchk) (r : Run) (i : Nat) : Except Stop Run :=
  if k.ndblk ≤ i then
    .error .fatal
  else if c i = 0 then
    repair k r (i * Dblksz)
  else if c i = 0xFF then
    .ok r
  else do
    let n ← dbgetref k r.fs (i * Dblksz)
    .ok (if c i = 0xFE ∧ n < 0xFE ∨ c i < 0xFE ∧ n ≠ c i then { r with nfails := r.nfails + 1 } else r)

def nblks (eaddr : Nat) : Nat :=
  (eaddr + Dblksz - 1) / Dblksz

-- The references in memory are checked first, to no effect but for what is reported.
def fscheck (fuel : Nat) : Except Stop Run :=
  match (dfcountrefs k k.root).run.run fun _ => 0 with
  | (.error e, _)   => .error e
  | (.ok nfails, c) => do
    let c ← dfcountfree k s fuel c
    (List.range (nblks s.super.eaddr)).foldlM (checkblk k c) { fs := s, leaks := [], links := [], nfails }

end

variable {k : Disk} {s : Fs} {c c' : Dchk} {a b e fuel i : Nat} {as l : List Nat}

-- The link of a block, if it is free.
def next (s : Fs) (a : Nat) : Nat :=
  s.ref (refaddr a)

def blkno (a : Nat) : Nat :=
  a / Dblksz

-- An address on the disk that has a counter, which can be read.
structure Place (k : Disk) (a : Nat) : Prop where
  ge   : Dblk0addr ≤ a
  lt   : a < k.limit
  read : k.getref (refaddr a).fst = true

-- The counts with the blocks marked that have none.
def marks (c : Dchk) (is : List Nat) : Dchk :=
  fun i => if c i = 0 ∧ i ∈ is then 0xFF else c i

theorem refaddr_fst_le' (h : Dblk0addr ≤ a) : (refaddr a).fst ≤ a := by
  simp only [refaddr, Dblk0addr, Nblkgrpsz, Dblkhdrsz, Daddrsz, Dblksz] at h ⊢
  omega

theorem refaddr_eq_iff (ha : Dblk0addr ≤ a) (hb : Dblk0addr ≤ b) : refaddr a = refaddr b ↔ blkno a = blkno b := by
  simp only [refaddr, blkno, Dblk0addr, Nblkgrpsz, Dblkhdrsz, Daddrsz, Dblksz, Prod.mk.injEq] at ha hb ⊢
  omega

theorem blkno_lt_iff : blkno a < k.ndblk ↔ a < k.limit :=
  Nat.div_lt_iff_lt_mul (by decide)

theorem blkno_mul (i : Nat) : blkno (i * Dblksz) = i :=
  Nat.mul_div_cancel i (by decide)

theorem limit_lt (k : Disk) : k.limit < Fakeaddr :=
  k.fits

theorem Place.pos (h : Place k a) : a ≠ 0 := by
  rintro rfl
  exact absurd h.ge (by decide)

theorem Place.fake (h : Place k a) : ¬(a = 0 ∨ Fakeaddr ≤ a) :=
  not_or.mpr ⟨h.pos, Nat.not_le.mpr (h.lt.trans (limit_lt k))⟩

theorem Place.fits (h : Place k a) : ¬(a < Dblk0addr ∨ k.limit ≤ (refaddr a).fst) :=
  not_or.mpr ⟨Nat.not_lt.mpr h.ge, Nat.not_le.mpr ((refaddr_fst_le' h.ge).trans_lt h.lt)⟩

theorem dbgetref_eq (h : Place k a) : dbgetref k s a = .ok (next s a) := by
  have hread : ¬k.getref (refaddr a).fst = false := by rw [h.read]; decide
  rw [dbgetref, dbaddref, if_neg h.fake, if_neg h.fits, if_neg hread, if_neg (by decide)]
  rfl

-- It depends on the address and the disk only whether the counter is found.
theorem place_of_dbgetref {n : Nat} (hne : a ≠ 0) (hlt : a < k.limit) (h : dbgetref k s a = .ok n) : Place k a := by
  have hfake : ¬(a = 0 ∨ Fakeaddr ≤ a) := not_or.mpr ⟨hne, Nat.not_le.mpr (hlt.trans (limit_lt k))⟩
  rw [dbgetref, dbaddref, if_neg hfake] at h
  split at h
  case isTrue => cases h
  case isFalse hfits =>
    split at h
    case isTrue => cases h
    case isFalse hread =>
      exact ⟨Nat.not_lt.mp fun hlow => hfits (.inl hlow), hlt, Bool.not_eq_false _ |>.mp hread⟩

theorem marks_marks (c : Dchk) (is js : List Nat) : marks (marks c is) js = marks c (is ++ js) := by
  funext i
  simp only [marks, List.mem_append]
  grind

theorem marks_nil (c : Dchk) : marks c [] = c := by
  funext i
  exact if_neg fun h => List.not_mem_nil h.right

theorem marks_zero_iff {is : List Nat} : marks c is i = 0 ↔ c i = 0 ∧ i ∉ is := by
  rw [marks]
  grind

theorem countfree_ok_iff : countfree k c a = .ok c' ↔ blkno a < k.ndblk ∧ c' = marks c [blkno a] := by
  have hmark : (if c (blkno a) = 0 then Function.update c (blkno a) 0xFF else c) = marks c [blkno a] := by
    funext i
    simp only [marks, List.mem_singleton]
    split
    case isTrue h =>
      by_cases hi : i = blkno a
      · subst hi
        rw [Function.update_self, if_pos ⟨h, rfl⟩]
      · rw [Function.update_of_ne hi, if_neg fun hc => hi hc.right]
    case isFalse h =>
      have hne : ¬(c i = 0 ∧ i = blkno a) := fun hc => h (hc.right ▸ hc.left)
      rw [if_neg hne]
  rw [countfree]
  change (if k.ndblk ≤ blkno a then Except.error Stop.fatal
    else .ok (if c (blkno a) = 0 then Function.update c (blkno a) 0xFF else c)) = .ok c' ↔ _
  rw [hmark]
  split
  case isTrue h => exact iff_of_false nofun fun hc => Nat.not_lt.mpr h hc.left
  case isFalse h =>
    rw [Except.ok.injEq]
    exact ⟨fun he => ⟨Nat.not_le.mp h, he.symm⟩, fun hc => hc.right.symm⟩

theorem countfree_foldlM (as : List Nat) :
    as.foldlM (countfree k) c = .ok c' ↔ (∀ a ∈ as, blkno a < k.ndblk) ∧ c' = marks c (as.map blkno) := by
  induction as generalizing c
  case nil =>
    rw [List.map_nil, marks_nil, List.foldlM_nil]
    exact ⟨fun h => ⟨nofun, (Except.ok.inj h).symm⟩, fun h => congrArg Except.ok h.right.symm⟩
  case cons a as ih =>
    rw [List.foldlM_cons, Except.bind_eq_ok_iff, List.forall_mem_cons, List.map_cons]
    constructor
    case mp =>
      rintro ⟨c₁, h, h'⟩
      obtain ⟨ha, rfl⟩ := countfree_ok_iff.mp h
      obtain ⟨has, rfl⟩ := ih.mp h'
      exact ⟨⟨ha, has⟩, marks_marks ..⟩
    case mpr =>
      rintro ⟨⟨ha, has⟩, rfl⟩
      exact ⟨_, countfree_ok_iff.mpr ⟨ha, rfl⟩, ih.mpr ⟨has, (marks_marks c [blkno a] _).symm⟩⟩

theorem countlist_chain (h : countlist k s fuel a c = .ok c') :
    ∃ l e, Chain (next s) e a l ∧ (∀ b ∈ l, Place k b) ∧ (e = 0 ∨ k.limit < e) ∧ c' = marks c (l.map blkno) := by
  induction fuel generalizing a c
  case zero =>
    rw [countlist] at h
    split at h
    case isTrue he => exact ⟨[], a, rfl, nofun, he, by rw [List.map_nil, marks_nil]; exact (Except.ok.inj h).symm⟩
    case isFalse => cases h
  case succ fuel ih =>
    rw [countlist] at h
    split at h
    case isTrue he => exact ⟨[], a, rfl, nofun, he, by rw [List.map_nil, marks_nil]; exact (Except.ok.inj h).symm⟩
    case isFalse he =>
      rw [not_or] at he
      obtain ⟨c₁, hc, h⟩ := Except.bind_eq_ok_iff.mp h
      obtain ⟨n, hn, h⟩ := Except.bind_eq_ok_iff.mp h
      obtain ⟨hblk, rfl⟩ := countfree_ok_iff.mp hc
      have hplace := place_of_dbgetref he.left (blkno_lt_iff.mp hblk) hn
      rw [dbgetref_eq hplace] at hn
      cases hn
      obtain ⟨l, e, hl, hplaces, hend, rfl⟩ := ih h
      have hne : a ≠ e := by
        rintro rfl
        exact hend.elim he.left fun hlt => he.right hlt
      exact ⟨a :: l, e, ⟨rfl, hne, hl⟩, List.forall_mem_cons.mpr ⟨hplace, hplaces⟩, hend, marks_marks ..⟩

theorem countlist_of_chain (hl : Chain (next s) 0 a l) (hplace : ∀ b ∈ l, Place k b) :
    countlist k s l.length a c = .ok (marks c (l.map blkno)) := by
  induction l generalizing a c
  case nil =>
    obtain rfl : a = 0 := hl
    rw [List.length_nil, countlist, if_pos (.inl rfl), List.map_nil, marks_nil]
  case cons b l ih =>
    obtain ⟨rfl, hne, hl⟩ := hl
    obtain ⟨hp, hplaces⟩ := List.forall_mem_cons.mp hplace
    rw [List.length_cons, countlist, if_neg (not_or.mpr ⟨hne, Nat.not_lt.mpr hp.lt.le⟩)]
    refine Except.bind_eq_ok_iff.mpr ⟨_, countfree_ok_iff.mpr ⟨blkno_lt_iff.mpr hp.lt, rfl⟩, ?_⟩
    refine Except.bind_eq_ok_iff.mpr ⟨_, dbgetref_eq hp, ?_⟩
    rw [ih hl hplaces, marks_marks]
    rfl

end Creepy.Fscheck
