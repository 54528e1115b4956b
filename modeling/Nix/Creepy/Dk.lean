import Mathlib.Data.UInt
import Mathlib.Tactic.NormNum

namespace Creepy

-- Disk addresses and sizes are numbers. Those with the bit `Fakeaddr` are never found on disk.
abbrev Fakeaddr  := 2 ^ 63

abbrev Dblksz    := 16 * 1024
abbrev Daddrsz   := 8
abbrev Dblkhdrsz := 8
abbrev Nblkgrpsz := (Dblksz - Dblkhdrsz) / Daddrsz
abbrev Dblk0addr := 2 * Dblksz

-- blk 0: unused
-- blk 1: super
-- even ref blk + odd ref blk + Nblkgrpsz-2 blocks
-- ...
def blkaddr (n : Nat) : Nat :=
  Dblk0addr + n * Dblksz

def IsRef (addr : Nat) : Prop :=
  ∃ g, addr = blkaddr (g * Nblkgrpsz) ∨ addr = blkaddr (g * Nblkgrpsz) + Dblksz

-- The next two blocks are the reference blocks of a new group.
def newgroup (addr : Nat) : Bool :=
  (addr - Dblk0addr) / Dblksz % Nblkgrpsz = 0

-- The reference block that has the counter for `addr`, and the index of the counter in it.
def refaddr (addr : Nat) : Nat × Nat :=
  let bno := (addr - Dblk0addr) / Dblksz
  (Dblk0addr + bno / Nblkgrpsz * Nblkgrpsz * Dblksz, bno % Nblkgrpsz)

def addrofref (refaddr : Nat) (idx : Nat) : Nat :=
  refaddr + idx * Dblksz

theorem blkaddr_injective : Function.Injective blkaddr := by
  intro n k h
  simp only [blkaddr, Dblk0addr, Dblksz] at h
  omega

theorem blkaddr_add (n k : Nat) : blkaddr n + k * Dblksz = blkaddr (n + k) := by
  simp only [blkaddr, Nat.add_mul, Nat.add_assoc]

theorem blkaddr_lt_iff : blkaddr n < blkaddr k ↔ n < k := by
  simp only [blkaddr, Dblksz]
  omega

theorem newgroup_blkaddr (n : Nat) : newgroup (blkaddr n) ↔ n % Nblkgrpsz = 0 := by
  have hbno : (blkaddr n - Dblk0addr) / Dblksz = n := by
    simp only [blkaddr, Dblksz]
    omega
  simp only [newgroup, hbno, decide_eq_true_eq]

theorem addrofref_refaddr (n : Nat) :
    addrofref (refaddr (blkaddr n)).fst (refaddr (blkaddr n)).snd = blkaddr n := by
  simp only [addrofref, refaddr, blkaddr, Dblk0addr, Nblkgrpsz, Dblkhdrsz, Daddrsz, Dblksz]
  omega

theorem refaddr_blkaddr_injective (h : refaddr (blkaddr n) = refaddr (blkaddr k)) : n = k :=
  blkaddr_injective <| by rw [← addrofref_refaddr n, h, addrofref_refaddr]

theorem refaddr_fst_le (n : Nat) : (refaddr (blkaddr n)).fst ≤ blkaddr n := by
  simp only [refaddr, blkaddr, Dblk0addr, Nblkgrpsz, Dblkhdrsz, Daddrsz, Dblksz]
  omega

theorem isRef_blkaddr_iff (n : Nat) : IsRef (blkaddr n) ↔ n % Nblkgrpsz = 0 ∨ n % Nblkgrpsz = 1 := by
  simp only [IsRef, blkaddr, Dblk0addr, Nblkgrpsz, Dblkhdrsz, Daddrsz, Dblksz]
  constructor
  · rintro ⟨g, h | h⟩ <;> omega
  · intro h
    exact ⟨n / 2047, by omega⟩

end Creepy
