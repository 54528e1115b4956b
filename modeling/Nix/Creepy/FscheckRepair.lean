import Nix.Creepy.Fscheck

namespace Creepy.Fscheck

variable {k : Disk} {s : Fs} {c : Dchk} {a b e f fuel i n : Nat} {as l is : List Nat} {r r' : Run}

-- The counts that the files leave.
def counted (k : Disk) : Except Stop Nat × Dchk :=
  (dfcountrefs k k.root).run.run fun _ => 0

def used (k : Disk) : Dchk :=
  (counted k).snd

-- The counts when the list of free blocks was `l`.
def final (k : Disk) (s : Fs) (l : List Nat) : Dchk :=
  marks (used k) (l.map blkno ++ (hdrs ++ refblks s.super.eaddr).map blkno)

-- A block that was assigned and that no file has, which is neither in the list of free blocks nor of use by its place.
structure Leaked (k : Disk) (s : Fs) (l : List Nat) (a : Nat) : Prop where
  block   : a = blkno a * Dblksz
  head    : Dblk0addr ≤ a
  below   : a < s.super.eaddr
  unused  : used k (blkno a) = 0
  notfree : blkno a ∉ l.map blkno
  notref  : ¬IsRef a

theorem lt_nblks_iff {eaddr : Nat} : i < nblks eaddr ↔ i * Dblksz < eaddr := by
  simp only [nblks, Dblksz]
  omega

theorem mem_refblks_iff {eaddr : Nat} (hi : i * Dblksz < eaddr) :
    i ∈ (refblks eaddr).map blkno ↔ Dblk0addr ≤ i * Dblksz ∧ IsRef (i * Dblksz) := by
  rw [List.mem_map, refblks]
  simp only [List.mem_flatMap, List.mem_range, List.mem_cons, List.not_mem_nil, or_false, IsRef, blkno, blkaddr,
    Dblk0addr, Nblkgrpsz, Dblkhdrsz, Daddrsz, Dblksz] at hi ⊢
  constructor
  case mp =>
    rintro ⟨a, ⟨g, hg, rfl | rfl⟩, rfl⟩
    · exact ⟨by omega, g, by omega⟩
    · exact ⟨by omega, g, by omega⟩
  case mpr =>
    rintro ⟨-, g, hg | hg⟩
    · exact ⟨_, ⟨g, by omega, .inl rfl⟩, by omega⟩
    · exact ⟨_, ⟨g, by omega, .inr rfl⟩, by omega⟩

theorem mem_hdrs_iff : i ∈ hdrs.map blkno ↔ ¬Dblk0addr ≤ i * Dblksz := by
  have hhdrs : hdrs.map blkno = [0, 1] := by decide
  rw [hhdrs]
  simp only [List.mem_cons, List.not_mem_nil, or_false, Dblk0addr, Dblksz]
  omega

theorem final_zero_iff (hi : i < nblks s.super.eaddr) : final k s l i = 0 ↔ Leaked k s l (i * Dblksz) := by
  have hlt := lt_nblks_iff.mp hi
  rw [final, marks_zero_iff, List.mem_append, List.map_append, List.mem_append, mem_hdrs_iff, mem_refblks_iff hlt]
  constructor
  case mp =>
    intro ⟨hused, hmem⟩
    simp only [not_or, not_and, not_not] at hmem
    obtain ⟨hfree, hhead, href⟩ := hmem
    exact ⟨by rw [blkno_mul], hhead, hlt, by rw [blkno_mul]; exact hused, by rw [blkno_mul]; exact hfree, href hhead⟩
  case mpr =>
    intro h
    have hused := h.unused
    have hfree := h.notfree
    rw [blkno_mul] at hused hfree
    exact ⟨hused, fun hm => hm.elim hfree fun hm => hm.elim (fun hh => hh h.head) fun hr => h.notref hr.right⟩

-- The blocks that leak, from the start of the disk on.
def leaked (k : Disk) (s : Fs) (l : List Nat) : List Nat :=
  ((List.range (nblks s.super.eaddr)).filter (final k s l · = 0)).map (· * Dblksz)

theorem mem_leaked_iff : a ∈ leaked k s l ↔ Leaked k s l a := by
  simp only [leaked, List.mem_map, List.mem_filter, List.mem_range, decide_eq_true_iff]
  constructor
  case mp =>
    rintro ⟨i, ⟨hi, hzero⟩, rfl⟩
    exact (final_zero_iff hi).mp hzero
  case mpr =>
    intro h
    have hi : blkno a < nblks s.super.eaddr := lt_nblks_iff.mpr (h.block ▸ h.below)
    exact ⟨blkno a, ⟨hi, (final_zero_iff hi).mpr (h.block ▸ h)⟩, h.block.symm⟩

theorem leaked_sorted (k : Disk) (s : Fs) (l : List Nat) : (leaked k s l).Pairwise (· < ·) := by
  refine (List.pairwise_lt_range.filter _).map _ fun i j h => ?_
  exact Nat.mul_lt_mul_of_pos_right h (by decide)

-- What a check does about a block that leaks, if it can.
def relink (k : Disk) (x : Fs × List (Nat × Nat)) (a : Nat) : Fs × List (Nat × Nat) :=
  match dbsetref k x.fst a x.fst.super.free with
  | .ok fs   => ({ fs with super.free := a }, x.snd ++ [(a, x.fst.super.free)])
  | .error _ => x

-- What is known of a run of the loop that comes to its end.
structure Checked (k : Disk) (c : Dchk) (is : List Nat) (r r' : Run) : Prop where
  table  : ∀ i ∈ is, i < k.ndblk
  read   : ∀ i ∈ is, c i ≠ 0 → c i ≠ 0xFF → i * Dblksz ≠ 0 → Place k (i * Dblksz)
  leaks  : r'.leaks = r.leaks ++ (is.filter (c · = 0)).map (· * Dblksz)
  repair : (r'.fs, r'.links) = ((is.filter (c · = 0)).map (· * Dblksz)).foldl (relink k) (r.fs, r.links)

theorem repair_ok (h : repair k r a = .ok r') :
    r'.leaks = r.leaks ++ [a] ∧ (r'.fs, r'.links) = relink k (r.fs, r.links) a := by
  rw [repair] at h
  rw [relink]
  dsimp only at h ⊢
  cases hset : dbsetref k r.fs a r.fs.super.free
  case ok fs =>
    rw [hset] at h
    cases h
    exact ⟨rfl, rfl⟩
  case error e =>
    rw [hset] at h
    cases e
    case error =>
      cases h
      exact ⟨rfl, rfl⟩
    case fatal => cases h
    case endless => cases h

theorem checkblk_ok (h : checkblk k c r i = .ok r') : Checked k c [i] r r' := by
  rw [checkblk] at h
  split at h
  case isTrue => cases h
  case isFalse htable =>
    have hlt : i < k.ndblk := Nat.not_le.mp htable
    have htab : ∀ j ∈ [i], j < k.ndblk := fun j hj => List.mem_singleton.mp hj ▸ hlt
    split at h
    case isTrue hzero =>
      have hfilter : [i].filter (c · = 0) = [i] := List.filter_singleton ▸ by simp [hzero]
      obtain ⟨hleaks, hrelink⟩ := repair_ok h
      refine ⟨htab, fun j hj hne => absurd hzero (List.mem_singleton.mp hj ▸ hne), ?_, ?_⟩
      · rw [hfilter]
        exact hleaks
      · rw [hfilter]
        exact hrelink
    case isFalse hne =>
      have hfilter : [i].filter (c · = 0) = [] := by simp [hne]
      have hsame (hr : r'.fs = r.fs ∧ r'.links = r.links ∧ r'.leaks = r.leaks)
          (hread : c i ≠ 0xFF → i * Dblksz ≠ 0 → Place k (i * Dblksz)) : Checked k c [i] r r' := by
        refine ⟨htab, fun j hj _ => List.mem_singleton.mp hj ▸ hread, ?_, ?_⟩
        · rw [hfilter, hr.right.right, List.map_nil, List.append_nil]
        · rw [hfilter, hr.left, hr.right.left]
          rfl
      split at h
      case isTrue hff =>
        cases h
        exact hsame ⟨rfl, rfl, rfl⟩ fun hn => absurd hff hn
      case isFalse =>
        obtain ⟨n, hn, h⟩ := Except.bind_eq_ok_iff.mp h
        have hplace : i * Dblksz ≠ 0 → Place k (i * Dblksz) := fun hpos =>
          place_of_dbgetref hpos (blkno_lt_iff.mp (by rw [blkno_mul]; exact hlt)) hn
        split at h
        all_goals
          cases h
          exact hsame ⟨rfl, rfl, rfl⟩ fun _ => hplace

theorem checkblk_foldlM (h : is.foldlM (checkblk k c) r = .ok r') : Checked k c is r r' := by
  induction is generalizing r
  case nil =>
    cases h
    exact ⟨nofun, nofun, (List.append_nil _).symm, rfl⟩
  case cons i is ih =>
    rw [List.foldlM_cons] at h
    obtain ⟨r₁, h₁, h₂⟩ := Except.bind_eq_ok_iff.mp h
    have hone := checkblk_ok h₁
    have hrest := ih h₂
    have hcons : (i :: is).filter (c · = 0) = [i].filter (c · = 0) ++ is.filter (c · = 0) :=
      List.filter_append [i] is
    constructor
    case table => exact List.forall_mem_cons.mpr ⟨hone.table i (List.mem_singleton_self i), hrest.table⟩
    case read => exact List.forall_mem_cons.mpr ⟨hone.read i (List.mem_singleton_self i), hrest.read⟩
    case leaks => rw [hcons, hrest.leaks, hone.leaks, List.map_append, List.append_assoc]
    case repair => rw [hcons, hrest.repair, hone.repair, List.map_append, List.foldl_append]

-- The block can have a link to `f`: that is found in an `int`, or has nothing there and is the link already.
structure Link (k : Disk) (s : Fs) (f a : Nat) : Prop where
  read : k.getref (refaddr a).fst = true
  kept : f ≠ 0 ∧ f < 2 ^ 31 ∧ k.melt (refaddr a).fst = true ∨ 2 ^ 32 ∣ f ∧ next s a = f

-- Each of the blocks can have a link to the one before, and the first one to `f`.
def Linkable (k : Disk) (s : Fs) : Nat → List Nat → Prop
  | _, []      => True
  | f, a :: as => Link k s f a ∧ Linkable k s a as

-- Where blocks of the disk that are given by their own addresses are.
structure Blocks (k : Disk) (as : List Nat) : Prop where
  ge    : ∀ a ∈ as, Dblk0addr ≤ a
  lt    : ∀ a ∈ as, a < k.limit
  nodup : (as.map blkno).Nodup

theorem Linkable.congr {s' : Fs} (h : Linkable k s f as) (hn : ∀ a ∈ as, next s a = next s' a) : Linkable k s' f as := by
  induction as generalizing f
  case nil => trivial
  case cons a as ih =>
    rw [List.forall_mem_cons] at hn
    exact ⟨⟨h.left.read, hn.left ▸ h.left.kept⟩, ih h.right hn.right⟩

theorem int32_eq_zero_iff : int32 f = 0 ↔ 2 ^ 32 ∣ f := by
  rw [int32, ← Int.dvd_iff_bmod_eq_zero]
  norm_cast

theorem int32_stored_iff (hf : f < Fakeaddr) (hne : int32 f ≠ 0) : (int32 f % 2 ^ 64).toNat = f ↔ f ≠ 0 ∧ f < 2 ^ 31 := by
  have hfake : (Fakeaddr : Nat) = 9223372036854775808 := rfl
  rw [hfake] at hf
  simp only [int32, Int.bmod_def] at hne ⊢
  split at hne <;> rename_i h <;> simp only [h, if_true, if_false] <;> omega

-- What a counter holds after a link was asked for.
def stored (s : Fs) (f a : Nat) : Nat :=
  if int32 f ≠ 0 then (int32 f % 2 ^ 64).toNat else next s a

theorem dbsetref_eq (hge : Dblk0addr ≤ a) (hlt : a < k.limit) :
    dbsetref k s a f =
      if k.getref (refaddr a).fst = false ∨ int32 f ≠ 0 ∧ k.melt (refaddr a).fst = false then .error .error
      else .ok { s with ref := Function.update s.ref (refaddr a) (stored s f a) } := by
  have hfake : ¬(a = 0 ∨ Fakeaddr ≤ a) := by
    have := limit_lt k
    have : 0 < Dblk0addr := by decide
    omega
  have hfits : ¬(a < Dblk0addr ∨ k.limit ≤ (refaddr a).fst) :=
    not_or.mpr ⟨Nat.not_lt.mpr hge, Nat.not_le.mpr ((refaddr_fst_le' hge).trans_lt hlt)⟩
  rw [dbsetref, dbaddref, if_neg hfake, if_neg hfits]
  by_cases hread : k.getref (refaddr a).fst = false
  case pos => rw [if_pos hread, if_pos (.inl hread)]; rfl
  case neg =>
    rw [if_neg hread]
    by_cases hset : int32 f ≠ 0
    case pos =>
      rw [if_pos (.inr hset)]
      by_cases hmelt : k.melt (refaddr a).fst = false
      case pos => rw [if_pos hmelt, if_pos (.inr ⟨hset, hmelt⟩)]; rfl
      case neg =>
        have hok : ¬(k.getref (refaddr a).fst = false ∨ int32 f ≠ 0 ∧ k.melt (refaddr a).fst = false) := fun h =>
          h.elim hread fun h => hmelt h.right
        rw [if_neg hmelt, if_neg hok, stored]
        simp only [if_pos hset]
        rfl
    case neg =>
      have hnone : ¬((0 : Int) ≠ 0 ∨ int32 f ≠ 0) := fun h => h.elim (fun h => h rfl) hset
      have hok : ¬(k.getref (refaddr a).fst = false ∨ int32 f ≠ 0 ∧ k.melt (refaddr a).fst = false) := fun h =>
        h.elim hread fun h => hset h.left
      rw [if_neg hnone, if_neg hok, stored, if_neg hset, next, Function.update_eq_self]
      rfl

def linked (x : Fs × List (Nat × Nat)) (a : Nat) : Fs × List (Nat × Nat) :=
  let ref := Function.update x.fst.ref (refaddr a) (stored x.fst x.fst.super.free a)
  ({ super := { x.fst.super with free := a }, ref }, x.snd ++ [(a, x.fst.super.free)])

theorem relink_eq {x : Fs × List (Nat × Nat)} (hge : Dblk0addr ≤ a) (hlt : a < k.limit) :
    relink k x a =
      if k.getref (refaddr a).fst = false ∨ int32 x.fst.super.free ≠ 0 ∧ k.melt (refaddr a).fst = false then x
      else linked x a := by
  rw [relink, dbsetref_eq hge hlt]
  by_cases h : k.getref (refaddr a).fst = false ∨ int32 x.fst.super.free ≠ 0 ∧ k.melt (refaddr a).fst = false
  case pos => rw [if_pos h, if_pos h]
  case neg =>
    rw [if_neg h, if_neg h]
    rfl

end Creepy.Fscheck
