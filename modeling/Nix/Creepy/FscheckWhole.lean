import Nix.Creepy.FscheckRepair

namespace Creepy.Fscheck

open BlkAlloc (Super)

variable {k : Disk} {s : Fs} {a b f fuel i : Nat} {as l : List Nat} {r : Run} {x : Fs × List (Nat × Nat)}

-- The list of free blocks ends, and its blocks are on the disk.
structure FreeList (k : Disk) (s : Fs) (l : List Nat) : Prop where
  chain : Chain (next s) 0 s.super.free l
  place : ∀ a ∈ l, Place k a

-- What is found on the list, also if that is not a block of the disk.
inductive Listed (k : Disk) (s : Fs) : Nat → Prop
  | first : s.super.free ≠ 0 → Listed k s s.super.free
  | link {c : Nat} : Listed k s c → Place k c → next s c ≠ 0 → Listed k s (next s c)

-- What a check is to have done. The list of free blocks is one and has those that were reported, those that it had
-- before, and the number of blocks that is kept. Each link is what was asked for. Another check finds no leak.
structure Repaired (k : Disk) (s : Fs) (r : Run) : Prop where
  list  : ∃ l, FreeList k r.fs l ∧ (∀ a ∈ r.leaks, a ∈ l) ∧ (∀ a, Listed k s a → a ∈ l) ∧ r.fs.super.ndfree = l.length
  links : ∀ p ∈ r.links, next r.fs p.fst = p.snd
  again : ∃ fuel r', fscheck k r.fs fuel = .ok r' ∧ r'.leaks = []

-- The list is one before, the number of free blocks counts those that leak, and these can be linked in their order.
def Repairable (k : Disk) (s : Fs) : Prop :=
  ∃ l as, FreeList k s l ∧ as.Pairwise (· < ·) ∧ (∀ a, a ∈ as ↔ Leaked k s l a) ∧
    s.super.ndfree = l.length + as.length ∧ Linkable k s s.super.free as

theorem next_update {sup : Super} {v : Nat} (ha : Dblk0addr ≤ a) (hb : Dblk0addr ≤ b) :
    next { super := sup, ref := Function.update s.ref (refaddr a) v } b = if blkno b = blkno a then v else next s b := by
  have hiff := refaddr_eq_iff hb ha
  simp only [next, Function.update_apply, hiff]

theorem next_linked (ha : Dblk0addr ≤ a) (hb : Dblk0addr ≤ b) :
    next (linked x a).fst b = if blkno b = blkno a then stored x.fst x.fst.super.free a else next x.fst b :=
  next_update ha hb

theorem Blocks.tail (h : Blocks k (a :: as)) : Blocks k as where
  ge b hb    := h.ge b (List.mem_cons_of_mem a hb)
  lt b hb    := h.lt b (List.mem_cons_of_mem a hb)
  nodup      := (List.nodup_cons.mp h.nodup).right

theorem Blocks.head_notin (h : Blocks k (a :: as)) : blkno a ∉ as.map blkno :=
  (List.nodup_cons.mp h.nodup).left

theorem Blocks.ge_head (h : Blocks k (a :: as)) : Dblk0addr ≤ a :=
  h.ge a List.mem_cons_self

theorem Blocks.lt_head (h : Blocks k (a :: as)) : a < k.limit :=
  h.lt a List.mem_cons_self

theorem relink_frame (hge : Dblk0addr ≤ a) (hlt : a < k.limit) :
    (relink k x a).fst.super = { x.fst.super with free := (relink k x a).fst.super.free } ∧
      (∀ b, Dblk0addr ≤ b → blkno b ≠ blkno a → next (relink k x a).fst b = next x.fst b) ∧
      ∀ p ∈ x.snd, p ∈ (relink k x a).snd := by
  rw [relink_eq hge hlt]
  split
  case isTrue => exact ⟨rfl, fun _ _ _ => rfl, fun _ hp => hp⟩
  case isFalse =>
    refine ⟨rfl, fun b hb hne => ?_, fun p hp => List.mem_append_left _ hp⟩
    rw [next_linked hge hb, if_neg hne]

theorem relinks_frame (has : Blocks k as) :
    (as.foldl (relink k) x).fst.super = { x.fst.super with free := (as.foldl (relink k) x).fst.super.free } ∧
      (∀ b, Dblk0addr ≤ b → blkno b ∉ as.map blkno → next (as.foldl (relink k) x).fst b = next x.fst b) ∧
      ∀ p ∈ x.snd, p ∈ (as.foldl (relink k) x).snd := by
  induction as generalizing x
  case nil => exact ⟨rfl, fun _ _ _ => rfl, fun _ hp => hp⟩
  case cons a as ih =>
    obtain ⟨hsuper, hnext, hlinks⟩ := relink_frame (x := x) has.ge_head has.lt_head
    obtain ⟨hsuper', hnext', hlinks'⟩ := ih (x := relink k x a) has.tail
    rw [List.foldl_cons]
    refine ⟨?_, fun b hb hne => ?_, fun p hp => hlinks' p (hlinks p hp)⟩
    · rw [hsuper', hsuper]
    · rw [List.map_cons, List.mem_cons, not_or] at hne
      exact (hnext' b hb hne.right).trans (hnext b hb hne.left)

theorem relink_link (hge : Dblk0addr ≤ a) (hlt : a < k.limit) (hf : x.fst.super.free < Fakeaddr)
    (h : Link k x.fst x.fst.super.free a) :
    relink k x a = ((relink k x a).fst, x.snd ++ [(a, x.fst.super.free)]) ∧ (relink k x a).fst.super.free = a ∧
      next (relink k x a).fst a = x.fst.super.free := by
  have hstored : stored x.fst x.fst.super.free a = x.fst.super.free := by
    rw [stored]
    split
    case isTrue hset =>
      rcases h.kept with hkept | hkept
      · exact (int32_stored_iff hf hset).mpr ⟨hkept.left, hkept.right.left⟩
      · exact absurd (int32_eq_zero_iff.mpr hkept.left) hset
    case isFalse hset =>
      rcases h.kept with hkept | hkept
      · have hzero := int32_eq_zero_iff.mp (not_not.mp hset)
        have := Nat.le_of_dvd (Nat.pos_of_ne_zero hkept.left) hzero
        omega
      · exact hkept.right
  have hok : ¬(k.getref (refaddr a).fst = false ∨
      int32 x.fst.super.free ≠ 0 ∧ k.melt (refaddr a).fst = false) := by
    rw [h.read]
    rintro (he | ⟨hset, hm⟩)
    · cases he
    · rcases h.kept with hkept | hkept
      · rw [hkept.right.right] at hm
        cases hm
      · exact hset (int32_eq_zero_iff.mpr hkept.left)
  rw [relink_eq hge hlt, if_neg hok]
  exact ⟨rfl, rfl, by rw [next_linked hge hge, if_pos rfl, hstored]⟩

theorem relinks_chain (has : Blocks k as) (hf : x.fst.super.free < Fakeaddr) (h : Linkable k x.fst x.fst.super.free as)
    (hex : ∀ p ∈ x.snd, next x.fst p.fst = p.snd ∧ Dblk0addr ≤ p.fst ∧ blkno p.fst ∉ as.map blkno)
    (hl : Chain (next x.fst) 0 x.fst.super.free l) (hout : ∀ b ∈ l, Dblk0addr ≤ b ∧ blkno b ∉ as.map blkno) :
    Chain (next (as.foldl (relink k) x).fst) 0 (as.foldl (relink k) x).fst.super.free (as.reverse ++ l) ∧
      ∀ p ∈ (as.foldl (relink k) x).snd, next (as.foldl (relink k) x).fst p.fst = p.snd := by
  induction as generalizing x l
  case nil => exact ⟨hl, fun p hp => (hex p hp).left⟩
  case cons a as ih =>
    obtain ⟨hone, hfree, hnext⟩ := relink_link has.ge_head has.lt_head hf h.left
    obtain ⟨-, hsame, -⟩ := relink_frame (x := x) has.ge_head has.lt_head
    have hpos : a ≠ 0 := by
      rintro rfl
      exact absurd has.ge_head (by decide)
    have hlinkable : Linkable k (relink k x a).fst a as := by
      refine h.right.congr fun b hb => (hsame b (has.tail.ge b hb) ?_).symm
      exact fun he => has.head_notin (he ▸ List.mem_map_of_mem hb)
    have hlist : Chain (next (relink k x a).fst) 0 (relink k x a).fst.super.free (a :: l) := by
      rw [hfree]
      refine ⟨rfl, hpos, ?_⟩
      rw [hnext]
      refine hl.congr fun b hb => (hsame b (hout b hb).left fun he => (hout b hb).right ?_).symm
      rw [he]
      exact List.mem_cons_self
    have hlimit := limit_lt k
    have := has.lt_head
    have hres := ih has.tail (by rw [hfree]; omega) (hfree.symm ▸ hlinkable) (fun p hp => ?_) hlist (fun b hb => ?_)
    · rw [List.foldl_cons, List.reverse_cons, List.append_assoc]
      exact hres
    · rw [hone] at hp
      rcases List.mem_append.mp hp with hp | hp
      · obtain ⟨hpn, hpge, hpout⟩ := hex p hp
        rw [List.map_cons, List.mem_cons, not_or] at hpout
        exact ⟨(hsame p.fst hpge hpout.left).trans hpn, hpge, hpout.right⟩
      · rw [List.mem_singleton.mp hp]
        exact ⟨hnext, has.ge_head, has.head_notin⟩
    · rcases List.mem_cons.mp hb with rfl | hb
      · exact ⟨has.ge_head, has.head_notin⟩
      · have hout' := hout b hb
        rw [List.map_cons, List.mem_cons, not_or] at hout'
        exact ⟨hout'.left, hout'.right.right⟩

-- If each link is what was asked for, those that were put on the list are found there, and if these are all of them they
-- could be linked.
theorem relinks_links (has : Blocks k as) (hf : x.fst.super.free < Fakeaddr)
    (hex : ∀ p ∈ (as.foldl (relink k) x).snd, next (as.foldl (relink k) x).fst p.fst = p.snd) :
    ∃ bs, bs.Sublist as ∧
      (∀ l, Chain (next (as.foldl (relink k) x).fst) 0 (as.foldl (relink k) x).fst.super.free l →
        ∃ l', l = bs.reverse ++ l' ∧ Chain (next (as.foldl (relink k) x).fst) 0 x.fst.super.free l') ∧
      (bs = as → Linkable k x.fst x.fst.super.free as) := by
  induction as generalizing x
  case nil => exact ⟨[], .slnil, fun l hl => ⟨l, rfl, hl⟩, fun _ => trivial⟩
  case cons a as ih =>
    have hge := has.ge_head
    have hlt := has.lt_head
    have hlimit := limit_lt k
    rw [List.foldl_cons] at hex ⊢
    obtain ⟨-, hsame, -⟩ := relink_frame (x := x) hge hlt
    obtain ⟨-, hrest, hkeep⟩ := relinks_frame (x := relink k x a) has.tail
    by_cases hfail : k.getref (refaddr a).fst = false ∨ int32 x.fst.super.free ≠ 0 ∧ k.melt (refaddr a).fst = false
    case pos =>
      have h : relink k x a = x := (relink_eq hge hlt).trans (if_pos hfail)
      rw [h] at hex ⊢
      obtain ⟨bs, hsub, hchain, -⟩ := ih has.tail hf hex
      refine ⟨bs, hsub.cons a, hchain, fun he => ?_⟩
      have := hsub.length_le
      rw [he, List.length_cons] at this
      omega
    case neg =>
      have h : relink k x a = linked x a := (relink_eq hge hlt).trans (if_neg hfail)
      simp only [not_or, not_and, Bool.not_eq_false] at hfail
      have hfree : (relink k x a).fst.super.free = a := by rw [h]; rfl
      have hin : (a, x.fst.super.free) ∈ (relink k x a).snd := by
        rw [h]
        exact List.mem_append_right _ (List.mem_singleton_self _)
      have hstored : next (relink k x a).fst a = stored x.fst x.fst.super.free a := by
        rw [h, next_linked hge hge, if_pos rfl]
      have hnext : next (as.foldl (relink k) (relink k x a)).fst a = x.fst.super.free :=
        hex (a, x.fst.super.free) (hkeep (a, x.fst.super.free) hin)
      have hlink : stored x.fst x.fst.super.free a = x.fst.super.free := by
        rw [← hstored, ← hrest a hge has.head_notin, hnext]
      obtain ⟨bs, hsub, hchain, hlinkable⟩ := ih has.tail (by rw [hfree]; omega) hex
      refine ⟨a :: bs, hsub.cons_cons a, fun l hl => ?_, fun he => ⟨⟨hfail.left, ?_⟩, ?_⟩⟩
      · obtain ⟨l', rfl, hl'⟩ := hchain l hl
        have hpos : (relink k x a).fst.super.free ≠ 0 := by
          rw [hfree]
          rintro rfl
          exact absurd hge (by decide)
        obtain ⟨t, rfl, ht⟩ := hl'.pop hpos
        rw [hfree, hnext] at ht
        exact ⟨t, by rw [hfree, List.reverse_cons, List.append_assoc, List.singleton_append], ht⟩
      · rw [stored] at hlink
        split at hlink
        case isTrue hset =>
          obtain ⟨hne, hsmall⟩ := (int32_stored_iff hf hset).mp hlink
          exact .inl ⟨hne, hsmall, hfail.right hset⟩
        case isFalse hset => exact .inr ⟨int32_eq_zero_iff.mp (not_not.mp hset), hlink⟩
      · have := hlinkable (List.cons.inj he).right
        rw [hfree] at this
        refine this.congr fun b hb => hsame b (has.tail.ge b hb) ?_
        exact fun he => has.head_notin (he ▸ List.mem_map_of_mem hb)

theorem FreeList.mem (h : FreeList k s l) (ha : Listed k s a) : a ∈ l := by
  induction ha
  case first hne =>
    obtain ⟨t, rfl, -⟩ := h.chain.pop hne
    exact List.mem_cons_self
  case link c _ _ hne hc =>
    obtain ⟨pre, post, rfl⟩ := List.append_of_mem hc
    obtain ⟨t, rfl, -⟩ := h.chain.suffix.right.right.pop hne
    simp

theorem FreeList.free_lt (h : FreeList k s l) : s.super.free < Fakeaddr := by
  have hlimit := limit_lt k
  cases l
  case nil =>
    have hzero : s.super.free = 0 := h.chain
    rw [hzero]
    decide
  case cons a t =>
    have := (h.place a List.mem_cons_self).lt
    rw [h.chain.left]
    omega

theorem listed_end {e : Nat} (hfirst : f ≠ 0 → Listed k s f) (hl : Chain (next s) e f l) (hplace : ∀ b ∈ l, Place k b)
    (he : e ≠ 0) : Listed k s e := by
  induction l generalizing f
  case nil =>
    obtain rfl : f = e := hl
    exact hfirst he
  case cons b l ih =>
    obtain ⟨rfl, -, hl⟩ := hl
    obtain ⟨hb, hrest⟩ := List.forall_mem_cons.mp hplace
    exact ih (fun hne => .link (hfirst hb.pos) hb hne) hl hrest

theorem fscheck_ok (h : fscheck k s fuel = .ok r) :
    ∃ nfails l e, (counted k).fst = .ok nfails ∧ Chain (next s) e s.super.free l ∧ (∀ b ∈ l, Place k b) ∧
      (e = 0 ∨ k.limit < e) ∧ (∀ a ∈ hdrs ++ refblks s.super.eaddr, blkno a < k.ndblk) ∧
      Checked k (final k s l) (List.range (nblks s.super.eaddr)) ⟨s, [], [], nfails⟩ r := by
  rw [fscheck] at h
  change (match counted k with
    | (.error e, _)   => Except.error e
    | (.ok nfails, c) => do
      let c ← dfcountfree k s fuel c
      (List.range (nblks s.super.eaddr)).foldlM (checkblk k c) ⟨s, [], [], nfails⟩) = .ok r at h
  obtain ⟨res, c₀, hcounted⟩ : ∃ res c₀, counted k = (res, c₀) := ⟨_, _, rfl⟩
  obtain rfl : used k = c₀ := congrArg Prod.snd hcounted
  rw [hcounted] at h ⊢
  cases res
  case error => cases h
  case ok nfails =>
    obtain ⟨c, hc, h⟩ := Except.bind_eq_ok_iff.mp h
    obtain ⟨c₁, hlist, hmarks⟩ := Except.bind_eq_ok_iff.mp hc
    obtain ⟨l, e, hl, hplace, hend, rfl⟩ := countlist_chain hlist
    obtain ⟨htable, rfl⟩ := (countfree_foldlM _).mp hmarks
    rw [marks_marks] at h
    exact ⟨nfails, l, e, rfl, hl, hplace, hend, htable, checkblk_foldlM h⟩

theorem checkblk_foldlM_ok {c : Dchk} {is : List Nat} (htable : ∀ i ∈ is, i < k.ndblk) (hne : ∀ i ∈ is, c i ≠ 0)
    (hread : ∀ i ∈ is, c i ≠ 0xFF → i * Dblksz ≠ 0 → Place k (i * Dblksz)) :
    ∃ r', is.foldlM (checkblk k c) r = .ok r' ∧ r'.leaks = r.leaks := by
  induction is generalizing r
  case nil => exact ⟨r, rfl, rfl⟩
  case cons i is ih =>
    rw [List.forall_mem_cons] at htable hne hread
    have hone : ∃ r₁, checkblk k c r i = .ok r₁ ∧ r₁.leaks = r.leaks := by
      rw [checkblk, if_neg (Nat.not_le.mpr htable.left), if_neg hne.left]
      split
      case isTrue => exact ⟨r, rfl, rfl⟩
      case isFalse hff =>
        obtain ⟨n, hn⟩ : ∃ n, dbgetref k r.fs (i * Dblksz) = .ok n := by
          by_cases hzero : i * Dblksz = 0
          case pos =>
            rw [hzero]
            exact ⟨0, rfl⟩
          case neg => exact ⟨_, dbgetref_eq (hread.left hff hzero)⟩
        rw [hn, Except.ok_bind]
        split
        · exact ⟨_, rfl, rfl⟩
        · exact ⟨_, rfl, rfl⟩
    obtain ⟨r₁, h₁, hleaks⟩ := hone
    obtain ⟨r', h', hleaks'⟩ := ih (r := r₁) htable.right hne.right hread.right
    exact ⟨r', by rw [List.foldlM_cons, h₁, Except.ok_bind, h'], hleaks'.trans hleaks⟩

theorem fscheck_none {nfails : Nat} (hcounted : (counted k).fst = .ok nfails) (hl : FreeList k s l)
    (hmarks : ∀ a ∈ hdrs ++ refblks s.super.eaddr, blkno a < k.ndblk)
    (htable : ∀ i < nblks s.super.eaddr, i < k.ndblk) (hnone : ∀ a, ¬Leaked k s l a)
    (hread : ∀ i < nblks s.super.eaddr, used k i ≠ 0 → used k i ≠ 0xFF → i * Dblksz ≠ 0 → Place k (i * Dblksz)) :
    ∃ r', fscheck k s l.length = .ok r' ∧ r'.leaks = [] := by
  have hne : ∀ i ∈ List.range (nblks s.super.eaddr), final k s l i ≠ 0 := fun i hi hzero =>
    hnone _ ((final_zero_iff (List.mem_range.mp hi)).mp hzero)
  have hreads : ∀ i ∈ List.range (nblks s.super.eaddr), final k s l i ≠ 0xFF → i * Dblksz ≠ 0 → Place k (i * Dblksz) := by
    intro i hi hff
    have hused : used k i ≠ 0 := fun hzero => by
      have := hne i hi
      rw [final, marks] at hff this
      split at hff
      · exact hff rfl
      · rename_i hmark
        rw [if_neg hmark] at this
        exact this hzero
    have hsame : final k s l i = used k i := if_neg fun h => hused h.left
    exact hread i (List.mem_range.mp hi) hused (hsame ▸ hff)
  obtain ⟨r', hr', hleaks⟩ := checkblk_foldlM_ok (r := ⟨s, [], [], nfails⟩)
    (fun i hi => htable i (List.mem_range.mp hi)) hne hreads
  refine ⟨r', ?_, hleaks⟩
  have hcount : (dfcountrefs k k.root).run.run (fun _ => 0) = (.ok nfails, used k) := Prod.ext hcounted rfl
  have hfree : dfcountfree k s l.length (used k) = .ok (final k s l) := by
    rw [dfcountfree, countlist_of_chain hl.chain hl.place, Except.ok_bind]
    exact (countfree_foldlM _).mpr ⟨hmarks, (marks_marks ..).symm⟩
  rw [fscheck, hcount]
  change (dfcountfree k s l.length (used k) >>= fun c =>
    (List.range (nblks s.super.eaddr)).foldlM (checkblk k c) ⟨s, [], [], nfails⟩) = .ok r'
  rw [hfree, Except.ok_bind, hr']

theorem leaked_blocks (h : ∀ i ∈ List.range (nblks s.super.eaddr), i < k.ndblk) : Blocks k (leaked k s l) where
  ge a ha := (mem_leaked_iff.mp ha).head
  lt a ha := by
    have hleak := mem_leaked_iff.mp ha
    have hi : blkno a < nblks s.super.eaddr := lt_nblks_iff.mpr (hleak.block ▸ hleak.below)
    exact blkno_lt_iff.mp (h _ (List.mem_range.mpr hi))
  nodup := by
    have hid : (leaked k s l).map blkno = (List.range (nblks s.super.eaddr)).filter (final k s l · = 0) := by
      rw [leaked, List.map_map]
      have hmul : blkno ∘ (· * Dblksz) = id := funext blkno_mul
      rw [hmul, List.map_id]
    rw [hid]
    exact List.nodup_range.filter _

theorem Linkable.read (h : Linkable k s f as) : ∀ a ∈ as, k.getref (refaddr a).fst = true := by
  induction as generalizing f
  case nil => exact nofun
  case cons a as ih => exact List.forall_mem_cons.mpr ⟨h.left.read, ih h.right⟩

-- The blocks that leak are those, and no other list has them in their order.
theorem eq_leaked (hsorted : as.Pairwise (· < ·)) (hmem : ∀ a, a ∈ as ↔ Leaked k s l a) : as = leaked k s l := by
  have hperm : as.Perm (leaked k s l) := by
    refine (List.perm_ext_iff_of_nodup (hsorted.imp Nat.ne_of_lt) ((leaked_sorted k s l).imp Nat.ne_of_lt)).mpr ?_
    exact fun a => (hmem a).trans mem_leaked_iff.symm
  exact hperm.eq_of_pairwise (fun a b _ _ hab hba => absurd hab (Nat.lt_asymm hba)) hsorted (leaked_sorted k s l)

-- A block that leaks stays where it is when others are linked, and the list is not touched.
theorem leaked_out (hl : ∀ b ∈ l, Place k b) : ∀ b ∈ l, Dblk0addr ≤ b ∧ blkno b ∉ (leaked k s l).map blkno := by
  intro b hb
  refine ⟨(hl b hb).ge, fun hm => ?_⟩
  obtain ⟨a, ha, he⟩ := List.mem_map.mp hm
  exact (mem_leaked_iff.mp ha).notfree (he ▸ List.mem_map_of_mem hb)

theorem repairable_of_repaired (h : fscheck k s fuel = .ok r) (hr : Repaired k s r) : Repairable k s := by
  obtain ⟨nfails, l, e, -, hl, hplace, hend, -, hchecked⟩ := fscheck_ok h
  obtain ⟨l', hlist', hleaks, hlisted, hcount⟩ := hr.list
  have hblocks : Blocks k (leaked k s l) := leaked_blocks hchecked.table
  obtain ⟨hsuper, hnext, -⟩ := relinks_frame (x := (s, [])) hblocks
  have hrepair : (r.fs, r.links) = (leaked k s l).foldl (relink k) (s, []) := hchecked.repair
  have hfs : r.fs = ((leaked k s l).foldl (relink k) (s, [])).fst := congrArg Prod.fst hrepair
  have hlinks : r.links = ((leaked k s l).foldl (relink k) (s, [])).snd := congrArg Prod.snd hrepair
  -- the list did not run off the disk, or its end would be on the list now
  have hzero : e = 0 := by
    refine hend.resolve_right fun hoff => ?_
    have hne : e ≠ 0 := Nat.ne_of_gt (Nat.lt_of_le_of_lt (Nat.zero_le _) hoff)
    have hmem := hlisted e (listed_end .first hl hplace hne)
    exact Nat.lt_asymm hoff (hlist'.place e hmem).lt
  subst hzero
  have hlist : FreeList k s l := ⟨hl, hplace⟩
  obtain ⟨bs, hsub, hchain, hlinkable⟩ := relinks_links (x := (s, [])) hblocks hlist.free_lt (hfs ▸ hlinks ▸ hr.links)
  obtain ⟨t, rfl, ht⟩ := hchain l' (hfs ▸ hlist'.chain)
  have hout := leaked_out (s := s) hplace
  have hold : Chain (next ((leaked k s l).foldl (relink k) (s, [])).fst) 0 s.super.free l :=
    hl.congr fun b hb => (hnext b (hout b hb).left (hout b hb).right).symm
  obtain rfl : l = t := hold.eq_of_chain ht
  have hnodup : (leaked k s l).Nodup := (leaked_sorted k s l).imp Nat.ne_of_lt
  have hall : leaked k s l ⊆ bs := by
    intro a ha
    have hra : a ∈ r.leaks := by
      rw [hchecked.leaks]
      exact ha
    rcases List.mem_append.mp (hleaks a hra) with hm | hm
    · exact List.mem_reverse.mp hm
    · exact absurd (List.mem_map_of_mem hm) (mem_leaked_iff.mp ha).notfree
  obtain rfl : bs = leaked k s l := hsub.eq_of_length_le (List.Nodup.length_le_of_subset hnodup hall)
  refine ⟨l, _, hlist, leaked_sorted k s l, fun a => mem_leaked_iff, ?_, hlinkable rfl⟩
  rw [hfs, hsuper, List.length_append, List.length_reverse] at hcount
  rw [Nat.add_comm]
  exact hcount

theorem repaired_of_repairable (h : fscheck k s fuel = .ok r) (hr : Repairable k s) : Repaired k s r := by
  obtain ⟨nfails, l, e, hcounted, hl, hplace, hend, hmarks, hchecked⟩ := fscheck_ok h
  obtain ⟨l', as, hlist, hsorted, hmem, hcount, hlinkable⟩ := hr
  have hblocks : Blocks k (leaked k s l) := leaked_blocks hchecked.table
  obtain ⟨hsuper, hnext, -⟩ := relinks_frame (x := (s, [])) hblocks
  have hrepair : (r.fs, r.links) = (leaked k s l).foldl (relink k) (s, []) := hchecked.repair
  have hfs : r.fs = ((leaked k s l).foldl (relink k) (s, [])).fst := congrArg Prod.fst hrepair
  have hlinks : r.links = ((leaked k s l).foldl (relink k) (s, [])).snd := congrArg Prod.snd hrepair
  have hzero : e = 0 := by
    refine hend.resolve_right fun hoff => ?_
    have hne : e ≠ 0 := Nat.ne_of_gt (Nat.lt_of_le_of_lt (Nat.zero_le _) hoff)
    have hin := hlist.mem (listed_end .first hl hplace hne)
    exact Nat.lt_asymm hoff (hlist.place e hin).lt
  subst hzero
  obtain rfl : l = l' := hl.eq_of_chain hlist.chain
  obtain rfl : as = leaked k s l := eq_leaked hsorted hmem
  obtain ⟨hchain, hexact⟩ := relinks_chain (x := (s, [])) hblocks hlist.free_lt hlinkable nofun hl (leaked_out hplace)
  have hlist' : FreeList k r.fs ((leaked k s l).reverse ++ l) := by
    refine ⟨hfs ▸ hchain, fun a ha => ?_⟩
    rcases List.mem_append.mp ha with ha | ha
    · have ha := List.mem_reverse.mp ha
      exact ⟨hblocks.ge a ha, hblocks.lt a ha, hlinkable.read a ha⟩
    · exact hplace a ha
  have headdr : r.fs.super.eaddr = s.super.eaddr := by rw [hfs, hsuper]
  constructor
  case list =>
    refine ⟨_, hlist', fun a ha => ?_, fun a ha => List.mem_append_right _ (hlist.mem ha), ?_⟩
    · rw [hchecked.leaks] at ha
      exact List.mem_append_left _ (List.mem_reverse.mpr ha)
    · rw [hfs, hsuper, List.length_append, List.length_reverse, Nat.add_comm]
      exact hcount
  case links => exact hfs ▸ hlinks ▸ hexact
  case again =>
    have hnone : ∀ a, ¬Leaked k r.fs ((leaked k s l).reverse ++ l) a := by
      intro a ha
      have hfree := ha.notfree
      rw [List.map_append, List.mem_append, not_or] at hfree
      have hold : Leaked k s l a := ⟨ha.block, ha.head, headdr ▸ ha.below, ha.unused, hfree.right, ha.notref⟩
      exact hfree.left (List.mem_map_of_mem (List.mem_reverse.mpr (mem_leaked_iff.mpr hold)))
    have hread : ∀ i < nblks r.fs.super.eaddr, used k i ≠ 0 → used k i ≠ 0xFF → i * Dblksz ≠ 0 →
        Place k (i * Dblksz) := by
      intro i hi hused hff hpos
      have hsame : final k s l i = used k i := if_neg fun hz => hused hz.left
      exact hchecked.read i (List.mem_range.mpr (headdr ▸ hi)) (hsame ▸ hused) (hsame ▸ hff) hpos
    have htable : ∀ i < nblks r.fs.super.eaddr, i < k.ndblk := fun i hi =>
      hchecked.table i (List.mem_range.mpr (headdr ▸ hi))
    obtain ⟨r', hr', hleaks⟩ := fscheck_none hcounted hlist' (headdr ▸ hmarks) htable hnone hread
    exact ⟨_, r', hr', hleaks⟩

-- A small disk on which no file has a block.
def disk : Disk where
  ndblk := 10
  fits  := by decide
  root  := .mk (Fakeaddr + Dblksz) [] [] .nil
  blk   := fun _ _ => none
  getref := fun _ => true
  melt   := fun _ => true

-- Two blocks are assigned, the second one is free, and the first one has the counter `ref`.
def spare (ndfree : Nat) : Fs where
  super := { free := 5 * Dblksz, eaddr := 6 * Dblksz, ndfree }
  ref   := fun x => if x = refaddr (5 * Dblksz) then 0 else 1

-- One block is assigned, and none is free.
def bare : Fs where
  super := { free := 0, eaddr := 5 * Dblksz, ndfree := 0 }
  ref   := fun _ => 1

theorem repairable_spare : Repairable disk (spare 2) := by
  have hleaked : leaked disk (spare 2) [5 * Dblksz] = [4 * Dblksz] := by decide +kernel
  refine ⟨[5 * Dblksz], _, ⟨?_, ?_⟩, leaked_sorted disk (spare 2) _, fun a => mem_leaked_iff, ?_, ?_⟩
  · have hend : next (spare 2) (5 * Dblksz) = 0 := by decide +kernel
    exact ⟨rfl, by decide, hend⟩
  · intro a ha
    rw [List.mem_singleton.mp ha]
    exact ⟨by decide, by decide, rfl⟩
  · rw [hleaked]
    rfl
  · rw [hleaked]
    exact ⟨⟨rfl, .inl ⟨by decide, by decide, rfl⟩⟩, trivial⟩

end Creepy.Fscheck
