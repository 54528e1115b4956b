import Nix.K10.PhysallocStep

namespace K10

open Buddies (Block Pool)

variable {sys : Sys} {s s₀ : State} {L : Nat → List Nat}

-- A run in which what is merged leaves its list, and the blocks made are aligned as a request for `size` has to be.
def Placed (sys : Sys) (size : Nat) (s : State) : Act → Prop
  | .run => Unlinking sys s ∧ ∀ l n, s.pc = .s1 l n → ¬s.Apart l →
    min (2 ^ ((s.blocks l).kval + 1)) size ∣ sys.pmstart + bminsz * min l (State.buddy l (s.blocks l).kval)
  | _ => True

-- A run in which what is merged leaves its list, less than a block is not freed, and the blocks added are aligned
-- with the first one as a request for `size` has to be.
def Kept (sys : Sys) (size : Nat) (s : State) : Act → Prop
  | .physinit addr len => ∀ x ∈ iimbchunk addr (addr + len), min (2 ^ x.snd) (State.roundsize size) ∣ x.fst - sys.pmstart
  | .xphysfree _ n => bminsz ≤ n
  | .run => Unlinking sys s
  | _ => True

-- The blocks are aligned as far as the order `k`.
def Aligns (sys : Sys) (c : Prop) (d k : Nat) (s : State) : Prop :=
  ∃ L, Rep sys c s L ∧ (∀ x ∈ (s.pool sys L).blocks, Buddies.Aligned d k x) ∧ (d = 0 → (s.pool sys L).Eager k)

theorem order_dvd (hn : kmin ≤ n) : 2 ^ n ∣ bminsz * r ↔ 2 ^ (n - kmin) ∣ r := by
  rw [two_pow_eq hn, Nat.mul_dvd_mul_iff_left bminsz_pos]

theorem Sys.pmstart_eq (sys : Sys) : sys.pmstart = bminsz * index sys.pmstart :=
  (Nat.mul_div_cancel' sys.bminsz_dvd).symm

theorem addr_dvd (hn : kmin ≤ n) : 2 ^ n ∣ sys.pmstart + bminsz * r ↔ 2 ^ (n - kmin) ∣ r + index sys.pmstart := by
  rw [sys.pmstart_eq, ← Nat.mul_add, order_dvd hn, Nat.add_comm r, ← sys.pmstart_eq]

theorem min_two_pow (m n : Nat) : min (2 ^ m) (2 ^ n) = 2 ^ min m n := by
  rcases Nat.le_total m n with h | h
  · rw [Nat.min_eq_left h, Nat.min_eq_left (Nat.pow_le_pow_right (by decide) h)]
  · rw [Nat.min_eq_right h, Nat.min_eq_right (Nat.pow_le_pow_right (by decide) h)]

theorem act_eq_run (hs : step sys s act = some s') (hpc : s.pc = .s1 l n) : act = .run := by
  cases act
  case run => rfl
  all_goals
    obtain ⟨⟨hidle, _⟩, _⟩ := Option.ite_none_right_eq_some.mp hs
    rw [hpc] at hidle
    contradiction

theorem Aligns.step (h : Aligns sys c d k s) (hk : k ≤ top) (hu : act = .run → Unlinking sys s)
    (hc : c → ∀ data size, act = .xphysfree data size → bminsz ≤ size)
    (hnew : ∀ addr len, act = .physinit addr len → ∀ x ∈ iimbchunk addr (addr + len), sys.pmstart ≤ x.fst →
      Buddies.Aligned d k (sys.piece x))
    (hmerge : ∀ x, act = .run → Merged s x → d = 0 ∨ Buddies.Aligned d k x) (hs : step sys s act = some s') :
    Aligns sys c d k s' := by
  obtain ⟨L, h, hal, heager⟩ := h
  rcases h.step hu hc hs with ⟨L', h', hpool | hstep⟩ | ⟨addr, len, hact, h', hpool⟩
  · exact ⟨L', h', hpool ▸ hal, hpool ▸ heager⟩
  · refine ⟨L', h', hstep.aligned hal fun r o har hok => ?_, fun hd => ?_⟩
    · have ⟨l, n, hpc, _⟩ := hok
      rcases hmerge _ (act_eq_run hs hpc) hok with hd | hd
      · subst hd
        exact har.merge
      · exact hd
    · subst hd
      exact hstep.eager hk hal h.nodup_units (heager rfl)
  · refine ⟨L, h', fun x hx => ?_, fun hd => ?_⟩
    · rw [hpool, Pool.mem_blocks] at hx
      rcases hx with hx | hx | hx
      · exact hal x (Pool.mem_blocks.mpr (.inl hx))
      · rcases Multiset.mem_add.mp hx with hx | hx
        · obtain ⟨y, hy, rfl⟩ := List.mem_map.mp (Multiset.mem_coe.mp hx)
          subst hact
          obtain ⟨⟨_, _, _, hle, _⟩, _⟩ := Option.ite_none_right_eq_some.mp hs
          exact hnew addr len rfl y hy (hle.trans (iimbchunk_mem hy).left)
        · exact hal x (Pool.mem_blocks.mpr (.inr (.inl hx)))
      · exact hal x (Pool.mem_blocks.mpr (.inr (.inr hx)))
    · rw [hpool]
      exact (Pool.eager_busy ..).mpr (heager hd)

theorem Aligns.created (h : Created s) : Aligns sys c d k s := by
  refine ⟨fun _ => [], Rep.created h, ?_, fun _ => ?_⟩
  · rw [Rep.pool_created h]
    exact fun x hx => (Multiset.notMem_zero x hx).elim
  · rw [Rep.pool_created h]
    exact fun r o hx => (Multiset.notMem_zero _ hx).elim

-- The order of a request, or 0 if it is one that fails.
def orderOf (size : Nat) : Nat :=
  if IsPowerOf2 size ∧ lg2floor size ≤ kmax then lg2floor size - kmin else 0

theorem orderOf_le (size : Nat) : orderOf size ≤ top := by
  rw [orderOf]
  split
  case isTrue h => exact Nat.sub_le_sub_right h.right _
  case isFalse => exact Nat.zero_le _

theorem aligned_of_dvd (hm : kmin ≤ m) (h : min (2 ^ m) size ∣ bminsz * (r + d)) :
    Buddies.Aligned d (orderOf size) (r, m - kmin) := by
  rw [Buddies.Aligned, orderOf]
  split
  case isFalse => exact (Nat.min_zero _).symm ▸ Nat.one_dvd _
  case isTrue hp =>
    obtain ⟨n, rfl⟩ := Nat.ne_zero_and_sub_one_eq_zero_iff_isPowerOfTwo.mp hp.left
    rw [lg2floor_two_pow]
    rcases Nat.lt_or_ge n kmin with hlt | hge
    · rw [Nat.sub_eq_zero_of_le (Nat.le_of_lt hlt), Nat.min_zero]
      exact Nat.one_dvd _
    · rw [min_two_pow, order_dvd (Nat.le_min.mpr ⟨hm, hge⟩)] at h
      have heq : min (m - kmin) (n - kmin) = min m n - kmin := by omega
      exact heq ▸ h

theorem addr_eq (r : Nat) : sys.pmstart + bminsz * r = bminsz * (r + index sys.pmstart) := by
  rw [Nat.mul_add, ← sys.pmstart_eq, Nat.add_comm]

theorem aligns_of_placed : (machine sys).Invariant (Placed sys size) (Aligns sys False (index sys.pmstart) (orderOf size)) where
  init := Aligns.created
  step {s s' act} h hc hs := by
    refine h.step (orderOf_le size) (fun hact => ?unlinking) False.elim (fun addr len hact x hx hle => ?new)
      (fun x hact hx => .inr ?merge) hs
    case unlinking =>
      subst hact
      exact hc.left
    case new =>
      have ⟨_, hmin, _, hdvd⟩ := iimbchunk_mem hx
      rw [← sys.addr_block hle ((bminsz_dvd hmin).trans hdvd), addr_dvd hmin] at hdvd
      exact (Nat.pow_dvd_pow 2 (Nat.min_le_left ..)).trans hdvd
    case merge =>
      subst hact
      obtain ⟨l, n, hpc, hapart, rfl⟩ := hx
      obtain ⟨L, h, _⟩ := h
      have hmin : kmin ≤ (s.blocks l).kval := by
        have := h.call
        rw [State.Valid, hpc] at this
        exact this.left
      have hdvd := hc.right l n hpc hapart
      rw [addr_eq] at hdvd
      rw [← Nat.sub_add_comm hmin]
      exact aligned_of_dvd (Nat.le_succ_of_le hmin) hdvd

theorem aligns_of_kept : (machine sys).Invariant (Kept sys size) (Aligns sys True 0 (orderOf (State.roundsize size))) where
  init := Aligns.created
  step {s s' act} h hc hs := by
    refine h.step (orderOf_le _) (fun hact => ?unlinking) (fun _ data n hact => ?least) (fun addr len hact x hx hle => ?new)
      (fun x hact hx => .inl rfl) hs
    case unlinking =>
      subst hact
      exact hc
    case least =>
      subst hact
      exact hc
    case new =>
      subst hact
      have ⟨_, hmin, _, hdvd⟩ := iimbchunk_mem hx
      refine aligned_of_dvd hmin ?_
      have haddr := sys.addr_block hle ((bminsz_dvd hmin).trans hdvd)
      have hx := hc x hx
      rw [← haddr, Nat.add_sub_cancel_left] at hx
      exact hx

-- What a caller of `xphysalloc` relies on.
structure Allocated (sys : Sys) (s : State) : Prop where
  inside   : ∀ x ∈ s.live, x.fst ≠ 0 ∧ ∀ a, x.fst ≤ a → a < x.fst + x.snd → sys.pmstart ≤ a ∧ sys.block (index a) ∈ s.added
  disjoint : s.live.Pairwise fun x y => x.fst + x.snd ≤ y.fst ∨ y.fst + y.snd ≤ x.fst

theorem State.Lives.size_le {x : Nat × Nat} (h : s.Lives sys x) :
    x.snd ≤ bminsz * 2 ^ (lg2floor (State.roundsize x.snd) - kmin) := by
  rw [← two_pow_eq h.right.left, ← h.left, State.roundsize]
  split <;> omega

namespace Rep

theorem mem_liveblock (h : Rep sys c s L) (hx : x ∈ s.live) (hle : x.fst ≤ a) (hlt : a < x.fst + x.snd) :
    sys.pmstart ≤ a ∧ sys.block (index a) ∈ Buddies.units (sys.liveblock x) := by
  have hlive := h.live x hx
  have hsize := hlive.size_le
  have haddr := hlive.right.right.right.left
  rw [← haddr] at hle hlt
  refine ⟨(Nat.le_add_right ..).trans hle, ?_⟩
  have hlt := Nat.lt_of_lt_of_le hlt (Nat.add_le_add_left hsize _)
  rw [addr_eq] at hle hlt
  rw [← Nat.mul_add] at hlt
  have hlo := (Nat.le_div_iff_mul_le bminsz_pos).mpr (Nat.mul_comm .. ▸ hle)
  have hhi := (Nat.div_lt_iff_lt_mul bminsz_pos).mpr (Nat.mul_comm .. ▸ hlt)
  rw [Sys.liveblock, Buddies.mem_units]
  generalize 2 ^ (lg2floor (State.roundsize x.snd) - kmin) = n at hhi ⊢
  generalize sys.block (index x.fst) = r at hlo hhi ⊢
  change index a < _ at hhi
  change _ ≤ index a at hlo
  rw [Sys.block]
  omega

theorem live_units_nodup (h : Rep sys c s L) :
    (((s.live.map sys.liveblock : List Block) : Multiset Block).bind Buddies.units).Nodup := by
  have hn := h.nodup_units
  rw [Pool.units_eq, Multiset.nodup_add, Multiset.nodup_add] at hn
  have hbusy := hn.left.right.left
  change ((s.busy sys).bind Buddies.units).Nodup at hbusy
  rw [State.busy, Multiset.add_bind, Multiset.nodup_add] at hbusy
  exact hbusy.left

theorem live_mem_added (h : Rep sys c s L) (hx : x ∈ s.live) (hu : u ∈ Buddies.units (sys.liveblock x)) : u ∈ s.added := by
  rw [← Multiset.mem_coe, ← h.units]
  refine Multiset.mem_bind.mpr ⟨_, Pool.mem_blocks.mpr (.inr (.inl ?_)), hu⟩
  exact Multiset.mem_add.mpr <| .inl <| Multiset.mem_coe.mpr <| List.mem_map.mpr ⟨x, hx, rfl⟩

theorem live_disjoint (h : Rep sys c s L) : s.live.Pairwise fun x y => x.fst + x.snd ≤ y.fst ∨ y.fst + y.snd ≤ x.fst := by
  have hn : ((s.live.map sys.liveblock).flatMap fun x => List.range' x.fst (2 ^ x.snd)).Nodup :=
    Multiset.coe_nodup.mp <| Multiset.coe_bind .. ▸ h.live_units_nodup
  have hpair := List.pairwise_map.mp (List.nodup_flatMap.mp hn).right
  refine hpair.imp_of_mem fun {x y} hx hy hd => ?_
  have hlive := h.live x hx
  have hlive' := h.live y hy
  have hsize := hlive.size_le
  have hsize' := hlive'.size_le
  rw [← hlive.right.right.right.left, ← hlive'.right.right.right.left]
  change List.Disjoint (List.range' _ _) (List.range' _ _) at hd
  simp only [List.Disjoint, List.mem_range'_1, Sys.liveblock] at hd
  generalize sys.block (index x.fst) = r at hd ⊢
  generalize sys.block (index y.fst) = r' at hd ⊢
  have hn := Nat.two_pow_pos (lg2floor (State.roundsize x.snd) - kmin)
  have hn' := Nat.two_pow_pos (lg2floor (State.roundsize y.snd) - kmin)
  generalize 2 ^ (lg2floor (State.roundsize x.snd) - kmin) = n at hd hsize hn
  generalize 2 ^ (lg2floor (State.roundsize y.snd) - kmin) = n' at hd hsize' hn'
  have hapart : r + n ≤ r' ∨ r' + n' ≤ r := by
    by_contra hnot
    exact hd (a := max r r') (by omega) (by omega)
  rcases hapart with hle | hle
  · have := Nat.mul_le_mul_left bminsz hle
    rw [Nat.mul_add] at this
    exact .inl (by omega)
  · have := Nat.mul_le_mul_left bminsz hle
    rw [Nat.mul_add] at this
    exact .inr (by omega)

theorem allocated (h : Rep sys c s L) : Allocated sys s where
  inside x hx := by
    have hlive := h.live x hx
    have := sys.pos
    refine ⟨fun hz => ?_, fun a hle hlt => ?_⟩
    · have haddr := hlive.right.right.right.left
      rw [hz] at haddr
      omega
    · have ⟨hpm, hu⟩ := h.mem_liveblock hx hle hlt
      exact ⟨hpm, h.live_mem_added hx hu⟩
  disjoint := h.live_disjoint

end Rep

theorem Aligns.dvd (h : Aligns sys c (index sys.pmstart) (orderOf size) s) (hx : (m, size) ∈ s.live)
    (hp : IsPowerOf2 size) (hle : bminsz ≤ size) : size ∣ m := by
  obtain ⟨L, h, hal, _⟩ := h
  have ⟨hsize, hmin, hmax, haddr, _⟩ := h.live _ hx
  have hround : State.roundsize size = size := if_neg (Nat.not_lt.mpr hle)
  dsimp only at hsize hmin hmax haddr
  rw [hround] at hsize hmin hmax
  have hblock := hal (sys.liveblock (m, size)) <| Pool.mem_blocks.mpr <| .inr <| .inl <| Multiset.mem_add.mpr <|
    .inl <| Multiset.mem_coe.mpr <| List.mem_map.mpr ⟨_, hx, rfl⟩
  have horder : orderOf size = lg2floor size - kmin := if_pos ⟨hp, hmax⟩
  rw [Buddies.Aligned, Sys.liveblock, horder] at hblock
  dsimp only at hblock
  rw [hround, Nat.min_self, ← addr_dvd hmin, haddr] at hblock
  exact hsize ▸ hblock

instance (s : State) (p : Nat) : Decidable (State.Unlinks sys s p) :=
  if h : (s.blocks p).prev = 0 then
    decidable_of_iff (s.avail (s.blocks p).kval = p + index sys.pmstart ∧ (s.blocks p).next = 0) (by rw [State.Unlinks, if_pos h])
  else
    let q := s.blocks (sys.block (s.blocks p).prev)
    decidable_of_iff (q.tag = .avail ∧ q.kval = (s.blocks p).kval ∧ q.next = p + index sys.pmstart)
      (by rw [State.Unlinks, if_neg h])

instance (c : Pc) (C : Nat → Prop) [DecidablePred C] : Decidable (∀ l n, c = .s1 l n → C l) :=
  match c with
  | .s1 l _ => decidable_of_iff (C l) ⟨fun h _ _ he => (Pc.s1.inj he).left ▸ h, fun h => h _ _ rfl⟩
  | .idle | .split .. => .isTrue nofun

instance (s : State) : Decidable (Unlinking sys s) :=
  inferInstanceAs (Decidable (∀ l n, s.pc = .s1 l n → (¬s.Apart l → State.Unlinks sys s (State.buddy l (s.blocks l).kval))))

instance (size : Nat) (s : State) (act : Act) : Decidable (Placed sys size s act) :=
  match act with
  | .physinit .. | .xphysalloc .. | .xphysfree .. => .isTrue trivial
  | .run => inferInstanceAs (Decidable (Unlinking sys s ∧ ∀ l n, s.pc = .s1 l n → (¬s.Apart l →
    min (2 ^ ((s.blocks l).kval + 1)) size ∣ sys.pmstart + bminsz * min l (State.buddy l (s.blocks l).kval))))

instance (size : Nat) (s : State) (act : Act) : Decidable (Kept sys size s act) :=
  match act with
  | .physinit .. => inferInstanceAs (Decidable (∀ x ∈ iimbchunk _ _, _))
  | .xphysalloc .. => .isTrue trivial
  | .xphysfree .. => inferInstanceAs (Decidable (_ ≤ _))
  | .run => inferInstanceAs (Decidable (Unlinking sys s))

theorem xphysalloc_sound (hr : (machine sys).Reachable (Placed sys size) s) :
    Allocated sys s ∧ ∀ m, (m, size) ∈ s.live → IsPowerOf2 size → bminsz ≤ size → size ∣ m := by
  have h := aligns_of_placed.holds hr
  have ⟨_, hrep, _⟩ := h
  exact ⟨hrep.allocated, fun _ => h.dvd⟩

-- No call has the lock, and `iimbchunk` has added what it was given.
def Quiet (s : State) : Prop :=
  s.pc = .idle ∧ s.plops = []

-- The lists have the available blocks, and these are all the memory that is not allocated.
structure Conserved (sys : Sys) (s : State) (L : Nat → List Nat) : Prop where
  reach     : ∀ k, s.head sys k = (L k).head? ∧ Follows (s.succ sys) (L k)
  only      : ∀ k r, r ∈ L k → (s.blocks r).tag = .avail ∧ (s.blocks r).kval = k
  once      : ∀ r, (s.blocks r).tag = .avail → kmin ≤ (s.blocks r).kval ∧ (s.blocks r).kval ≤ kmax ∧
    (L (s.blocks r).kval).count r = 1
  partition : (freeblocks L + (s.live.map sys.liveblock : List Block)).bind Buddies.units = s.added
  distinct  : s.added.Nodup
  nfree     : s.nfree = ∑ k ∈ Finset.Icc kmin kmax, (L k).length * (2 ^ k / bminsz)

-- That a request is satisfied.
def Can (s : State) (size : Nat) : Prop :=
  IsPowerOf2 (State.roundsize size) ∧ (s.find (lg2floor (State.roundsize size))).isSome

theorem card_sized (k : Nat) (l : List Nat) : ((sized k l).bind Buddies.units).card = l.length * 2 ^ (k - kmin) := by
  induction l
  case nil => rw [List.length_nil, Nat.zero_mul]; rfl
  case cons r l ih =>
    rw [sized_cons, Multiset.cons_bind, Multiset.card_add, ih, Buddies.card_units, List.length_cons, Nat.succ_mul,
      Nat.add_comm]

theorem card_freeblocks (L : Nat → List Nat) :
    ((freeblocks L).bind Buddies.units).card = ∑ k ∈ Finset.Icc kmin kmax, (L k).length * (2 ^ k / bminsz) := by
  have hsum (S : Finset Nat) : ((∑ k ∈ S, sized k (L k)).bind Buddies.units).card =
      ∑ k ∈ S, (L k).length * 2 ^ (k - kmin) := by
    induction S using Finset.induction_on
    case empty => rfl
    case insert k S hk ih =>
      rw [Finset.sum_insert hk, Finset.sum_insert hk, Multiset.add_bind, Multiset.card_add, card_sized, ih]
  rw [freeblocks, hsum]
  exact Finset.sum_congr rfl fun k hk => by rw [two_pow_div (Finset.mem_Icc.mp hk).left]

namespace Rep

variable (sys) in
theorem pool_quiet (hq : Quiet s) (L : Nat → List Nat) :
    s.pool sys L = ⟨freeblocks L, (s.live.map sys.liveblock : List Block), 0⟩ := by
  have hbusy : s.busy sys = (s.live.map sys.liveblock : List Block) := by
    rw [State.busy, hq.right, List.map_nil, Multiset.coe_nil, add_zero]
  rw [State.pool, hbusy, hand_idle hq.left]

theorem conserved (h : Rep sys True s L) (hq : Quiet s) : Conserved sys s L where
  reach k := ⟨h.lists.hd k, h.lists.next k⟩
  only k r hr := State.place_eq_some.mp (h.lists.mem.mp hr)
  once r hr := by
    have hmem := h.lists.mem.mpr (State.place_eq_some.mpr ⟨hr, rfl⟩)
    exact ⟨(h.level hmem).left, (h.level hmem).right, List.count_eq_one_of_mem (h.lists.nodup _) hmem⟩
  partition := by
    have := h.units
    rwa [pool_quiet _ hq, Pool.units, Pool.blocks, add_zero] at this
  distinct := h.nodup
  nfree := by
    have hnfree := h.nfree trivial
    rw [State.freed, hq.left, pool_quiet _ hq, Pool.spare] at hnfree
    dsimp only at hnfree
    rw [add_zero, add_zero, card_freeblocks] at hnfree
    exact hnfree

end Rep

theorem isSome_find {k : Nat} : (s.find k).isSome ↔ ∃ j, k ≤ j ∧ j ≤ kmax ∧ s.avail j ≠ 0 := by
  rw [State.find, List.find?_isSome]
  simp only [List.mem_range'_1, decide_eq_true_eq]
  constructor
  · rintro ⟨j, hj, ha⟩
    exact ⟨j, hj.left, by omega, ha⟩
  · rintro ⟨j, hle, hmax, ha⟩
    exact ⟨j, ⟨hle, by omega⟩, ha⟩

theorem Aligns.can (h₀ : Aligns sys True 0 (orderOf (State.roundsize size)) s₀)
    (h : Aligns sys True 0 (orderOf (State.roundsize size)) s) (hq : Quiet s) (hl : s.live = [])
    (hadded : s.added = s₀.added) (hcan : Can s₀ size) : Can s size := by
  obtain ⟨L₀, h₀, hal₀, _⟩ := h₀
  obtain ⟨L, h, hal, heager⟩ := h
  obtain ⟨hp, hfind⟩ := hcan
  obtain ⟨j, hkj, hj, havail⟩ := isSome_find.mp hfind
  obtain ⟨_, hmin⟩ := roundsize_eq hp
  refine ⟨hp, isSome_find.mpr ?_⟩
  have horder : orderOf (State.roundsize size) = lg2floor (State.roundsize size) - kmin := if_pos ⟨hp, by omega⟩
  rw [horder] at hal₀ hal heager
  generalize lg2floor (State.roundsize size) = k at *
  have hpool := Rep.pool_quiet sys hq L
  rw [hl] at hpool
  -- The block that was there before, and the place for the request in it.
  obtain ⟨r, hr⟩ : ∃ r, r ∈ L₀ j := by
    have hhead := h₀.lists.hd j
    rw [State.head, Sys.node, if_neg havail] at hhead
    exact ⟨_, List.mem_of_head? hhead.symm⟩
  have hmem : (r, j - kmin) ∈ (s₀.pool sys L₀).free := by
    rw [h₀.mem_free, Nat.sub_add_cancel (h₀.level hr).left]
    exact hr
  have hdvd : 2 ^ (k - kmin) ∣ r :=
    (hal₀ _ (Pool.mem_blocks.mpr (.inl hmem))).dvd (Nat.sub_le_sub_right hkj _) le_rfl
  have hall (u) (hu : u ∈ Buddies.units (r, k - kmin)) : u ∈ (s.pool sys L).free.bind Buddies.units := by
    have hin : u ∈ (s₀.pool sys L₀).units := by
      refine Multiset.mem_bind.mpr ⟨(r, j - kmin), Pool.mem_blocks.mpr (.inl hmem), ?_⟩
      obtain ⟨hlo, hhi⟩ := Buddies.mem_units.mp hu
      have hle : 2 ^ (k - kmin) ≤ 2 ^ (j - kmin) := Nat.pow_le_pow_right (by decide) (Nat.sub_le_sub_right hkj _)
      exact Buddies.mem_units.mpr ⟨hlo, Nat.lt_of_lt_of_le hhi (Nat.add_le_add_left hle _)⟩
    rw [h₀.units, ← hadded, ← h.units, hpool, Pool.units_eq] at hin
    rw [hpool]
    simpa using hin
  obtain ⟨x, hx, hkx⟩ := Buddies.exists_large (fun x hx => hal x (Pool.mem_blocks.mpr (.inl hx))) (heager rfl) hdvd hall
  have hxl : x.fst ∈ L (x.snd + kmin) := h.mem_free.mp hx
  refine ⟨x.snd + kmin, by omega, (h.level hxl).right, fun hz => ?_⟩
  have hhead := h.lists.hd (x.snd + kmin)
  rw [State.head, hz, sys.node_zero, eq_comm, List.head?_eq_none_iff] at hhead
  rw [hhead] at hxl
  contradiction

theorem memory_conserved (hr : (machine sys).Reachable (Kept sys size) s) (hq : Quiet s) :
    (∃ L, Conserved sys s L) ∧ ∀ s₀, (machine sys).Reachable (Kept sys size) s₀ → s.live = [] → s.added = s₀.added →
      Can s₀ size → Can s size := by
  have h := aligns_of_kept.holds hr
  have ⟨L, hrep, _⟩ := h
  exact ⟨⟨L, hrep.conserved hq⟩, fun _ hr₀ hl hadded => (aligns_of_kept.holds hr₀).can h hq hl hadded⟩

def four : Sys where
  pmstart := 4 * 2 ^ 20
  mult    := by decide
  pos     := by decide

def boot : State :=
  ⟨0, 0, 0, fun _ => ⟨.used, 0, 0, 0, 0⟩, fun _ => 0, .idle, [], [], []⟩

theorem boot_created : Created boot :=
  ⟨rfl, rfl, fun _ => rfl, fun _ => rfl, rfl, rfl, rfl, rfl⟩

def runs (n : Nat) : List Act :=
  List.replicate n .run

-- Four blocks are allocated, and three of them are freed.
def fourblocks : List Act :=
  .physinit (8 * 2 ^ 20) (8 * 2 ^ 20) :: runs 2 ++ .xphysalloc (2 * 2 ^ 20) 0 :: runs 3 ++ .xphysalloc (2 * 2 ^ 20) 0 :: runs 1 ++
    .xphysalloc (2 * 2 ^ 20) 0 :: runs 2 ++ .xphysalloc (2 * 2 ^ 20) 0 :: runs 1 ++
    .xphysfree (8 * 2 ^ 20) (2 * 2 ^ 20) :: runs 1 ++ .xphysfree (12 * 2 ^ 20) (2 * 2 ^ 20) :: runs 1

-- The third one is merged with the first one of a list of two.
def lost : State :=
  ((machine four).exec boot (fourblocks ++ .xphysfree (14 * 2 ^ 20) (2 * 2 ^ 20) :: runs 2)).get (by decide +kernel)

theorem block_lost : (machine four).Reachable (fun _ _ => True) lost ∧ Quiet lost ∧ ¬∃ L, Conserved four lost L := by
  refine ⟨(Machine.Reachable.init boot_created).exec (fun _ _ _ => trivial) (Option.some_get _).symm,
    ⟨by decide +kernel, by decide +kernel⟩, fun ⟨L, h⟩ => ?_⟩
  have htag : (lost.blocks 2).tag = .avail := by decide +kernel
  have hkval : (lost.blocks 2).kval = kmin := by decide +kernel
  have hnil : lost.head four kmin = none := by decide +kernel
  have hcount := (h.once 2 htag).right.right
  rw [(h.reach kmin).left, List.head?_eq_none_iff] at hnil
  rw [hkval, hnil, List.count_nil] at hcount
  exact Nat.zero_ne_one hcount

-- The block that is merged is still the first one of its list.
def twice : State :=
  ((machine four).exec boot (fourblocks ++ .xphysalloc (2 * 2 ^ 20) 0 :: runs 1 ++
    .xphysfree (10 * 2 ^ 20) (2 * 2 ^ 20) :: runs 2 ++ .xphysalloc (4 * 2 ^ 20) 0 :: runs 1 ++
    .xphysalloc (2 * 2 ^ 20) 0 :: runs 1)).get (by decide +kernel)

-- Two blocks next to each other are merged, and their place is not a multiple of their size.
def askew : State :=
  ((machine four).exec boot (.physinit (4 * 2 ^ 20) (8 * 2 ^ 20) :: runs 5 ++ .xphysalloc (8 * 2 ^ 20) 0 :: runs 1)).get
    (by decide +kernel)

theorem allocated_twice : ((machine four).Reachable (fun _ _ => True) twice ∧ ¬Allocated four twice) ∧
    (machine four).Reachable (fun _ _ => True) askew ∧
      ∃ m size, (m, size) ∈ askew.live ∧ IsPowerOf2 size ∧ bminsz ≤ size ∧ ¬size ∣ m := by
  have hinit : (machine four).Reachable (fun _ _ => True) boot := .init boot_created
  have htwice : (machine four).Reachable (fun _ _ => True) twice :=
    hinit.exec (fun _ _ _ => trivial) (Option.some_get _).symm
  have haskew : (machine four).Reachable (fun _ _ => True) askew :=
    hinit.exec (fun _ _ _ => trivial) (Option.some_get _).symm
  have hlive : (4 * 2 ^ 20, 8 * 2 ^ 20) ∈ askew.live := by decide +kernel
  refine ⟨⟨htwice, fun h => ?_⟩, haskew, _, _, hlive, by decide +kernel⟩
  exact absurd h.disjoint (by decide +kernel)

-- A block is allocated, freed, and merged with its buddy again.
def merged : State :=
  (((machine four).guarded (Kept four (4 * 2 ^ 20))).exec boot (.physinit (4 * 2 ^ 20) (4 * 2 ^ 20) :: runs 2 ++
    .xphysalloc (2 * 2 ^ 20) 0 :: runs 2 ++ .xphysfree (4 * 2 ^ 20) (2 * 2 ^ 20) :: runs 2)).get (by decide +kernel)

theorem merged_conserved : (∃ L, Conserved four merged L) ∧ (Can merged (4 * 2 ^ 20) → Can merged (4 * 2 ^ 20)) := by
  have hr : (machine four).Reachable (Kept four (4 * 2 ^ 20)) merged :=
    (Machine.Reachable.init boot_created).guarded (Option.some_get _).symm
  have h := memory_conserved hr ⟨by decide +kernel, by decide +kernel⟩
  exact ⟨h.left, h.right merged hr (by decide +kernel) rfl⟩

def taken : State :=
  (((machine four).guarded (Placed four (2 * 2 ^ 20))).exec boot (.physinit (4 * 2 ^ 20) (4 * 2 ^ 20) :: runs 2 ++
    .xphysalloc (2 * 2 ^ 20) 0 :: runs 2)).get (by decide +kernel)

theorem taken_sound : Allocated four taken ∧ 2 * 2 ^ 20 ∣ 4 * 2 ^ 20 := by
  have hr : (machine four).Reachable (Placed four (2 * 2 ^ 20)) taken :=
    (Machine.Reachable.init boot_created).guarded (Option.some_get _).symm
  have h := xphysalloc_sound hr
  exact ⟨h.left, h.right _ (by decide +kernel) (by decide +kernel) (by decide +kernel)⟩

end K10
