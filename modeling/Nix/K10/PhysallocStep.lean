import Nix.K10.PhysallocInvariant

namespace K10

open Buddies (Block Pool)

abbrev top : Nat := kmax - kmin

-- What `xphysfree` merges leaves its list.
def Unlinking (sys : Sys) (s : State) : Prop :=
  ∀ l size, s.pc = .s1 l size → ¬s.Apart l → State.Unlinks sys s (State.buddy l (s.blocks l).kval)

-- The block that is made when a block is merged with its buddy.
def Merged (s : State) (x : Block) : Prop :=
  ∃ l size, s.pc = .s1 l size ∧ ¬s.Apart l ∧
    x = (min l (State.buddy l (s.blocks l).kval), (s.blocks l).kval - kmin + 1)

-- The new state has lists again, and its blocks come from the ones before.
def Steps (sys : Sys) (c : Prop) (s : State) (L : Nat → List Nat) (s' : State) : Prop :=
  ∃ L', Rep sys c s' L' ∧
    (s'.pool sys L' = s.pool sys L ∨ Pool.Step top (Merged s) (s.pool sys L) (s'.pool sys L'))

namespace Rep

variable {sys : Sys} {s s' : State} {L L' : Nat → List Nat}

theorem same (h : Rep sys c s L) : Steps sys c s L s :=
  ⟨L, h, .inl rfl⟩

theorem of_step (h : Rep sys c s L) (L' : Nat → List Nat) (hstep : Pool.Step top (Merged s) (s.pool sys L) (s'.pool sys L'))
    (hadded : s'.added = s.added) (hlists : Stacks (s'.head sys) (s'.succ sys) s'.place L')
    (hlevel : ∀ k r, r ∈ L' k → kmin ≤ k ∧ k ≤ kmax) (hlive : ∀ x ∈ s'.live, s'.Lives sys x)
    (hplops : s'.plops.Sublist s.plops) (hcall : s'.Valid)
    (hnfree : c → s'.nfree + s'.freed + ((s'.busy sys).bind Buddies.units).card =
      s.nfree + s.freed + ((s.busy sys).bind Buddies.units).card) : Steps sys c s L s' := by
  have hunits := hstep.units_eq
  refine ⟨L', ⟨hlists, fun {k r} => hlevel k r, hlive, fun x hx => h.plops x (hplops.mem hx), hcall, ?_, hadded ▸ h.nodup,
    fun hc => ?_⟩, .inr hstep⟩
  · rw [hunits, h.units, hadded]
  · have hcard := congrArg Multiset.card hunits
    rw [Pool.card_units, Pool.card_units] at hcard
    have := hnfree hc
    have := h.nfree hc
    change _ + ((s'.busy sys).bind Buddies.units).card = _ + ((s.busy sys).bind Buddies.units).card at hcard
    omega

theorem level_erase (h : Rep sys c s L) (k r : Nat) :
    ∀ k' r', r' ∈ Function.update L k ((L k).erase r) k' → kmin ≤ k' ∧ k' ≤ kmax := by
  intro k' r' hr'
  by_cases hk : k' = k
  case pos =>
    rw [hk, Function.update_self] at hr'
    exact hk ▸ h.level (List.mem_of_mem_erase hr')
  case neg =>
    rw [Function.update_of_ne hk] at hr'
    exact h.level hr'

theorem level_push (h : Rep sys c s L) (hk : kmin ≤ k ∧ k ≤ kmax) (r : Nat) :
    ∀ k' r', r' ∈ Function.update L k (r :: L k) k' → kmin ≤ k' ∧ k' ≤ kmax := by
  intro k' r' hr'
  by_cases hk' : k' = k
  case pos => exact hk' ▸ hk
  case neg =>
    rw [Function.update_of_ne hk'] at hr'
    exact h.level hr'

theorem hand_idle (hpc : s.pc = .idle) : s.hand = 0 := by
  rw [State.hand, hpc]

theorem xphysalloc (h : Rep sys c s L) (hpc : s.pc = .idle) (size tag : Nat) :
    Steps sys c s L (s.xphysalloc sys size tag) := by
  rw [State.xphysalloc]
  split
  case isFalse => exact h.same
  case isTrue hp =>
    have ⟨hsize, hmin⟩ := roundsize_eq hp
    generalize lg2floor (State.roundsize size) = k at hsize hmin ⊢
    dsimp only
    split
    case h_1 => exact h.same
    case h_2 j hfind =>
      have hj : k ≤ j ∧ j ≤ kmax := by
        have := List.mem_range'_1.mp (List.mem_of_find?_eq_some hfind)
        omega
      have hne : s.avail j ≠ 0 := by simpa using List.find?_some hfind
      have hl : sys.block (s.avail j) ∈ L j := by
        have hhead := h.lists.hd j
        rw [State.head, Sys.node, if_neg hne] at hhead
        exact List.mem_of_head? hhead.symm
      have hk := h.level hl
      have hblock := State.take_block sys s j k
      have hfree := freeblocks_erase hk hl
      refine h.of_step (Function.update L j ((L j).erase (sys.block (s.avail j)))) ?step rfl
        (State.take_lists h.lists hne) (h.level_erase _ _) (fun x hx => ?live) (List.Sublist.refl _)
        ⟨hmin, hj.left, hj.right, ?kval, hsize⟩ fun _ => ?nfree
      case step =>
        rw [State.pool, hfree, hand_idle hpc]
        exact .take
      case live =>
        refine lives_of_kval (h.live x hx) ?_
        have hlne := h.live_ne hx (.inl (h.mem_free.mpr (by rwa [Nat.sub_add_cancel hk.left]))) (Buddies.start_mem (_, j - kmin))
        exact (hblock _).right.left.trans (if_neg hlne)
      case kval => exact (hblock _).right.left.trans (if_pos rfl)
      case nfree =>
        rw [State.freed, State.freed, hpc]
        rfl

theorem split (h : Rep sys c s L) (hpc : s.pc = .split l j k size tag) (hs : s.split sys l j k size tag = some s') :
    Steps sys c s L s' := by
  obtain ⟨hmin, hkj, hmax, hkval, hsize⟩ : kmin ≤ k ∧ k ≤ j ∧ j ≤ kmax ∧ (s.blocks l).kval = k ∧
      State.roundsize size = 2 ^ k := by
    have := h.call
    rwa [State.Valid, hpc] at this
  have hhand : s.hand = {(l, j - kmin)} := by rw [State.hand, hpc]
  have hmem : (l, j - kmin) ∈ (s.pool sys L).hand := by
    rw [State.pool, hhand]
    exact Multiset.mem_singleton_self _
  rw [State.split] at hs
  split at hs
  case isTrue hlt =>
    obtain rfl := Option.some.inj hs
    have hdiv := two_pow_div (k := j - 1) (by omega)
    have horder : j - kmin = j - 1 - kmin + 1 := by omega
    rw [hdiv]
    generalize hp : l + 2 ^ (j - 1 - kmin) = p
    have hu : p ∈ Buddies.units (l, j - kmin) := by
      rw [horder, Buddies.units_split, hp]
      exact Multiset.mem_add.mpr <| .inr <| Buddies.start_mem (p, j - 1 - kmin)
    have hplace := h.place_eq_none (.inr hmem) hu
    obtain ⟨hadded, hlive, hplops, hnfree⟩ := State.link_rest sys s p (j - 1)
    have hlinked := State.linked sys s p (j - 1)
    have hj : kmin ≤ j - 1 ∧ j - 1 ≤ kmax := by omega
    have hbusy := State.busy_eq sys hlive hplops
    refine h.of_step (Function.update L (j - 1) (p :: L (j - 1))) ?step hadded
      (State.link_lists h.lists hplace) (h.level_push hj p) (fun x hx => ?live)
      (hplops ▸ List.Sublist.refl _) ⟨hmin, by omega, hj.right, ?kval, hsize⟩ fun _ => ?nfree
    case step =>
      have hpool : s.pool sys L = ⟨freeblocks L, s.busy sys, {(l, j - 1 - kmin + 1)}⟩ := by
        rw [State.pool, hhand, horder]
      have hpool' : State.pool sys { s.link sys p (j - 1) with pc := .split l (j - 1) k size tag }
          (Function.update L (j - 1) (p :: L (j - 1))) =
            ⟨(p, j - 1 - kmin) ::ₘ freeblocks L, s.busy sys, {(l, j - 1 - kmin)}⟩ := by
        rw [State.pool, freeblocks_push hj]
        exact congrArg (Pool.mk _ · _) hbusy
      rw [hpool, hpool', ← hp]
      exact .split
    case live =>
      have hx' : x ∈ s.live := hlive ▸ hx
      exact lives_of_kval (h.live x hx') (hlinked.other _ (h.live_ne hx' (.inr hmem) hu)).right.left
    case kval =>
      have hne : l ≠ p := by
        have := Nat.two_pow_pos (j - 1 - kmin)
        omega
      exact (hlinked.other l hne).right.left.trans hkval
    case nfree =>
      rw [State.freed, State.freed, hpc]
      exact congrArg₂ (fun n (b : Multiset Block) => n + 0 + ((b.bind Buddies.units).card : Int)) hnfree hbusy
  case isFalse hge =>
    obtain ⟨_, hs⟩ := Option.ite_none_right_eq_some.mp hs
    obtain rfl : k = j := by omega
    have hsame := State.Same.upd (s := s) (r := l) (f := fun b => { b with p := tag }) fun _ => ⟨rfl, rfl, rfl⟩
    have hblock : sys.liveblock (sys.pmstart + bminsz * l, size) = (l, k - kmin) := by
      rw [Sys.liveblock, sys.block_addr, hsize, lg2floor_two_pow]
    have hbusy : s'.busy sys = (l, k - kmin) ::ₘ s.busy sys := by
      rw [← hblock]
      exact State.busy_live sys (Option.some.inj hs ▸ .refl _) (Option.some.inj hs ▸ rfl)
    obtain rfl := Option.some.inj hs
    refine h.of_step L ?step rfl ?lists (fun _ _ => h.level) (fun x hx => ?live) (List.Sublist.refl _) trivial
      fun _ => ?nfree
    case step =>
      have hpool : s.pool sys L = ⟨freeblocks L, s.busy sys, {(l, k - kmin)}⟩ := by rw [State.pool, hhand]
      rw [hpool, State.pool, hbusy]
      exact .give
    case lists =>
      obtain ⟨hhead, hsucc, hplace⟩ := hsame.eq sys
      have := h.lists
      rw [← hhead, ← hsucc, ← hplace] at this
      exact this
    case live =>
      rcases List.mem_cons.mp hx with rfl | hx
      · have hlg : lg2floor (State.roundsize size) = k := by rw [hsize, lg2floor_two_pow]
        rw [State.Lives, hlg, sys.block_addr]
        exact ⟨hsize, hmin, hmax, rfl, (hsame.block l).right.left.trans hkval⟩
      · exact lives_of_kval (h.live x hx) (hsame.block _).right.left
    case nfree =>
      rw [State.freed, State.freed, hpc, hbusy, Multiset.cons_bind, Multiset.card_add, Buddies.card_units, hsize,
        two_pow_div hmin]
      push_cast
      omega

variable (sys s) in
theorem pool_upd (r : Nat) (hf : ∀ b, (f b).kval = b.kval) (L : Nat → List Nat) : (s.upd r f).pool sys L = s.pool sys L := by
  have hhand : (s.upd r f).hand = s.hand := by
    have hkval (l : Nat) : ((s.upd r f).blocks l).kval = (s.blocks l).kval := by
      rw [State.blocks_upd]
      split
      case isTrue h => rw [hf, h]
      case isFalse => rfl
    cases hpc : s.pc <;> simp only [State.hand, State.upd, hpc]
    exact congrArg (fun k => {(_, k - kmin)}) (hkval _)
  exact congrArg (Pool.mk _ _) hhand

theorem merge (h : Rep sys c s L) (hpc : s.pc = .s1 l size)
    (hu : ¬s.Apart l → State.Unlinks sys s (State.buddy l (s.blocks l).kval)) : Steps sys c s L (s.merge sys l size) := by
  obtain ⟨k, hkval⟩ : ∃ k, (s.blocks l).kval = k := ⟨_, rfl⟩
  have hk : kmin ≤ k ∧ k ≤ kmax := by
    have := h.call
    rw [State.Valid, hpc] at this
    exact hkval ▸ this
  have hhand : s.hand = {(l, k - kmin)} := by rw [State.hand, hpc, ← hkval]
  have hmem : (l, k - kmin) ∈ (s.pool sys L).hand := by
    rw [State.pool, hhand]
    exact Multiset.mem_singleton_self _
  have hplace := h.place_eq_none (.inr hmem) (Buddies.start_mem _)
  have hpool : s.pool sys L = ⟨freeblocks L, s.busy sys, {(l, k - kmin)}⟩ := by rw [State.pool, hhand]
  obtain ⟨p, hp⟩ : ∃ p, State.buddy l k = p := ⟨_, rfl⟩
  have hp' : Buddies.buddy l (k - kmin) = p := buddy_eq hk.left l ▸ hp
  have happ : s.Apart l ↔ k = kmax ∨ (s.blocks p).tag = .used ∨ ((s.blocks p).tag = .avail ∧ (s.blocks p).kval ≠ k) := by
    rw [State.Apart, hkval, hp]
  have hmerged (ha : ¬s.Apart l) : Merged s (min l p, k - kmin + 1) := ⟨l, size, hpc, ha, by rw [hkval, hp]⟩
  rw [hkval, hp] at hu
  rw [State.merge]
  dsimp only
  rw [hkval, hp]
  split
  case isTrue ha =>
    obtain ⟨hadded, hlive, hplops, hnfree⟩ := State.link_rest sys s l k
    have hlinked := State.linked sys s l k
    have hbusy := State.busy_eq sys hlive hplops
    refine h.of_step (Function.update L k (l :: L k)) ?step hadded (State.link_lists h.lists hplace)
      (h.level_push hk l) (fun x hx => ?live) (hplops ▸ List.Sublist.refl _) trivial fun _ => ?nfree
    case step =>
      have hpool' : State.pool sys { s.link sys l k with nfree := s.nfree + (size / bminsz : Nat), pc := .idle }
          (Function.update L k (l :: L k)) = ⟨(l, k - kmin) ::ₘ freeblocks L, s.busy sys, 0⟩ := by
        rw [State.pool, freeblocks_push hk]
        exact congrArg (Pool.mk _ · _) hbusy
      rw [hpool, hpool']
      refine .put fun hlt hfree => ?_
      rw [hp', ← show (s.pool sys L).free = freeblocks L from rfl, h.mem_free, Nat.sub_add_cancel hk.left, h.lists.mem,
        State.place_eq_some] at hfree
      rcases happ.mp ha with hmax | hused | ⟨_, hne⟩
      · exact absurd hlt (hmax ▸ Nat.lt_irrefl _)
      · rw [hfree.left] at hused
        contradiction
      · exact hne hfree.right
    case live =>
      have hx' : x ∈ s.live := hlive ▸ hx
      exact lives_of_kval (h.live x hx') (hlinked.other _ (h.live_ne hx' (.inr hmem) (Buddies.start_mem _))).right.left
    case nfree =>
      rw [State.freed, State.freed, hpc]
      change s.nfree + (size / bminsz : Nat) + 0 + (((s.link sys l k).busy sys).bind Buddies.units).card =
        s.nfree + (size / bminsz : Nat) + _
      rw [hbusy, Int.add_zero]
  case isFalse ha =>
    have hu := hu ha
    rw [happ, not_or, not_or, not_and, not_not] at ha
    obtain ⟨hmax, hused, heq⟩ := ha
    have htag : (s.blocks p).tag = .avail := by
      cases ht : (s.blocks p).tag
      case used => exact absurd ht hused
      case avail => rfl
    have hpp : s.place p = some k := State.place_eq_some.mpr ⟨htag, heq htag⟩
    have hmemp := h.lists.mem.mpr hpp
    have hfree := h.free_of_place hpp
    have hblock := State.unlink_block sys s p
    obtain ⟨hadded, hlive, hplops, hnfree⟩ := State.unlink_rest sys s p
    have hlists := State.unlink_lists h.lists hpp hu
    have hbusy := State.busy_eq sys hlive hplops
    obtain ⟨m, hm⟩ : ∃ m, (if p < l then p else l) = m := ⟨_, rfl⟩
    have hmin : min l p = m := by
      rw [← hm]
      split <;> omega
    have hcases : m = l ∨ m = p := by omega
    have hne : l ≠ p := fun he => Buddies.buddy_ne l (k - kmin) (hp'.trans he.symm)
    have hplace' : (s.unlink sys p).place m = none := by
      rw [State.unlink_place]
      rcases hcases with rfl | rfl
      · rw [Function.update_of_ne hne, hplace]
      · exact Function.update_self ..
    have hkvalm : ((s.unlink sys p).blocks m).kval = k := by
      rw [(hblock m).right.left]
      exact hcases.elim (· ▸ hkval) (· ▸ heq htag)
    have hkval' (r : Nat) : (((s.unlink sys p).upd m fun b => { b with kval := b.kval + 1 }).blocks r).kval =
        if r = m then k + 1 else (s.blocks r).kval := by
      rw [State.blocks_upd]
      split
      case isTrue => exact congrArg (· + 1) hkvalm
      case isFalse => exact (hblock r).right.left
    rw [hm]
    refine h.of_step (Function.update L k ((L k).erase p)) ?step hadded
      (State.upd_lists (f := fun b => { b with kval := b.kval + 1 }) hlists hplace' fun _ => ⟨rfl, rfl⟩) (h.level_erase k p)
      (fun x hx => ?live) (hplops ▸ List.Sublist.refl _) ?valid fun _ => ?nfree
    case step =>
      have hpool' : State.pool sys { (s.unlink sys p).upd m fun b => { b with kval := b.kval + 1 } with pc := .s1 m size }
          (Function.update L k ((L k).erase p)) =
            ⟨freeblocks (Function.update L k ((L k).erase p)), s.busy sys, {(m, k - kmin + 1)}⟩ := by
        have hself := hkval' m
        rw [if_pos rfl] at hself
        have hhand : State.hand { (s.unlink sys p).upd m fun b => { b with kval := b.kval + 1 } with pc := .s1 m size } =
            {(m, k - kmin + 1)} := by
          rw [← Nat.sub_add_comm hk.left, ← hself]
          rfl
        exact congrArg₂ (Pool.mk _) hbusy hhand
      rw [hpool, hpool', freeblocks_erase hk hmemp, ← hmin, ← hp']
      exact .merge (hp' ▸ hmerged (fun h => by simp_all))
    case live =>
      have hx' : x ∈ s.live := hlive ▸ hx
      have hlne := h.live_ne hx' (.inr hmem) (Buddies.start_mem _)
      have hpne := h.live_ne hx' (.inl hfree) (Buddies.start_mem _)
      refine lives_of_kval (h.live x hx') ((hkval' _).trans (if_neg ?_))
      exact hcases.elim (fun he => he ▸ hlne) (fun he => he ▸ hpne)
    case valid =>
      have hself := hkval' m
      rw [if_pos rfl] at hself
      exact ⟨by rw [hself]; omega, by rw [hself]; omega⟩
    case nfree =>
      rw [State.freed, State.freed, hpc]
      exact congrArg₂ (fun n (b : Multiset Block) => n + (size / bminsz : Nat) + ((b.bind Buddies.units).card : Int)) hnfree hbusy

theorem upd (h : Rep sys c s L) (r : Nat) (hf : ∀ b, (f b).tag = b.tag ∧ (f b).kval = b.kval ∧ (f b).next = b.next) :
    Rep sys c (s.upd r f) L := by
  have hsame := State.Same.upd (s := s) (r := r) hf
  obtain ⟨hhead, hsucc, hplace⟩ := hsame.eq sys
  have hpool := pool_upd sys s r (fun b => (hf b).right.left) L
  refine ⟨hhead ▸ hsucc ▸ hplace ▸ h.lists, h.level, fun x hx => lives_of_kval (h.live x hx) (hsame.block _).right.left,
    h.plops, ?_, hpool ▸ h.units, h.nodup, hpool ▸ h.nfree⟩
  have hpc : (s.upd r f).pc = s.pc := rfl
  have hkval r' := (hsame.block r').right.left
  have hvalid : (s.upd r f).Valid = s.Valid := by simp only [State.Valid, hpc, hkval]
  exact hvalid ▸ h.call

theorem s1 (h : Rep sys c s L) (hpc : s.pc = .s1 l size)
    (hu : ¬s.Apart l → State.Unlinks sys s (State.buddy l (s.blocks l).kval)) : Steps sys c s L (s.s1 sys l size) := by
  have hf (b : Buddy) : ({ b with p := 0 } : Buddy).tag = b.tag ∧ ({ b with p := 0 } : Buddy).kval = b.kval ∧
      ({ b with p := 0 } : Buddy).next = b.next := ⟨rfl, rfl, rfl⟩
  have hsame := (State.Same.upd (s := s) (r := l) hf).block
  have hprev (r : Nat) : ((s.upd l fun b => { b with p := 0 }).blocks r).prev = (s.blocks r).prev := by
    rw [State.blocks_upd]
    split
    case isTrue h => rw [h]
    case isFalse => rfl
  have hpool := pool_upd sys s l (fun b => (hf b).right.left) L
  have hmerged : Merged (s.upd l fun b => { b with p := 0 }) = Merged s := by
    funext x
    simp only [Merged, State.Apart, hsame]
    rfl
  obtain ⟨L', h', hstep⟩ := (h.upd l hf).merge hpc <| by
    have havail : (s.upd l fun b => { b with p := 0 }).avail = s.avail := rfl
    simpa only [State.Apart, State.Unlinks, hsame, hprev, havail] using hu
  rw [hpool, hmerged] at hstep
  exact ⟨L', h', hstep⟩

theorem xphysfree (h : Rep sys c s L) (hpc : s.pc = .idle) (hmem : (data, size) ∈ s.live) (hc : c → bminsz ≤ size) :
    Steps sys c s L ({ s with live := s.live.erase (data, size) }.xphysfree sys data size) := by
  have ⟨hsize, hmin, hmax, hdata, hkval⟩ := h.live _ hmem
  dsimp only at hsize hmin hmax hdata hkval
  have hne : data ≠ 0 := by
    have := sys.pos
    omega
  rw [State.xphysfree, if_neg hne]
  have hbusy : s.busy sys = sys.liveblock (data, size) ::ₘ { s with live := s.live.erase (data, size) }.busy sys :=
    State.busy_live sys (List.perm_cons_erase hmem) rfl
  refine h.of_step L ?step rfl h.lists (fun _ _ => h.level) (fun x hx => h.live x (List.mem_of_mem_erase hx))
    (List.Sublist.refl _) ⟨hkval ▸ hmin, hkval ▸ hmax⟩ fun hc' => ?nfree
  case step =>
    rw [State.pool, hand_idle hpc, hbusy, Sys.liveblock, ← hkval]
    exact .back
  case nfree =>
    have hround : State.roundsize size = size := if_neg (Nat.not_lt.mpr (hc hc'))
    rw [State.freed, State.freed, hpc, hbusy, Multiset.cons_bind, Multiset.card_add, Buddies.card_units, Sys.liveblock,
      ← two_pow_div hmin, ← hsize, hround]
    change s.nfree + (size / bminsz : Nat) + _ = _
    push_cast
    rw [Int.add_zero, Int.add_assoc]
    rfl

theorem plops_ne (h : Rep sys c s L) (hx : x ∈ s.live) (hy : y ∈ s.plops) :
    sys.block (index x.fst) ≠ sys.block (index y.fst) := by
  intro he
  have hn := h.nodup_units
  rw [Pool.units_eq, Multiset.nodup_add, Multiset.nodup_add] at hn
  have hbusy := hn.left.right.left
  change ((s.busy sys).bind Buddies.units).Nodup at hbusy
  rw [State.busy, Multiset.add_bind, Multiset.nodup_add] at hbusy
  have hlive : sys.liveblock x ∈ (s.live.map sys.liveblock : List Block) := List.mem_map.mpr ⟨x, hx, rfl⟩
  have hplops : sys.piece y ∈ (s.plops.map sys.piece : List Block) := List.mem_map.mpr ⟨y, hy, rfl⟩
  refine Multiset.disjoint_left.mp hbusy.right.right (Multiset.mem_bind.mpr ⟨_, Multiset.mem_coe.mpr hlive, Buddies.start_mem _⟩)
    (Multiset.mem_bind.mpr ⟨_, Multiset.mem_coe.mpr hplops, ?_⟩)
  change sys.block (index x.fst) ∈ _
  exact he ▸ Buddies.start_mem (sys.piece y)

theorem plop (h : Rep sys c s L) (hpc : s.pc = .idle) (hps : s.plops = (a, k) :: ps) :
    Steps sys c s L ({ s with plops := ps }.plop sys a k) := by
  have hmem : (a, k) ∈ s.plops := hps ▸ List.mem_cons_self ..
  have ⟨hle, hmin, hmax, hdvd⟩ := h.plops _ hmem
  dsimp only at hle hmin hmax hdvd
  have hne : a ≠ 0 := by
    have := sys.pos
    omega
  rw [State.plop, State.xphysfree, if_neg hne]
  obtain ⟨r, hr⟩ : ∃ r, sys.block (index a) = r := ⟨_, rfl⟩
  have hpiece : sys.piece (a, k) = (r, k - kmin) := by rw [Sys.piece, hr]
  have hbusy : s.busy sys = (r, k - kmin) ::ₘ State.busy sys { s with plops := ps } :=
    hpiece ▸ State.busy_plops sys rfl hps
  have hplace : s.place r = none := by
    refine h.place_eq_none (.inl ?_) (Buddies.start_mem (r, k - kmin))
    change _ ∈ s.busy sys
    rw [hbusy]
    exact Multiset.mem_cons_self ..
  have hblock (r' : Nat) := State.blocks_upd (s := { s with plops := ps }) r (fun b => { b with kval := k }) r'
  rw [hr]
  refine h.of_step L ?step rfl
    (State.upd_lists (s := { s with plops := ps }) (f := fun b => { b with kval := k }) h.lists hplace fun _ => ⟨rfl, rfl⟩)
    (fun _ _ => h.level) (fun x hx => ?live) (hps ▸ List.sublist_cons_self ..) ?valid fun _ => ?nfree
  case step =>
    rw [State.pool, hand_idle hpc, hbusy]
    have hhand : State.hand { State.upd { s with plops := ps } r fun b => { b with kval := k } with pc := .s1 r (2 ^ k) } =
        {(r, k - kmin)} := by
      rw [State.hand]
      dsimp only
      rw [hblock, if_pos rfl]
    rw [State.pool, hhand]
    exact .back
  case live =>
    refine lives_of_kval (h.live x hx) ?_
    dsimp only
    rw [hblock, if_neg (hr ▸ h.plops_ne hx hmem)]
  case valid =>
    rw [State.Valid]
    dsimp only
    rw [hblock, if_pos rfl]
    exact ⟨hmin, hmax⟩
  case nfree =>
    rw [State.freed, State.freed, hpc, hbusy, Multiset.cons_bind, Multiset.card_add, Buddies.card_units, ← two_pow_div hmin]
    change s.nfree + (2 ^ k / bminsz : Nat) + _ = _
    push_cast
    rw [Int.add_zero, Int.add_assoc]
    rfl

theorem physinit (h : Rep sys c s L) (hps : s.plops = []) (hle : sys.pmstart ≤ addr)
    (hnew : ∀ u ∈ sys.range addr (addr + len), u ∉ s.added) (hs : s.physinit sys addr len = some s') :
    Rep sys c s' L ∧ s'.pool sys L =
      { s.pool sys L with busy := ((iimbchunk addr (addr + len)).map sys.piece : List Block) + s.busy sys } := by
  obtain ⟨b, n, rfl⟩ : ∃ b n, s' = { s with
      base := b, size := n, plops := iimbchunk addr (addr + len), added := s.added ++ sys.range addr (addr + len) } := by
    rw [State.physinit] at hs
    dsimp only at hs
    split at hs
    case isTrue => exact ⟨_, _, (Option.some.inj hs).symm⟩
    case isFalse =>
      split at hs
      case isTrue => contradiction
      case isFalse =>
        split at hs
        case isTrue => exact ⟨_, _, (Option.some.inj hs).symm⟩
        case isFalse => exact ⟨_, _, (Option.some.inj hs).symm⟩
  have hpool : State.pool sys { s with
      base := b, size := n, plops := iimbchunk addr (addr + len), added := s.added ++ sys.range addr (addr + len) } L =
        { s.pool sys L with busy := ((iimbchunk addr (addr + len)).map sys.piece : List Block) + s.busy sys } := by
    have hbusy : s.busy sys = (s.live.map sys.liveblock : List Block) := by
      rw [State.busy, hps, List.map_nil, Multiset.coe_nil, add_zero]
    rw [hbusy, Multiset.add_comm]
    rfl
  refine ⟨⟨h.lists, h.level, h.live, fun x hx => ?_, h.call, ?_, ?_, fun hc => ?_⟩, hpool⟩
  · obtain ⟨ha, hrest⟩ := iimbchunk_mem hx
    exact ⟨hle.trans ha, hrest⟩
  · have hunits := h.units
    rw [Pool.units_eq] at hunits
    rw [hpool, Pool.units_eq, Multiset.add_bind, iimbchunk_units sys hle, ← Multiset.coe_add, ← hunits]
    dsimp only [State.pool]
    abel
  · refine List.nodup_append.mpr ⟨h.nodup, List.nodup_range' .., fun u hu v hv he => ?_⟩
    exact hnew v hv (he ▸ hu)
  · have hspare := (congrArg Pool.spare hpool).trans (Pool.spare_busy ..)
    rw [hspare]
    exact h.nfree hc

theorem run (h : Rep sys c s L) (hu : Unlinking sys s) (hs : s.run sys = some s') : Steps sys c s L s' := by
  rw [State.run] at hs
  split at hs
  case h_1 hpc =>
    split at hs
    case h_1 => contradiction
    case h_2 a k ps hps => exact Option.some.inj hs ▸ h.plop hpc hps
  case h_2 l size hpc => exact Option.some.inj hs ▸ h.s1 hpc (hu l size hpc)
  case h_3 hpc => exact h.split hpc hs

theorem step (h : Rep sys c s L) (hu : act = .run → Unlinking sys s)
    (hc : c → ∀ data size, act = .xphysfree data size → bminsz ≤ size) (hs : step sys s act = some s') :
    Steps sys c s L s' ∨ ∃ addr len, act = .physinit addr len ∧ Rep sys c s' L ∧ s'.pool sys L =
      { s.pool sys L with busy := ((iimbchunk addr (addr + len)).map sys.piece : List Block) + s.busy sys } := by
  cases act
  case physinit addr len =>
    obtain ⟨⟨_, hps, _, hle, hnew⟩, hs⟩ := Option.ite_none_right_eq_some.mp hs
    exact .inr ⟨addr, len, rfl, h.physinit hps hle hnew hs⟩
  case xphysalloc size tag =>
    obtain ⟨⟨hpc, _⟩, hs⟩ := Option.ite_none_right_eq_some.mp hs
    exact .inl <| Option.some.inj hs ▸ h.xphysalloc hpc size tag
  case xphysfree data size =>
    obtain ⟨⟨hpc, _, hmem⟩, hs⟩ := Option.ite_none_right_eq_some.mp hs
    exact .inl <| Option.some.inj hs ▸ h.xphysfree hpc hmem fun hc' => hc hc' data size rfl
  case run => exact .inl <| h.run (hu rfl) hs

theorem pool_created (h : Created s) : s.pool sys (fun _ => []) = ⟨0, 0, 0⟩ := by
  have hfree : freeblocks (fun _ => []) = 0 := Finset.sum_eq_zero fun _ _ => rfl
  have hbusy : s.busy sys = 0 := by
    rw [State.busy, h.live, h.plops]
    rfl
  rw [State.pool, hfree, hbusy, hand_idle h.pc]

theorem created (h : Created s) : Rep sys c s fun _ => [] where
  lists := {
    hd k      := by rw [State.head, h.avail, sys.node_zero]; rfl
    next _    := trivial
    nodup _   := .nil
    mem {b i} := by
      rw [State.place_eq_some, h.blocks]
      exact ⟨by simp, by simp⟩ }
  level   := by simp
  live    := by rw [h.live]; simp
  plops   := by rw [h.plops]; simp
  call    := by rw [State.Valid, h.pc]; trivial
  units   := by rw [pool_created h, h.added]; rfl
  nodup   := h.added ▸ .nil
  nfree _ := by rw [pool_created h, h.nfree, State.freed, h.pc]; rfl

end Rep

end K10
