import Mathlib.Data.Nat.Bitwise
import Nix.Lib.Buddies
import Mathlib.Algebra.BigOperators.Group.Finset.Piecewise
import Mathlib.Algebra.Order.BigOperators.Group.Finset
import Mathlib.Order.Interval.Finset.Nat
import Nix.K10.PhysallocLists

namespace K10

-- The blocks `ps` follow each other from `a` to `e`, each at a multiple of its size.
def Spans (e : Nat) : List (Nat × Nat) → Nat → Prop
  | [], a      => a = e
  | x :: ps, a => x.fst = a ∧ kmin ≤ x.snd ∧ x.snd ≤ kmax ∧ 2 ^ x.snd ∣ a ∧ Spans e ps (a + 2 ^ x.snd)

namespace Spans

theorem append (h : Spans a' ps a) (h' : Spans e qs a') : Spans e (ps ++ qs) a := by
  induction ps generalizing a
  case nil => exact h ▸ h'
  case cons x ps ih => exact ⟨h.left, h.right.left, h.right.right.left, h.right.right.right.left, ih h.right.right.right.right⟩

theorem mem (h : Spans e ps a) (hx : x ∈ ps) : a ≤ x.fst ∧ kmin ≤ x.snd ∧ x.snd ≤ kmax ∧ 2 ^ x.snd ∣ x.fst := by
  induction ps generalizing a
  case nil => contradiction
  case cons y ps ih =>
    obtain ⟨rfl, hmin, hmax, hdvd, h⟩ := h
    rcases List.mem_cons.mp hx with rfl | hx
    · exact ⟨le_rfl, hmin, hmax, hdvd⟩
    · have := ih h hx
      exact ⟨by omega, this.right⟩

theorem le (h : Spans e ps a) : a ≤ e := by
  induction ps generalizing a
  case nil => exact Nat.le_of_eq h
  case cons x ps ih => exact (Nat.le_add_right ..).trans <| ih h.right.right.right.right

end Spans

theorem bminsz_dvd (hk : kmin ≤ k) : bminsz ∣ 2 ^ k :=
  Nat.pow_dvd_pow 2 hk

theorem bminsz_pos : 0 < bminsz :=
  Nat.two_pow_pos _

theorem up_spans (hk : kmin ≤ k) (hn : k + n = kmax) (ha : 2 ^ k ∣ a) :
    Spans (up e n k a).snd.fst (up e n k a).fst a ∧ 2 ^ (up e n k a).snd.snd ∣ (up e n k a).snd.fst ∧
      kmin ≤ (up e n k a).snd.snd ∧ (up e n k a).snd.snd ≤ kmax ∧ (a ≤ e → (up e n k a).snd.fst ≤ e) := by
  induction n generalizing k a
  case zero => exact ⟨rfl, ha, hk, by change k ≤ kmax; omega, id⟩
  case succ n ih =>
    rw [up]
    split
    case isTrue hlt =>
      have hbit : a &&& 2 ^ k = 2 ^ k * (a / 2 ^ k % 2) := by
        rw [Nat.and_two_pow, Nat.testBit_eq_decide_div_mod_eq, Nat.mul_comm]
        rcases Nat.mod_two_eq_zero_or_one (a / 2 ^ k) with he | he <;> simp [he]
      obtain ⟨q, rfl⟩ := ha
      rw [Nat.mul_div_cancel_left _ (Nat.two_pow_pos k)] at hbit
      rw [hbit]
      split
      case isTrue hodd =>
        have hodd : q % 2 = 1 := by
          by_contra he
          exact hodd (by rw [show q % 2 = 0 by omega, Nat.mul_zero])
        have hnext : 2 ^ (k + 1) ∣ 2 ^ k * q + 2 ^ k := by
          rw [← Nat.mul_succ, Nat.pow_succ]
          exact Nat.mul_dvd_mul_left _ <| Nat.dvd_of_mod_eq_zero (by omega)
        obtain ⟨hs, hdvd, hmin, hmax, hle⟩ := ih (by omega) (by omega) hnext
        exact ⟨⟨rfl, hk, by omega, Nat.dvd_mul_right .., hs⟩, hdvd, hmin, hmax, fun _ => hle (by omega)⟩
      case isFalse heven =>
        have heven : q % 2 = 0 := by
          rcases Nat.mod_two_eq_zero_or_one q with he | he
          · exact he
          · rw [he, Nat.mul_one] at heven
            exact absurd (Nat.two_pow_pos k) (by omega)
        refine ih (by omega) (by omega) ?_
        rw [Nat.pow_succ]
        exact Nat.mul_dvd_mul_left _ <| Nat.dvd_of_mod_eq_zero heven
    case isFalse => exact ⟨rfl, ha, hk, by change k ≤ kmax; omega, id⟩

theorem level_spans (hmin : kmin ≤ k) (hmax : k ≤ kmax) (ha : 2 ^ k ∣ a) (hle : a ≤ e) (hn : e < a + 2 ^ k * (n + 1)) :
    Spans (level e k n a).snd (level e k n a).fst a ∧ 2 ^ k ∣ (level e k n a).snd ∧
      (level e k n a).snd ≤ e ∧ e < (level e k n a).snd + 2 ^ k := by
  induction n generalizing a
  case zero => exact ⟨rfl, ha, hle, by simpa [level] using hn⟩
  case succ n ih =>
    rw [level]
    split
    case isTrue hlt =>
      have hn' : e < a + 2 ^ k + 2 ^ k * (n + 1) := by
        rw [Nat.mul_succ] at hn
        omega
      have ⟨hs, hrest⟩ := ih (Nat.dvd_add ha (Nat.dvd_refl _)) hlt hn'
      exact ⟨⟨rfl, hmin, hmax, ha, hs⟩, hrest⟩
    case isFalse hge => exact ⟨rfl, ha, hle, by dsimp only; omega⟩

theorem down_spans (hmax : k ≤ kmax + 1) (ha : 2 ^ k ∣ a) (hab : bminsz ∣ a) (he : bminsz ∣ e) (hle : a ≤ e)
    (hlt : e < a + 2 ^ k) : Spans e (down e k a) a := by
  have hend (hk : k ≤ kmin) : a = e := by
    have hdvd := Nat.dvd_sub he hab
    have hsmall : e - a < bminsz := by
      have : 2 ^ k ≤ bminsz := Nat.pow_le_pow_right (by decide) hk
      omega
    have := Nat.eq_zero_of_dvd_of_lt hdvd hsmall
    omega
  induction k generalizing a
  case zero => exact hend (by omega)
  case succ k ih =>
    have hpow : 2 ^ (k + 1) = 2 ^ k + 2 ^ k := by rw [Nat.pow_succ]; omega
    have hak : 2 ^ k ∣ a := (Nat.pow_dvd_pow 2 (by omega)).trans ha
    rw [down]
    split
    case isTrue hae =>
      have hk : kmin ≤ k := by
        by_contra hk
        have := hend (by omega)
        omega
      have hsmall {a' : Nat} (hk' : k ≤ kmin) (hab' : bminsz ∣ a') (hle' : a' ≤ e) (hlt' : e < a' + 2 ^ k) : a' = e := by
        have hpow' : 2 ^ k ≤ bminsz := Nat.pow_le_pow_right (by decide) hk'
        have := Nat.eq_zero_of_dvd_of_lt (Nat.dvd_sub he hab') (by omega)
        omega
      split
      case isTrue hfit =>
        have hab' : bminsz ∣ a + 2 ^ k := Nat.dvd_add hab (bminsz_dvd hk)
        have hs := ih (by omega) (Nat.dvd_add hak (Nat.dvd_refl _)) hab' hfit (by omega) fun hk' =>
          hsmall hk' hab' hfit (by omega)
        exact ⟨rfl, hk, by dsimp only; omega, hak, hs⟩
      case isFalse hnot => exact ih (by omega) hak hab hle (by omega) fun hk' => hsmall hk' hab hle (by omega)
    case isFalse hae => exact Nat.le_antisymm hle (by omega)

theorem roundup_dvd (a : Nat) : bminsz ∣ roundup a :=
  Nat.dvd_mul_left ..

theorem rounddn_dvd (e : Nat) : bminsz ∣ rounddn e :=
  Nat.dvd_mul_left ..

theorem loops_spans (hk : kmin ≤ k) (hn : k + n = kmax) (ha : 2 ^ k ∣ a) (he : bminsz ∣ e) (hle : a ≤ e) :
    Spans e (loops e n k a) a := by
  obtain ⟨hs, hdvd, hmin, hmax, hle'⟩ := up_spans (e := e) hk hn ha
  rw [loops]
  generalize up e n k a = r at hs hdvd hmin hmax hle'
  obtain ⟨ps, a', k'⟩ := r
  have hlt := Nat.lt_mul_div_succ (e - a') (Nat.two_pow_pos k')
  obtain ⟨hs', hdvd', hle'', hlt'⟩ :=
    level_spans (a := a') hmin hmax hdvd (hle' hle) (Nat.sub_lt_iff_lt_add' (hle' hle) |>.mp hlt)
  exact (hs.append hs').append <|
    down_spans (Nat.le_succ_of_le hmax) hdvd' ((bminsz_dvd hmin).trans hdvd') he hle'' hlt'

theorem iimbchunk_spans (h : roundup a ≤ rounddn e) : Spans (rounddn e) (iimbchunk a e) (roundup a) :=
  loops_spans le_rfl rfl (roundup_dvd a) (rounddn_dvd e) h

theorem loops_nil (h : e < a) : loops e n k a = [] := by
  have hnot (k : Nat) : ¬a + 2 ^ k ≤ e := fun hle => absurd ((Nat.le_add_right ..).trans hle) (Nat.not_le.mpr h)
  have hup : up e n k a = ([], a, k) := by
    cases n
    case zero => rfl
    case succ => rw [up, if_neg fun hlt => hnot k (Nat.le_of_lt hlt)]
  have hlevel (n : Nat) : level e k n a = ([], a) := by
    cases n
    case zero => rfl
    case succ => rw [level, if_neg (hnot k)]
  have hdown : down e k a = [] := by
    cases k
    case zero => rfl
    case succ => rw [down, if_neg (Nat.not_lt.mpr (Nat.le_of_lt h))]
  rw [loops, hup]
  dsimp only
  rw [hlevel, hdown]
  rfl

theorem le_roundup (a : Nat) : a ≤ roundup a := by
  have := Nat.lt_div_mul_add (a := a + (bminsz - 1)) bminsz_pos
  have := bminsz_pos
  rw [roundup]
  omega

namespace Sys

variable (sys : Sys)

theorem bminsz_dvd : bminsz ∣ sys.pmstart :=
  (K10.bminsz_dvd (by decide)).trans sys.mult

theorem block_addr (r : Nat) : sys.block (index (sys.pmstart + bminsz * r)) = r := by
  rw [block, index, Nat.add_mul_div_left _ _ bminsz_pos, index, Nat.add_sub_cancel_left]

theorem addr_block (hle : sys.pmstart ≤ a) (ha : bminsz ∣ a) : sys.pmstart + bminsz * sys.block (index a) = a := by
  obtain ⟨b, rfl⟩ := ha
  obtain ⟨m, hm⟩ := sys.bminsz_dvd
  rw [block, index, index, hm, Nat.mul_div_cancel_left _ bminsz_pos, Nat.mul_div_cancel_left _ bminsz_pos, ← Nat.mul_add]
  have := Nat.le_of_mul_le_mul_left (hm ▸ hle) bminsz_pos
  rw [Nat.add_sub_cancel' this]

-- A block as it is in the array.
def piece (x : Nat × Nat) : Buddies.Block :=
  (sys.block (index x.fst), x.snd - kmin)

end Sys

theorem two_pow_eq (hk : kmin ≤ k) : 2 ^ k = bminsz * 2 ^ (k - kmin) := by
  rw [bminsz, ← Nat.pow_add, Nat.add_sub_cancel' hk]

theorem two_pow_div (hk : kmin ≤ k) : 2 ^ k / bminsz = 2 ^ (k - kmin) := by
  rw [two_pow_eq hk, Nat.mul_div_cancel_left _ bminsz_pos]

theorem buddy_eq (hk : kmin ≤ k) (l : Nat) : State.buddy l k = Buddies.buddy l (k - kmin) := by
  rw [State.buddy, Buddies.buddy, two_pow_div hk]

theorem Spans.units (sys : Sys) (h : Spans e ps a) (hle : sys.pmstart ≤ a) :
    ((ps.map sys.piece : Multiset Buddies.Block)).bind Buddies.units =
      List.range' (sys.block (index a)) (index e - index a) := by
  induction ps generalizing a
  case nil =>
    obtain rfl : a = e := h
    simp
  case cons x ps ih =>
    obtain ⟨a', k⟩ := x
    obtain ⟨rfl, hmin, hmax, hdvd, h⟩ := h
    dsimp only at hmin hdvd h hle ⊢
    have hindex : index (a' + 2 ^ k) = index a' + 2 ^ (k - kmin) := by
      rw [index, two_pow_eq hmin, Nat.add_mul_div_left _ _ bminsz_pos, index]
    have hlast : index (a' + 2 ^ k) ≤ index e := Nat.div_le_div_right h.le
    have hfirst : index sys.pmstart ≤ index a' := Nat.div_le_div_right hle
    have hblock : sys.block (index (a' + 2 ^ k)) = sys.block (index a') + 2 ^ (k - kmin) := by
      rw [hindex, Sys.block, Nat.sub_add_comm hfirst, Sys.block]
    have hlen : index e - index a' = 2 ^ (k - kmin) + (index e - index (a' + 2 ^ k)) := by
      rw [hindex] at hlast ⊢
      generalize 2 ^ (k - kmin) = n at hlast ⊢
      omega
    rw [List.map_cons, ← Multiset.cons_coe, Multiset.cons_bind, ih h (Nat.le_add_right_of_le hle), hblock, hlen, ← List.range'_append_1]
    rfl

theorem iimbchunk_units (sys : Sys) (hle : sys.pmstart ≤ a) :
    (((iimbchunk a e).map sys.piece : List Buddies.Block) : Multiset Buddies.Block).bind Buddies.units = sys.range a e := by
  by_cases h : roundup a ≤ rounddn e
  case pos => exact (iimbchunk_spans h).units sys (hle.trans (le_roundup a))
  case neg =>
    have hnil : iimbchunk a e = [] := loops_nil (Nat.not_le.mp h)
    have hindex : index (rounddn e) - index (roundup a) = 0 :=
      Nat.sub_eq_zero_of_le <| Nat.div_le_div_right <| Nat.le_of_lt <| Nat.not_le.mp h
    rw [hnil, Sys.range, hindex]
    rfl

theorem iimbchunk_mem (hx : x ∈ iimbchunk a e) : a ≤ x.fst ∧ kmin ≤ x.snd ∧ x.snd ≤ kmax ∧ 2 ^ x.snd ∣ x.fst := by
  by_cases h : roundup a ≤ rounddn e
  case pos =>
    have ⟨hle, hrest⟩ := (iimbchunk_spans h).mem hx
    exact ⟨(le_roundup a).trans hle, hrest⟩
  case neg =>
    have hnil : iimbchunk a e = [] := loops_nil (Nat.not_le.mp h)
    rw [hnil] at hx
    contradiction

theorem two_pow_shiftRight (k n : Nat) : 2 ^ k >>> n = if n ≤ k then 2 ^ (k - n) else 0 := by
  rw [Nat.shiftRight_eq_div_pow]
  split
  case isTrue h => exact Nat.pow_div h (by decide)
  case isFalse h => exact Nat.div_eq_of_lt <| Nat.pow_lt_pow_right (by decide) (by omega)

theorem lg2floor_two_pow (k : Nat) : lg2floor (2 ^ k) = k := by
  have hlog (n : Nat) : lg2table (2 ^ n) = n := Nat.log2_two_pow
  have hpos (n : Nat) : 2 ^ n ≠ 0 := Nat.pos_iff_ne_zero.mp (Nat.two_pow_pos n)
  have hshift {n m : Nat} (h : 2 ^ k >>> n ≠ 0) : m + lg2table (2 ^ k >>> n) = m + (k - n) ∧ n ≤ k := by
    rw [two_pow_shiftRight] at h ⊢
    split at h
    case isTrue hle => rw [if_pos hle, hlog]; exact ⟨rfl, hle⟩
    case isFalse => contradiction
  simp only [lg2floor, ← Nat.shiftRight_add]
  split
  case isTrue h =>
    split
    case isTrue h' => have := hshift (m := 56) h'; omega
    case isFalse => have := hshift (m := 48) h; omega
  case isFalse =>
    split
    case isTrue h =>
      split
      case isTrue h' => have := hshift (m := 40) h'; omega
      case isFalse => have := hshift (m := 32) h; omega
    case isFalse =>
      split
      case isTrue h =>
        split
        case isTrue h' => have := hshift (m := 24) h'; omega
        case isFalse => have := hshift (m := 16) h; omega
      case isFalse =>
        split
        case isTrue h => have := hshift (m := 8) h; omega
        case isFalse => exact hlog k

theorem roundsize_eq (hp : IsPowerOf2 (State.roundsize size)) :
    State.roundsize size = 2 ^ lg2floor (State.roundsize size) ∧ kmin ≤ lg2floor (State.roundsize size) := by
  obtain ⟨k, hk⟩ := Nat.ne_zero_and_sub_one_eq_zero_iff_isPowerOfTwo.mp hp
  have hle : bminsz ≤ State.roundsize size := by
    rw [State.roundsize]
    split
    case isTrue => exact le_rfl
    case isFalse h => exact Nat.not_lt.mp h
  rw [hk, lg2floor_two_pow]
  exact ⟨rfl, (Nat.pow_le_pow_iff_right (by decide)).mp (hk ▸ hle)⟩

open Buddies (Block Pool)

-- The block for a request.
def Sys.liveblock (sys : Sys) (x : Nat × Nat) : Block :=
  (sys.block (index x.fst), lg2floor (State.roundsize x.snd) - kmin)

-- The blocks on the list of a size.
def sized (k : Nat) (l : List Nat) : Multiset Block :=
  (l.map fun r => (r, k - kmin) : List Block)

def freeblocks (L : Nat → List Nat) : Multiset Block :=
  ∑ k ∈ Finset.Icc kmin kmax, sized k (L k)

section

variable {L : Nat → List Nat}

theorem sized_cons (k r : Nat) (l : List Nat) : sized k (r :: l) = (r, k - kmin) ::ₘ sized k l := by
  rw [sized, List.map_cons, ← Multiset.cons_coe, sized]

theorem freeblocks_update (hk : kmin ≤ k ∧ k ≤ kmax) (l : List Nat) :
    freeblocks (Function.update L k l) = sized k l + ∑ j ∈ Finset.Icc kmin kmax \ {k}, sized j (L j) := by
  rw [freeblocks, ← Finset.sum_update_of_mem (Finset.mem_Icc.mpr hk)]
  exact Finset.sum_congr rfl fun j _ => Function.apply_update sized L k l j

theorem freeblocks_push (hk : kmin ≤ k ∧ k ≤ kmax) (r : Nat) :
    freeblocks (Function.update L k (r :: L k)) = (r, k - kmin) ::ₘ freeblocks L := by
  have h := freeblocks_update (L := L) hk (L k)
  rw [Function.update_eq_self] at h
  rw [freeblocks_update hk, h, sized_cons, Multiset.cons_add]

theorem freeblocks_erase (hk : kmin ≤ k ∧ k ≤ kmax) (hr : r ∈ L k) :
    freeblocks L = (r, k - kmin) ::ₘ freeblocks (Function.update L k ((L k).erase r)) := by
  have h := freeblocks_update (L := L) hk (L k)
  have hperm : sized k (L k) = sized k (r :: (L k).erase r) :=
    Multiset.coe_eq_coe.mpr <| (List.perm_cons_erase hr).map _
  rw [Function.update_eq_self] at h
  rw [h, freeblocks_update hk, hperm, sized_cons, Multiset.cons_add]

theorem mem_freeblocks : (r, o) ∈ freeblocks L ↔ o + kmin ≤ kmax ∧ r ∈ L (o + kmin) := by
  rw [freeblocks, Multiset.mem_sum]
  constructor
  · rintro ⟨k, hk, hr⟩
    obtain ⟨r', hr', he⟩ := List.mem_map.mp (Multiset.mem_coe.mp hr)
    obtain ⟨rfl, rfl⟩ := Prod.mk.inj he
    rw [Finset.mem_Icc] at hk
    rw [Nat.sub_add_cancel hk.left]
    exact ⟨hk.right, hr'⟩
  · intro ⟨ho, hr⟩
    refine ⟨o + kmin, Finset.mem_Icc.mpr ⟨Nat.le_add_left .., ho⟩, Multiset.mem_coe.mpr <| List.mem_map.mpr ⟨r, hr, ?_⟩⟩
    rw [Nat.add_sub_cancel]

end

namespace State

variable (sys : Sys) (s : State)

-- The block that a call works on.
def hand : Multiset Block :=
  match s.pc with
  | .idle           => 0
  | .s1 l _         => {(l, (s.blocks l).kval - kmin)}
  | .split l j _ .. => {(l, j - kmin)}

def busy : Multiset Block :=
  (s.live.map sys.liveblock : List Block) + (s.plops.map sys.piece : List Block)

def pool (L : Nat → List Nat) : Pool where
  free := freeblocks L
  busy := s.busy sys
  hand := s.hand

theorem busy_eq {s s' : State} (hl : s'.live = s.live) (hp : s'.plops = s.plops) : s'.busy sys = s.busy sys := by
  rw [busy, busy, hl, hp]

theorem busy_live {s s' : State} (hl : s'.live.Perm (x :: s.live)) (hp : s'.plops = s.plops) :
    s'.busy sys = sys.liveblock x ::ₘ s.busy sys := by
  have hperm := Multiset.coe_eq_coe.mpr <| hl.map sys.liveblock
  rw [busy, hp, hperm, List.map_cons, ← Multiset.cons_coe, Multiset.cons_add, busy]

theorem busy_plops {s s' : State} (hl : s'.live = s.live) (hp : s'.plops = x :: s.plops) :
    s'.busy sys = sys.piece x ::ₘ s.busy sys := by
  rw [busy, hl, hp, List.map_cons, ← Multiset.cons_coe, Multiset.add_cons, busy]

-- What `nfree` is still short of.
def freed : Int :=
  match s.pc with
  | .s1 _ size => (size / bminsz : Nat)
  | _          => 0

-- The call is about a block of one of the sizes there are.
def Valid : Prop :=
  match s.pc with
  | .idle             => True
  | .s1 l _           => kmin ≤ (s.blocks l).kval ∧ (s.blocks l).kval ≤ kmax
  | .split l j k size _ => kmin ≤ k ∧ k ≤ j ∧ j ≤ kmax ∧ (s.blocks l).kval = k ∧ roundsize size = 2 ^ k

-- An allocation is at the place of its block, and the block has its size.
def Lives (x : Nat × Nat) : Prop :=
  let k := lg2floor (roundsize x.snd)
  roundsize x.snd = 2 ^ k ∧ kmin ≤ k ∧ k ≤ kmax ∧ sys.pmstart + bminsz * sys.block (index x.fst) = x.fst ∧
    (s.blocks (sys.block (index x.fst))).kval = k

end State

-- What holds of every state, with `nfree` if `c` holds.
structure Rep (sys : Sys) (c : Prop) (s : State) (L : Nat → List Nat) : Prop where
  lists : Stacks (s.head sys) (s.succ sys) s.place L
  level : ∀ {k r}, r ∈ L k → kmin ≤ k ∧ k ≤ kmax
  live  : ∀ x ∈ s.live, s.Lives sys x
  plops : ∀ x ∈ s.plops, sys.pmstart ≤ x.fst ∧ kmin ≤ x.snd ∧ x.snd ≤ kmax ∧ 2 ^ x.snd ∣ x.fst
  call  : s.Valid
  units : (s.pool sys L).units = s.added
  nodup : s.added.Nodup
  nfree : c → s.nfree + s.freed = (s.pool sys L).spare

namespace Rep

variable {sys : Sys} {s s' : State} {L : Nat → List Nat}

theorem nodup_units (h : Rep sys c s L) : (s.pool sys L).units.Nodup := by
  rw [h.units]
  exact Multiset.coe_nodup.mpr h.nodup

theorem mem_free (h : Rep sys c s L) : (r, o) ∈ (s.pool sys L).free ↔ r ∈ L (o + kmin) := by
  rw [State.pool, mem_freeblocks]
  exact and_iff_right_of_imp fun hr => (h.level hr).right

theorem free_of_place (h : Rep sys c s L) (hp : s.place r = some k) : (r, k - kmin) ∈ (s.pool sys L).free := by
  have hr := h.lists.mem.mpr hp
  rwa [h.mem_free, Nat.sub_add_cancel (h.level hr).left]

theorem place_eq_none (h : Rep sys c s L) {x : Block} (hx : x ∈ (s.pool sys L).busy ∨ x ∈ (s.pool sys L).hand)
    (hu : u ∈ Buddies.units x) : s.place u = none := by
  by_contra hp
  obtain ⟨k, hp⟩ := Option.ne_none_iff_exists'.mp hp
  exact Pool.not_mem_free h.nodup_units hx hu (h.free_of_place hp) (Buddies.start_mem (u, k - kmin))

-- No allocation starts in a free block or in the one that the call works on.
theorem live_ne (h : Rep sys c s L) {x : Nat × Nat} {y : Block} (hx : x ∈ s.live)
    (hy : y ∈ (s.pool sys L).free ∨ y ∈ (s.pool sys L).hand) (hu : u ∈ Buddies.units y) :
    sys.block (index x.fst) ≠ u := by
  rintro rfl
  have hbusy : sys.liveblock x ∈ (s.pool sys L).busy :=
    Multiset.mem_add.mpr <| .inl <| Multiset.mem_coe.mpr <| List.mem_map.mpr ⟨x, hx, rfl⟩
  exact Pool.not_mem_busy h.nodup_units hy hu hbusy (Buddies.start_mem (sys.liveblock x))

theorem lives_of_kval {x : Nat × Nat} (h : s.Lives sys x)
    (hk : (s'.blocks (sys.block (index x.fst))).kval = (s.blocks (sys.block (index x.fst))).kval) : s'.Lives sys x :=
  ⟨h.left, h.right.left, h.right.right.left, h.right.right.right.left, hk.trans h.right.right.right.right⟩

end Rep

end K10
