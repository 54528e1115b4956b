import Mathlib.Data.Multiset.Bind
import Mathlib.Data.Nat.Order.Lemmas
import Mathlib.Tactic.Abel
import Mathlib.Algebra.Order.Ring.Int

-- Pools of blocks whose sizes are powers of two. A block is split into two halves, and two blocks are merged
-- when each is the buddy of the other.
namespace Buddies

-- Where a block starts, and the order of its size.
abbrev Block := Nat × Nat

def units (x : Block) : Multiset Nat :=
  List.range' x.fst (2 ^ x.snd)

theorem mem_units : u ∈ units (r, o) ↔ r ≤ u ∧ u < r + 2 ^ o := by
  simp [units, List.mem_range'_1]

theorem start_mem (x : Block) : x.fst ∈ units x :=
  mem_units.mpr ⟨le_rfl, Nat.lt_add_of_pos_right (Nat.two_pow_pos _)⟩

theorem card_units (x : Block) : (units x).card = 2 ^ x.snd := by
  simp [units]

theorem units_split (r o : Nat) : units (r, o + 1) = units (r, o) + units (r + 2 ^ o, o) := by
  rw [units, units, units, Multiset.coe_add, List.range'_append_1, ← Nat.two_mul, ← Nat.pow_succ']

-- The block that is told by the parity of the place.
def buddy (r o : Nat) : Nat :=
  if r / 2 ^ o % 2 = 1 then r - 2 ^ o else r + 2 ^ o

theorem le_of_odd (h : r / 2 ^ o % 2 = 1) : 2 ^ o ≤ r := by
  by_contra hlt
  rw [Nat.div_eq_of_lt (by omega)] at h
  contradiction

theorem buddy_ne (r o : Nat) : buddy r o ≠ r := by
  have := Nat.two_pow_pos o
  rw [buddy]
  split
  case isTrue h =>
    have := le_of_odd h
    omega
  case isFalse => omega

theorem units_merge (r o : Nat) : units (r, o) + units (buddy r o, o) = units (min r (buddy r o), o + 1) := by
  rw [buddy]
  split
  case isTrue h =>
    rw [Nat.min_eq_right (Nat.sub_le ..), units_split, Nat.sub_add_cancel (le_of_odd h), add_comm]
  case isFalse => rw [Nat.min_eq_left (Nat.le_add_right ..), units_split]

section Nodup

variable {s : Multiset Block} {x y : Block}

theorem eq_of_mem_units (h : (s.bind units).Nodup) (hx : x ∈ s) (hy : y ∈ s) (hux : u ∈ units x) (huy : u ∈ units y) :
    x = y := by
  by_contra hne
  have ⟨s', hs⟩ := Multiset.exists_cons_of_mem hx
  have hy' : y ∈ s' := (Multiset.mem_cons.mp (hs ▸ hy)).resolve_left fun he => hne he.symm
  rw [hs, Multiset.cons_bind, Multiset.nodup_add] at h
  exact Multiset.disjoint_left.mp h.right.right hux <| Multiset.mem_bind.mpr ⟨y, hy', huy⟩

end Nodup

-- Where a block starts is a multiple of its size, as far as the order `k`.
def Aligned (c k : Nat) (x : Block) : Prop :=
  2 ^ min x.snd k ∣ x.fst + c

namespace Aligned

theorem split (h : Aligned c k (r, o + 1)) : Aligned c k (r, o) ∧ Aligned c k (r + 2 ^ o, o) := by
  have hr : 2 ^ min o k ∣ r + c := (Nat.pow_dvd_pow 2 <| show min o k ≤ min (o + 1) k by omega).trans h
  refine ⟨hr, ?_⟩
  have heq : r + 2 ^ o + c = r + c + 2 ^ o := by omega
  rw [Aligned, heq]
  exact Nat.dvd_add hr <| Nat.pow_dvd_pow 2 <| Nat.min_le_left ..

theorem dvd (h : Aligned 0 k (r, o)) (ho : n ≤ o) (hk : n ≤ k) : 2 ^ n ∣ r :=
  (Nat.pow_dvd_pow 2 <| Nat.le_min.mpr ⟨ho, hk⟩).trans h

end Aligned

theorem buddy_dvd (h : 2 ^ n ∣ r) (hn : n ≤ o) : 2 ^ n ∣ buddy r o := by
  have ho : 2 ^ n ∣ 2 ^ o := Nat.pow_dvd_pow 2 hn
  rw [buddy]
  split
  case isTrue => exact Nat.dvd_sub h ho
  case isFalse => exact Nat.dvd_add h ho

theorem min_dvd (h : 2 ^ o ∣ r) : 2 ^ (o + 1) ∣ min r (buddy r o) := by
  obtain ⟨q, rfl⟩ := h
  have hpos := Nat.two_pow_pos o
  rw [buddy, Nat.mul_div_cancel_left _ hpos]
  split
  case isTrue hodd =>
    have heq : 2 ^ o * q - 2 ^ o = 2 ^ o * (q - 1) := (Nat.mul_sub_one ..).symm
    rw [Nat.min_eq_right (Nat.sub_le ..), heq, Nat.pow_succ]
    exact Nat.mul_dvd_mul_left _ <| Nat.dvd_of_mod_eq_zero (by omega)
  case isFalse heven =>
    rw [Nat.min_eq_left (Nat.le_add_right ..), Nat.pow_succ]
    exact Nat.mul_dvd_mul_left _ <| Nat.dvd_of_mod_eq_zero (by omega)

theorem buddy_of_dvd (h : 2 ^ (o + 1) ∣ r) : buddy r o = r + 2 ^ o ∧ buddy (r + 2 ^ o) o = r := by
  obtain ⟨q, rfl⟩ := h
  have hpos := Nat.two_pow_pos o
  have heven : 2 ^ (o + 1) * q / 2 ^ o = 2 * q := by
    rw [Nat.pow_succ, Nat.mul_assoc, Nat.mul_div_cancel_left _ hpos]
  rw [buddy, buddy, Nat.add_div_right _ hpos, heven, if_neg (by omega), if_pos (by omega), Nat.add_sub_cancel]
  exact ⟨rfl, rfl⟩

theorem buddy_buddy (h : 2 ^ o ∣ r) : buddy (buddy r o) o = r := by
  have hdvd := min_dvd h
  by_cases hodd : r / 2 ^ o % 2 = 1
  case pos =>
    have heq : buddy r o = r - 2 ^ o := if_pos hodd
    rw [heq, Nat.min_eq_right (Nat.sub_le ..)] at hdvd
    have := (buddy_of_dvd hdvd).left
    rwa [Nat.sub_add_cancel (le_of_odd hodd), ← heq] at this
  case neg =>
    have heq : buddy r o = r + 2 ^ o := if_neg hodd
    rw [heq, Nat.min_eq_left (Nat.le_add_right ..)] at hdvd
    rw [heq]
    exact (buddy_of_dvd hdvd).right

theorem Aligned.merge (h : Aligned 0 k (r, o)) : Aligned 0 k (min r (buddy r o), o + 1) := by
  rw [Aligned]
  by_cases ho : o < k
  case pos =>
    rw [Nat.min_eq_left (show o + 1 ≤ k by omega)]
    exact min_dvd <| h.dvd le_rfl (by omega)
  case neg =>
    have hr := h.dvd (show k ≤ o by omega) le_rfl
    rw [Nat.min_eq_right (show k ≤ o + 1 by omega), Nat.add_zero]
    rcases min_choice r (buddy r o) with he | he <;> rw [he]
    · exact hr
    · exact buddy_dvd hr (by omega)

-- The blocks that are free, those that are in use, and the one that is being split or merged.
structure Pool where
  free : Multiset Block
  busy : Multiset Block
  hand : Multiset Block

namespace Pool

def blocks (p : Pool) : Multiset Block :=
  p.free + p.busy + p.hand

def units (p : Pool) : Multiset Nat :=
  p.blocks.bind Buddies.units

variable {p p' : Pool}

theorem mem_blocks {x : Block} : x ∈ p.blocks ↔ x ∈ p.free ∨ x ∈ p.busy ∨ x ∈ p.hand := by
  rw [blocks, Multiset.mem_add, Multiset.mem_add, or_assoc]

theorem units_eq (p : Pool) :
    p.units = p.free.bind Buddies.units + p.busy.bind Buddies.units + p.hand.bind Buddies.units := by
  rw [units, blocks, Multiset.add_bind, Multiset.add_bind]

-- A unit is in one block only.
section Disjoint

variable {x y : Block}

theorem not_mem_busy (hn : p.units.Nodup) (hx : x ∈ p.free ∨ x ∈ p.hand) (hu : u ∈ Buddies.units x) (hy : y ∈ p.busy) :
    u ∉ Buddies.units y := by
  intro huy
  rw [units_eq, add_right_comm, Multiset.nodup_add, Multiset.disjoint_left] at hn
  refine hn.right.right (Multiset.mem_add.mpr <| hx.imp ?_ ?_) (Multiset.mem_bind.mpr ⟨y, hy, huy⟩) <;>
    exact fun hx => Multiset.mem_bind.mpr ⟨x, hx, hu⟩

theorem not_mem_free (hn : p.units.Nodup) (hx : x ∈ p.busy ∨ x ∈ p.hand) (hu : u ∈ Buddies.units x) (hy : y ∈ p.free) :
    u ∉ Buddies.units y := by
  intro huy
  rw [units_eq, add_assoc, Multiset.nodup_add, Multiset.disjoint_left] at hn
  refine hn.right.right (Multiset.mem_bind.mpr ⟨y, hy, huy⟩) (Multiset.mem_add.mpr <| hx.imp ?_ ?_) <;>
    exact fun hx => Multiset.mem_bind.mpr ⟨x, hx, hu⟩

end Disjoint

-- Blocks larger than `top` are not made, and `ok` holds of those that are made by a merge.
inductive Step (top : Nat) (ok : Block → Prop) : Pool → Pool → Prop
  | take  : Step top ok ⟨x ::ₘ f, b, 0⟩ ⟨f, b, {x}⟩
  | split : Step top ok ⟨f, b, {(r, o + 1)}⟩ ⟨(r + 2 ^ o, o) ::ₘ f, b, {(r, o)}⟩
  | give  : Step top ok ⟨f, b, {x}⟩ ⟨f, x ::ₘ b, 0⟩
  | back  : Step top ok ⟨f, x ::ₘ b, 0⟩ ⟨f, b, {x}⟩
  | merge : ok (min r (buddy r o), o + 1) →
    Step top ok ⟨(buddy r o, o) ::ₘ f, b, {(r, o)}⟩ ⟨f, b, {(min r (buddy r o), o + 1)}⟩
  | put   : (o < top → (buddy r o, o) ∉ f) → Step top ok ⟨f, b, {(r, o)}⟩ ⟨(r, o) ::ₘ f, b, 0⟩

theorem Step.units_eq (h : Step top ok p p') : p'.units = p.units := by
  rw [p.units_eq, p'.units_eq]
  cases h
  case split r o => simp only [Multiset.cons_bind, Multiset.singleton_bind, units_split r o]; abel
  case merge r o f b _ => simp only [Multiset.cons_bind, Multiset.singleton_bind, ← units_merge r o]; abel
  all_goals simp only [Multiset.cons_bind, Multiset.singleton_bind, Multiset.zero_bind]; abel

-- The units that are free or in the hand.
def spare (p : Pool) : Nat :=
  ((p.free + p.hand).bind Buddies.units).card

theorem spare_busy (p : Pool) (b : Multiset Block) : { p with busy := b }.spare = p.spare :=
  rfl

theorem card_units (p : Pool) : p.units.card = p.spare + (p.busy.bind Buddies.units).card := by
  rw [units_eq, spare, Multiset.add_bind, Multiset.card_add, Multiset.card_add, Multiset.card_add]
  omega

theorem Step.aligned (h : Step top ok p p') (hal : ∀ x ∈ p.blocks, Aligned c k x)
    (hmerge : ∀ r o, Aligned c k (r, o) → ok (min r (buddy r o), o + 1) → Aligned c k (min r (buddy r o), o + 1)) :
    ∀ x ∈ p'.blocks, Aligned c k x := by
  simp only [mem_blocks] at hal ⊢
  cases h
  case split r o =>
    have ⟨hl, hr⟩ := (hal (r, o + 1) (by simp)).split
    rintro x (hx | hx | hx)
    · rcases Multiset.mem_cons.mp hx with rfl | hx
      · exact hr
      · exact hal x (.inl hx)
    · exact hal x (.inr (.inl hx))
    · exact Multiset.mem_singleton.mp hx ▸ hl
  case merge r o f b hok =>
    rintro x (hx | hx | hx)
    · exact hal x (.inl (Multiset.mem_cons_of_mem hx))
    · exact hal x (.inr (.inl hx))
    · exact Multiset.mem_singleton.mp hx ▸ hmerge r o (hal _ (by simp)) hok
  all_goals
    intro x hx
    refine hal x ?_
    simp only [Multiset.mem_cons, Multiset.mem_singleton, Multiset.notMem_zero, or_false] at hx ⊢
    tauto

-- No two buddies of an order less than `k` are free.
def Eager (k : Nat) (p : Pool) : Prop :=
  ∀ r o, (r, o) ∈ p.free → o < k → (buddy r o, o) ∉ p.free

theorem eager_busy (p : Pool) (b : Multiset Block) : Eager k { p with busy := b } ↔ Eager k p :=
  .rfl

theorem Eager.push {r o : Nat} {f b m : Multiset Block} (h : ∀ r o, (r, o) ∈ f → o < k → (buddy r o, o) ∉ f) (hr : Aligned 0 k (r, o))
    (hal : ∀ x ∈ f, Aligned 0 k x) (hnot : o < k → (buddy r o, o) ∉ f) : Eager k ⟨(r, o) ::ₘ f, b, m⟩ := by
  intro r' o' hx ho hy
  rcases Multiset.mem_cons.mp hx with he | hx' <;> rcases Multiset.mem_cons.mp hy with he' | hy'
  · cases he
    exact buddy_ne r o (Prod.mk.inj he').left
  · cases he
    exact hnot ho hy'
  · have ⟨hr', ho'⟩ := Prod.mk.inj he'
    subst ho'
    have := buddy_buddy ((hal _ hx').dvd le_rfl (Nat.le_of_lt ho))
    rw [hr'] at this
    exact hnot ho (this ▸ hx')
  · exact h r' o' hx' ho hy'

theorem Step.eager (h : Step top ok p p') (hk : k ≤ top) (hal : ∀ x ∈ p.blocks, Aligned 0 k x) (hn : p.units.Nodup)
    (he : Eager k p) : Eager k p' := by
  simp only [mem_blocks] at hal
  cases h
  case take =>
    intro r o hx ho hy
    exact he r o (Multiset.mem_cons_of_mem hx) ho (Multiset.mem_cons_of_mem hy)
  case split f b r o =>
    have hr : Aligned 0 k (r, o + 1) := hal _ (by simp)
    refine Eager.push he hr.split.right (fun x hx => hal x (.inl hx)) fun ho hy => ?_
    rw [(buddy_of_dvd (hr.dvd le_rfl ho)).right] at hy
    have hmem : r ∈ Buddies.units (r, o + 1) := start_mem (r, o + 1)
    have heq := eq_of_mem_units hn (mem_blocks.mpr (.inl hy)) (mem_blocks.mpr (.inr (.inr (Multiset.mem_singleton_self _))))
      (start_mem (r, o)) hmem
    have := (Prod.mk.inj heq).right
    omega
  case give => exact he
  case back => exact he
  case merge =>
    intro r o hx ho hy
    exact he r o (Multiset.mem_cons_of_mem hx) ho (Multiset.mem_cons_of_mem hy)
  case put o r f b hnot =>
    exact Eager.push he (hal _ (by simp)) (fun x hx => hal x (.inl hx)) fun ho => hnot (by omega)

end Pool

-- An aligned block that has a unit of a larger one has all its units there.
theorem within (hw : 2 ^ n ∣ w) (hm : 2 ^ n ∣ m) (hn : n ≤ k) (hu : u ∈ units (w, k)) (hu' : u ∈ units (m, n)) :
    w ≤ m ∧ m + 2 ^ n ≤ w + 2 ^ k := by
  obtain ⟨a, rfl⟩ := hw
  obtain ⟨b, rfl⟩ := hm
  obtain ⟨c, hc⟩ := Nat.pow_dvd_pow 2 hn
  have ⟨hlo, hhi⟩ := mem_units.mp hu
  have ⟨hlo', hhi'⟩ := mem_units.mp hu'
  rw [hc, ← Nat.mul_add] at hhi ⊢
  rw [← Nat.mul_succ] at hhi' ⊢
  have hab : a < b + 1 := Nat.lt_of_mul_lt_mul_left (Nat.lt_of_le_of_lt hlo hhi')
  have hbc : b < a + c := Nat.lt_of_mul_lt_mul_left (Nat.lt_of_le_of_lt hlo' hhi)
  exact ⟨Nat.mul_le_mul_left _ (by omega), Nat.mul_le_mul_left _ (by omega)⟩

-- Where everything is free and no buddies are, a block that has an aligned place is there.
theorem exists_large {s : Multiset Block} (hal : ∀ x ∈ s, Aligned 0 k x)
    (he : ∀ r o, (r, o) ∈ s → o < k → (buddy r o, o) ∉ s) (hw : 2 ^ k ∣ w)
    (hall : ∀ u ∈ units (w, k), u ∈ s.bind units) : ∃ x ∈ s, k ≤ x.snd := by
  -- The blocks there are of larger and larger orders.
  have hlarge n (hn : n ≤ k) : ∀ u ∈ units (w, k), ∃ x ∈ s, n ≤ x.snd ∧ u ∈ units x := by
    induction n
    case zero =>
      intro u hu
      obtain ⟨x, hx, hux⟩ := Multiset.mem_bind.mp (hall u hu)
      exact ⟨x, hx, Nat.zero_le _, hux⟩
    case succ n ih =>
      intro u hu
      obtain ⟨⟨r, o⟩, hx, ho, hux⟩ := ih (by omega) u hu
      by_cases heq : o = n
      case neg => exact ⟨(r, o), hx, by omega, hux⟩
      case pos =>
        subst heq
        -- The buddy of a block of order `n` is in the same place, so another block has its first unit.
        have hr : 2 ^ o ∣ r := (hal _ hx).dvd le_rfl (by omega)
        have hparent {v : Nat} (hv : v ∈ units (r, o) ∨ v ∈ units (buddy r o, o)) :
            v ∈ units (min r (buddy r o), o + 1) := by
          rw [← units_merge]
          exact Multiset.mem_add.mpr hv
        have hb := start_mem (buddy r o, o)
        have ⟨hlo, hhi⟩ := within ((Nat.pow_dvd_pow 2 hn).trans hw) (min_dvd hr) hn hu (hparent (.inl hux))
        have hbw : buddy r o ∈ units (w, k) := by
          have ⟨hlo', hhi'⟩ := mem_units.mp (hparent (.inr hb))
          exact mem_units.mpr ⟨by omega, by omega⟩
        obtain ⟨⟨r', o'⟩, hx', ho', hb'⟩ := ih (by omega) (buddy r o) hbw
        by_cases heq : o' = o
        case pos =>
          subst heq
          have hr' := within ((hal _ hx').dvd le_rfl (by omega)) (buddy_dvd hr le_rfl) le_rfl hb' hb
          have : r' = buddy r o' := by omega
          exact absurd (this ▸ hx') (he r o' hx (by omega))
        case neg =>
          have hlt : o + 1 ≤ o' := by change o ≤ o' at ho'; omega
          have ⟨hlo, hhi⟩ := within ((hal _ hx').dvd hlt hn) (min_dvd hr) hlt hb' (hparent (.inr hb))
          have ⟨hlo', hhi'⟩ := mem_units.mp (hparent (.inl hux))
          exact ⟨(r', o'), hx', hlt, mem_units.mpr ⟨by omega, by omega⟩⟩
  have ⟨x, hx, hk, _⟩ := hlarge k le_rfl w (start_mem (w, k))
  exact ⟨x, hx, hk⟩

end Buddies
