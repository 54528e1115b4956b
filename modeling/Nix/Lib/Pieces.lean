import Mathlib.Algebra.BigOperators.Group.List.Basic
import Mathlib.Data.List.Infix
import Mathlib.Algebra.Order.Ring.Int

-- Pieces that lie one after the other and fill the range from `lo` to `hi`.
def Tiles {α : Type*} (start len : α → Nat) : Nat → List α → Nat → Prop
  | lo, [], hi      => lo = hi
  | lo, x :: xs, hi => start x = lo ∧ Tiles start len (lo + len x) xs hi

namespace Tiles

variable {α : Type*} {start len : α → Nat} {lo hi : Nat} {xs ys : List α} {x : α}

@[simp]
theorem nil_iff : Tiles start len lo [] hi ↔ lo = hi :=
  Iff.rfl

@[simp]
theorem cons_iff : Tiles start len lo (x :: xs) hi ↔ start x = lo ∧ Tiles start len (lo + len x) xs hi :=
  Iff.rfl

theorem append_iff :
    Tiles start len lo (xs ++ ys) hi ↔ ∃ mid, Tiles start len lo xs mid ∧ Tiles start len mid ys hi := by
  induction xs generalizing lo
  case nil => simp
  case cons x xs ih => simp [ih, and_assoc]

theorem sum (h : Tiles start len lo xs hi) : lo + (xs.map len).sum = hi := by
  induction xs generalizing lo
  case nil => simpa using h
  case cons x xs ih =>
    have := ih h.right
    rw [List.map_cons, List.sum_cons]
    omega

theorem le (h : Tiles start len lo xs hi) : lo ≤ hi :=
  h.sum ▸ Nat.le_add_right ..

theorem bounds (h : Tiles start len lo xs hi) (hx : x ∈ xs) : lo ≤ start x ∧ start x + len x ≤ hi := by
  induction xs generalizing lo
  case nil => contradiction
  case cons y ys ih =>
    obtain ⟨hy, h⟩ := h
    rcases List.mem_cons.mp hx with rfl | hx
    · exact ⟨Nat.le_of_eq hy.symm, hy ▸ h.le⟩
    · have := ih h hx
      omega

theorem pairwise (h : Tiles start len lo xs hi) : xs.Pairwise fun x y => start x + len x ≤ start y := by
  induction xs generalizing lo
  case nil => exact .nil
  case cons x xs ih =>
    obtain ⟨hx, h⟩ := h
    exact .cons (fun y hy => hx ▸ (h.bounds hy).left) (ih h)

end Tiles

-- A piece of a sequence, with the position at which it begins.
structure Piece (α : Type*) where
  off  : Nat
  data : List α
deriving DecidableEq

namespace Piece

variable {α : Type*} {p q : Piece α} {ps qs : List (Piece α)} {P : List α} {i lo hi n : Nat}

def len (p : Piece α) : Nat :=
  p.data.length

def stop (p : Piece α) : Nat :=
  p.off + p.len

-- What the piece says is what the sequence has there.
def Of (p : Piece α) (P : List α) : Prop :=
  p.data <+: P.drop p.off

def Has (p : Piece α) (i : Nat) : Prop :=
  p.off ≤ i ∧ i < p.stop

def Covers (ps : List (Piece α)) (i : Nat) : Prop :=
  ∃ p ∈ ps, p.Has i

instance : Decidable (p.Has i) :=
  inferInstanceAs <| Decidable (_ ∧ _)

instance : Decidable (Covers ps i) :=
  inferInstanceAs <| Decidable (∃ p ∈ ps, p.Has i)

-- The pieces lie in order and no two of them overlap.
def Apart (ps : List (Piece α)) : Prop :=
  ps.Pairwise fun p q => p.stop ≤ q.off

theorem Of.stop_le (h : p.Of P) (hp : 0 < p.len) : p.stop ≤ P.length := by
  have := h.length_le
  rw [List.length_drop] at this
  unfold stop
  unfold len at *
  omega

theorem Of.take (h : p.Of P) : Of ⟨p.off, p.data.take n⟩ P :=
  (List.take_prefix _ _).trans h

theorem Of.drop (h : p.Of P) : Of ⟨p.off + n, p.data.drop n⟩ P := by
  have : p.data.drop n <+: (P.drop p.off).drop n := List.IsPrefix.drop h n
  rwa [List.drop_drop] at this

theorem Of.data_eq (h : p.Of P) (ho : p.off = 0) (hs : P.length ≤ p.stop) : p.data = P := by
  have h : p.data <+: P := by simpa only [Of, ho, List.drop_zero] using h
  apply h.eq_of_length_le
  unfold stop len at hs
  omega

@[simp]
theorem covers_nil : ¬Covers ([] : List (Piece α)) i :=
  nofun

@[simp]
theorem covers_cons : Covers (p :: ps) i ↔ p.Has i ∨ Covers ps i := by
  simp [Covers]

theorem flatMap_data_of_tiles (ht : Tiles off len lo ps hi) (ho : ∀ p ∈ ps, p.Of P) :
    ps.flatMap data <+: P.drop lo := by
  induction ps generalizing lo
  case nil => exact List.nil_prefix
  case cons p ps ih =>
    obtain ⟨rfl, ht⟩ := ht
    obtain ⟨rest, hp⟩ : p.Of P := ho p List.mem_cons_self
    have hd : rest = P.drop (p.off + p.len) := by
      rw [← List.drop_drop, ← hp, len, List.drop_left]
    rw [List.flatMap_cons, ← hp, List.prefix_append_right_inj, hd]
    exact ih ht fun q hq => ho q <| List.mem_cons_of_mem _ hq

theorem flatMap_data_length (ht : Tiles off len lo ps hi) : lo + (ps.flatMap data).length = hi := by
  rw [List.length_flatMap]
  exact ht.sum

theorem flatMap_data_eq (ht : Tiles off len 0 ps P.length) (ho : ∀ p ∈ ps, p.Of P) :
    ps.flatMap data = P := by
  have h := flatMap_data_of_tiles ht ho
  rw [List.drop_zero] at h
  exact h.eq_of_length <| by have := flatMap_data_length ht; omega

theorem tiles_of_covers
    (ha : Apart ps) (hn : ∀ p ∈ ps, 0 < p.len) (hl : ∀ p ∈ ps, lo ≤ p.off) (hh : ∀ p ∈ ps, p.stop ≤ hi)
    (hlh : lo ≤ hi) (hc : ∀ i, lo ≤ i → i < hi → Covers ps i) : Tiles off len lo ps hi := by
  induction ps generalizing lo
  case nil =>
    by_contra hne
    exact absurd (hc lo (Nat.le_refl _) <| Nat.lt_of_le_of_ne hlh hne) covers_nil
  case cons p ps ih =>
    have ⟨hp, ha⟩ := List.pairwise_cons.mp ha
    have hpn := hn p List.mem_cons_self
    have hpl := hl p List.mem_cons_self
    have hph := hh p List.mem_cons_self
    have hps : p.off + p.len = p.stop := rfl
    -- Nothing but the first piece has its first position.
    have hoff : p.off = lo := by
      obtain ⟨q, hq, hql, hqs⟩ := hc lo (Nat.le_refl _) (by omega)
      rcases List.mem_cons.mp hq with rfl | hq
      · omega
      · have := hp q hq
        omega
    refine ⟨hoff, ih ha (fun q hq => hn q <| .tail _ hq) (fun q hq => ?_) (fun q hq => hh q <| .tail _ hq)
      (by omega) fun i hil hih => ?_⟩
    · have := hp q hq
      omega
    · rcases covers_cons.mp (hc i (by omega) hih) with hi | hi
      · have := hi.right
        omega
      · exact hi

end Piece
