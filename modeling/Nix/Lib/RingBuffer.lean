import Mathlib.Data.List.Basic
import Mathlib.Data.Nat.ModEq
import Mathlib.Algebra.Order.Ring.Int

-- A ring of `sz` slots that is written at one index and read at another one. One slot is left free, as the ring looks
-- empty where the two are the same.
def RingBuffer.next (sz i : Nat) : Nat :=
  (i + 1) % sz

-- What was put into a ring, the first `n` of which were taken out of it.
structure RingBuffer {α : Type*} (sz : Nat) (q : Nat → α) (r w : Nat) (puts : List α) (n : Nat) : Prop where
  le    : n ≤ puts.length
  lt    : puts.length < n + sz
  r     : r = n % sz
  w     : w = puts.length % sz
  slots : ∀ i (h : i < puts.length), n ≤ i → q (i % sz) = puts[i]

namespace RingBuffer

variable {α : Type*} {sz r w n : Nat} {q : Nat → α} {puts : List α} {x : α}

theorem init (h : 0 < sz) (q : Nat → α) : RingBuffer sz q 0 0 [] 0 where
  le      := Nat.le_refl 0
  lt      := by simpa using h
  r       := (Nat.zero_mod sz).symm
  w       := (Nat.zero_mod sz).symm
  slots i := nofun

theorem next_mod (sz i : Nat) : next sz (i % sz) = (i + 1) % sz := by
  rw [next, Nat.mod_add_mod]

-- Two places in the ring are the same slot only if they are as many places apart as the ring has slots.
theorem eq_of_mod_eq {i j : Nat} (h : i % sz = j % sz) (hi : n ≤ i) (hj : n ≤ j) (hi' : i < n + sz) (hj' : j < n + sz) :
    i = j := by
  have hmod : Nat.ModEq sz i j := h
  rcases Nat.le_total i j with hle | hle
  · have := (Nat.modEq_iff_dvd' hle).mp hmod
    have := Nat.eq_zero_of_dvd_of_lt this (by omega)
    omega
  · have := (Nat.modEq_iff_dvd' hle).mp hmod.symm
    have := Nat.eq_zero_of_dvd_of_lt this (by omega)
    omega

theorem empty_iff (h : RingBuffer sz q r w puts n) : r = w ↔ n = puts.length := by
  rw [h.r, h.w]
  refine ⟨fun he => eq_of_mod_eq he (Nat.le_refl n) h.le ?_ h.lt, fun he => he ▸ rfl⟩
  have := h.le
  have := h.lt
  omega

theorem full_iff (h : RingBuffer sz q r w puts n) : next sz w = r ↔ puts.length + 1 = n + sz := by
  have hle := h.le
  have hlt := h.lt
  rw [h.r, h.w, next_mod]
  constructor
  case mp =>
    intro he
    rw [← Nat.add_mod_right n] at he
    exact eq_of_mod_eq (n := n + 1) he (by omega) (by omega) (by omega) (by omega)
  case mpr =>
    intro he
    rw [he, Nat.add_mod_right]

theorem write (h : RingBuffer sz q r w puts n) (x : α) : RingBuffer sz (Function.update q w x) r w puts n where
  le           := h.le
  lt           := h.lt
  r            := h.r
  w            := h.w
  slots i hi hn := by
    have hne : i % sz ≠ w := fun he => by
      have := eq_of_mod_eq (he.trans h.w) hn h.le (by have := h.lt; omega) h.lt
      omega
    rw [Function.update_of_ne hne]
    exact h.slots i hi hn

theorem put (h : RingBuffer sz q r w puts n) (hx : q w = x) (hfull : next sz w ≠ r) : RingBuffer sz q r (next sz w) (puts ++ [x]) n where
  le           := by rw [List.length_append]; exact Nat.le_add_right_of_le h.le
  lt           := by
    have := mt h.full_iff.mpr hfull
    have := h.lt
    rw [List.length_append, List.length_singleton]
    omega
  r            := h.r
  w            := by rw [h.w, next_mod, List.length_append, List.length_singleton]
  slots i hi hn := by
    by_cases hlt : i < puts.length
    case pos => rw [List.getElem_append_left hlt, h.slots i hlt hn]
    case neg =>
      rw [List.length_append, List.length_singleton] at hi
      obtain rfl : i = puts.length := by omega
      rw [List.getElem_concat_length rfl, ← h.w, hx]

theorem take (h : RingBuffer sz q r w puts n) (hne : r ≠ w) : RingBuffer sz q (next sz r) w puts (n + 1) where
  le           := by
    have := h.le
    have := mt h.empty_iff.mpr hne
    omega
  lt           := by
    have := h.lt
    omega
  r            := by rw [h.r, next_mod]
  w            := h.w
  slots i hi hn := h.slots i hi (Nat.le_of_succ_le hn)

theorem front (h : RingBuffer sz q r w puts n) (hn : n < puts.length) : q r = puts[n] := by
  rw [h.r]
  exact h.slots n hn (Nat.le_refl n)

end RingBuffer
