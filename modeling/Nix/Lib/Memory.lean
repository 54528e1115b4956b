import Mathlib.Data.List.Basic
import Mathlib.Algebra.Order.Ring.Int

namespace LittleEndian

-- The `w` low-order bytes of `v`, least significant first.
def encode : Nat → Nat → List UInt8
  | 0, _     => []
  | w + 1, v => .ofNat v :: encode w (v / 256)

def decode : List UInt8 → Nat
  | []      => 0
  | b :: bs => b.toNat + 256 * decode bs

@[simp]
theorem encode_length (w v : Nat) : (encode w v).length = w := by
  induction w generalizing v <;> simp [encode, *]

theorem decode_lt (bs : List UInt8) : decode bs < 256 ^ bs.length := by
  induction bs with
  | nil => simp [decode]
  | cons b bs hi =>
    have hb := b.toNat_lt
    simp only [decode, List.length_cons, Nat.pow_succ]
    omega

theorem decode_encode_mod (w v : Nat) : decode (encode w v) = v % 256 ^ w := by
  induction w generalizing v with
  | zero => simp [encode, decode, Nat.mod_one]
  | succ w hi =>
    have hp : 256 ^ (w + 1) = 256 * 256 ^ w := Nat.pow_succ'
    rw [encode, decode, hi, UInt8.toNat_ofNat', hp, Nat.mod_mul (x := v) (a := 256)]

theorem decode_encode (h : v < 256 ^ w) : decode (encode w v) = v := by
  rw [decode_encode_mod, Nat.mod_eq_of_lt h]

theorem encode_decode (bs : List UInt8) : encode bs.length (decode bs) = bs := by
  induction bs with
  | nil => rfl
  | cons b bs hi =>
    have hb := b.toNat_lt
    have hq : (b.toNat + 256 * decode bs) / 256 = decode bs := by omega
    have hr : UInt8.ofNat (b.toNat + 256 * decode bs) = b := by
      apply UInt8.toNat_inj.mp
      simp only [UInt8.toNat_ofNat']
      omega
    simp only [List.length_cons, decode, encode, hq, hr, hi]

theorem encode_decode_of_length (h : bs.length = w) : encode w (decode bs) = bs :=
  h ▸ encode_decode bs

end LittleEndian

-- A memory of bytes.
abbrev Memory := Nat → UInt8

namespace Memory

variable {m m' : Memory} {p q v w a : Nat} {xs ys : List UInt8}

def bytes (m : Memory) (p w : Nat) : List UInt8 :=
  (List.range w).map fun i => m (p + i)

def write (m : Memory) (p : Nat) (xs : List UInt8) : Memory :=
  fun a => if p ≤ a then xs[a - p]?.getD (m a) else m a

-- The bytes are in the memory from `p` on.
def At (m : Memory) (p : Nat) (xs : List UInt8) : Prop :=
  m.bytes p xs.length = xs

@[simp]
theorem bytes_length (m : Memory) (p w : Nat) : (m.bytes p w).length = w := by
  simp [bytes]

@[simp]
theorem bytes_zero (m : Memory) (p : Nat) : m.bytes p 0 = [] :=
  rfl

theorem bytes_add (m : Memory) (p v w : Nat) : m.bytes p (v + w) = m.bytes p v ++ m.bytes (p + v) w := by
  simp [bytes, List.range_add, Nat.add_assoc]

theorem bytes_congr (h : ∀ a, p ≤ a → a < p + w → m a = m' a) : m.bytes p w = m'.bytes p w := by
  refine List.map_congr_left fun i hi => h _ (Nat.le_add_right ..) ?_
  have := List.mem_range.mp hi
  omega

theorem at_bytes (m : Memory) (p w : Nat) : m.At p (m.bytes p w) := by
  rw [At, bytes_length]

@[simp]
theorem at_nil : m.At p [] :=
  rfl

@[simp]
theorem at_append : m.At p (xs ++ ys) ↔ m.At p xs ∧ m.At (p + xs.length) ys := by
  rw [At, List.length_append, bytes_add]
  exact ⟨fun h => List.append_inj h (bytes_length ..), fun h => congrArg₂ _ h.left h.right⟩

@[simp]
theorem at_singleton {x : UInt8} : m.At p [x] ↔ m p = x := by
  simp [At, bytes]

theorem At.congr (h : m.At p xs) (hm : ∀ a, p ≤ a → a < p + xs.length → m' a = m a) : m'.At p xs :=
  (bytes_congr hm).trans h

theorem write_of_lt (h : a < p) : m.write p xs a = m a :=
  if_neg <| Nat.not_le.mpr h

theorem write_of_le (h : p + xs.length ≤ a) : m.write p xs a = m a := by
  rw [write, if_pos (by omega), List.getElem?_eq_none (by omega), Option.getD_none]

theorem write_outside (h : a < p ∨ p + xs.length ≤ a) : m.write p xs a = m a :=
  h.elim write_of_lt write_of_le

theorem at_write (m : Memory) (p : Nat) (xs : List UInt8) : (m.write p xs).At p xs := by
  refine List.ext_getElem (by simp) fun i hi _ => ?_
  rw [bytes_length] at hi
  simp [bytes, write, hi]

theorem At.write (h : m.At p xs) (hd : p + xs.length ≤ q ∨ q + ys.length ≤ p) : (m.write q ys).At p xs :=
  h.congr fun a hp ha => write_outside <| by omega

-- Nothing was written outside of `p .. q`.
def Within (m m' : Memory) (p q : Nat) : Prop :=
  ∀ a, a < p ∨ q ≤ a → m' a = m a

theorem Within.trans {m₁ m₂ m₃ : Memory} (h : Within m₁ m₂ p q) (h' : Within m₂ m₃ p q) : Within m₁ m₃ p q :=
  fun a ha => (h' a ha).trans (h a ha)

theorem Within.mono {p' q' : Nat} (h : Within m m' p q) (hp : p' ≤ p) (hq : q ≤ q') : Within m m' p' q' :=
  fun a ha => h a <| by omega

theorem Within.write (hp : p ≤ a) (hq : a + xs.length ≤ q) : Within m (m.write a xs) p q :=
  fun _ _ => write_outside <| by omega

theorem write_append (m : Memory) (p : Nat) (xs ys : List UInt8) :
    (m.write p xs).write (p + xs.length) ys = m.write p (xs ++ ys) := by
  funext a
  rcases Nat.lt_or_ge a p with ha | ha
  · rw [write_of_lt (by omega), write_of_lt ha, write_of_lt ha]
  · rcases Nat.lt_or_ge a (p + xs.length) with hx | hx
    · have : a - p < xs.length := by omega
      rw [write_of_lt hx]
      simp [write, ha, List.getElem?_append_left this]
    · have : xs.length ≤ a - p := by omega
      simp only [write, ha, hx, if_true, List.getElem?_append_right this, List.getElem?_eq_none this, Option.getD_none,
        Nat.sub_sub]

end Memory

-- A buffer is read between its bounds only.
structure Buf where
  base : Nat
  len  : Nat

namespace Buf

inductive Fault
  | outside
deriving DecidableEq

def stop (b : Buf) : Nat :=
  b.base + b.len

def read (b : Buf) (m : Memory) (p w : Nat) : Except Fault (List UInt8) :=
  if b.base ≤ p ∧ p + w ≤ b.stop then .ok (m.bytes p w) else .error .outside

variable {b : Buf} {m : Memory} {p w : Nat} {xs : List UInt8}

theorem read_eq (m : Memory) (hl : b.base ≤ p) (hr : p + w ≤ b.stop) : b.read m p w = .ok (m.bytes p w) :=
  if_pos ⟨hl, hr⟩

theorem read_of_at (h : m.At p xs) (hl : b.base ≤ p) (hr : p + xs.length ≤ b.stop) :
    b.read m p xs.length = .ok xs := by
  rw [read_eq m hl hr, h]

end Buf

-- A block of memory, which is read and written within its bounds only.
abbrev Block (α : Type*) := List α

namespace Block

variable {α : Type*} {b : Block α} {l m : List α} {x z : α} {n k : Nat}

def alloc (z : α) (n : Nat) : Block α :=
  List.replicate n z

-- The first `n` values.
def load (b : Block α) (n : Nat) : Option (List α) :=
  if n ≤ b.length then some (b.take n) else none

def store (b : Block α) (off : Nat) (l : List α) : Option (Block α) :=
  if off + l.length ≤ b.length then some (b.take off ++ l ++ b.drop (off + l.length)) else none

-- The block begins with these values.
def Holds (b : Block α) (l : List α) : Prop :=
  l <+: b

theorem length_alloc : (alloc z n).length = n :=
  List.length_replicate

theorem load_holds (h : b.Holds l) : b.load l.length = some l := by
  rw [load, if_pos h.length_le, List.prefix_iff_eq_take.mp h |>.symm]

theorem store_holds (h : b.Holds l) (hn : l.length + m.length ≤ b.length) :
    ∃ b', b.store l.length m = some b' ∧ b'.length = b.length ∧ Holds b' (l ++ m) := by
  have hl := List.prefix_iff_eq_take.mp h
  refine ⟨_, if_pos hn, ?_, ?_⟩
  · rw [List.length_append, List.length_append, List.length_take, List.length_drop]
    omega
  · rw [Holds, ← hl]
    exact List.prefix_append _ _

theorem store_alloc (h : l.length ≤ n) : ∃ b, (alloc z n).store 0 l = some b ∧ b.length = n ∧ Holds b l := by
  have hn : ([] : List α).length + l.length ≤ (alloc z n).length := by
    rw [length_alloc, List.length_nil]
    omega
  have ⟨b, hb, hlen, hl⟩ := store_holds (List.nil_prefix : Holds (alloc z n) []) hn
  exact ⟨b, hb, hlen.trans length_alloc, hl⟩

theorem Holds.of_append (h : b.Holds (l ++ m)) : b.Holds l :=
  (List.prefix_append l m).trans h

theorem store_within (h : b.Holds (l ++ m)) {w : List α} (hw : w.length ≤ m.length) :
    ∃ b', b.store l.length w = some b' ∧ b'.length = b.length ∧ Holds b' (l ++ w) := by
  have hle := h.length_le
  rw [List.length_append] at hle
  exact store_holds h.of_append (by omega)

theorem set_holds (h : b.Holds (l ++ [x])) : Holds (b.set l.length z) (l ++ [z]) := by
  obtain ⟨t, rfl⟩ := h
  rw [List.append_assoc, List.set_append_right _ _ (Nat.le_refl _), Nat.sub_self]
  exact ⟨t, List.append_assoc ..⟩

theorem getElem?_holds (h : b.Holds (l ++ [x])) : b[l.length]? = some x := by
  obtain ⟨t, rfl⟩ := h
  rw [List.append_assoc, List.getElem?_append_right (Nat.le_refl _), Nat.sub_self]
  rfl

end Block
