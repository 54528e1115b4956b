import Mathlib.Algebra.Order.Ring.Int
import Mathlib.Tactic.Ring

-- Bytes as text, and the text that is written to a buffer.
namespace Enc

abbrev Byte := BitVec 8

def NUL : Char :=
  Char.ofNat 0

-- Why nothing is returned: a write outside the buffer, or an error that the code finds.
inductive Stop
  | outside
  | nil
deriving DecidableEq

-- What is written of a buffer, and what is after it.
structure Out where
  done : List Char
  room : List Char
deriving DecidableEq

namespace Out

def put (o : Out) (c : Char) : Except Stop Out :=
  match o.room with
  | []        => throw .outside
  | _ :: room => return ⟨o.done ++ [c], room⟩

def puts (o : Out) : List Char → Except Stop Out
  | []      => return o
  | c :: cs => do
    let o ← o.put c
    o.puts cs

-- The buffer after `*out = 0`.
def close (o : Out) : Except Stop (List Char) :=
  match o.room with
  | []        => throw .outside
  | _ :: room => return o.done ++ NUL :: room

end Out

def set64 : List Char :=
  ['A', 'B', 'C', 'D', 'E', 'F', 'G', 'H', 'I', 'J', 'K', 'L', 'M', 'N', 'O', 'P', 'Q', 'R', 'S', 'T', 'U', 'V',
    'W', 'X', 'Y', 'Z', 'a', 'b', 'c', 'd', 'e', 'f', 'g', 'h', 'i', 'j', 'k', 'l', 'm', 'n', 'o', 'p', 'q', 'r',
    's', 't', 'u', 'v', 'w', 'x', 'y', 'z', '0', '1', '2', '3', '4', '5', '6', '7', '8', '9', '+', '/']

def set32 : List Char :=
  ['2', '3', '4', '5', '6', '7', '8', '9', 'a', 'b', 'c', 'd', 'e', 'f', 'g', 'h', 'i', 'j', 'k', 'm', 'n', 'p',
    'q', 'r', 's', 't', 'u', 'v', 'w', 'x', 'y', 'z']

def t64e (i : Nat) : Char :=
  set64.getD i NUL

def t64d (c : Char) : Option Nat :=
  set64.idxOf? c

def byte (x : Nat) : Byte :=
  BitVec.ofNat 8 x

def enc64.chars (b24 : Nat) : List Char :=
  [t64e (b24 >>> 18), t64e (b24 >>> 12 &&& 0x3f), t64e (b24 >>> 6 &&& 0x3f), t64e (b24 &&& 0x3f)]

-- Groups of three bytes and what is left of them. It ends where there is no room for four more characters.
def enc64.loop : List Byte → Out → Except Stop Out
  | x :: y :: z :: src, o => do
    let b24 := x.toNat <<< 16 ||| y.toNat <<< 8 ||| z.toNat
    if o.room.length ≤ 4 then
      return o
    else
      let o ← o.puts (chars b24)
      loop src o
  | [x, y], o =>
    let b24 := x.toNat <<< 16 ||| y.toNat <<< 8
    if o.room.length ≤ 4 then return o else o.puts ((chars b24).take 3 ++ ['='])
  | [x], o =>
    let b24 := x.toNat <<< 16
    if o.room.length ≤ 4 then return o else o.puts ((chars b24).take 2 ++ ['=', '='])
  | [], o => return o

def enc64 (out : List Char) (src : List Byte) : Except Stop (List Char) := do
  let o ← enc64.loop src ⟨[], out⟩
  o.close

-- The bytes so far, the bits that are not in them yet, and how many characters these are from.
structure Dec where
  out : List Byte
  b24 : Nat
  i   : Nat

-- What is left at the end.
def dec64.rest (lim : Nat) (d : Dec) : List Byte :=
  match d.i with
  | 2 => if lim < d.out.length + 1 then d.out else d.out ++ [byte (d.b24 >>> 16)]
  | 3 => if lim < d.out.length + 2 then d.out else d.out ++ [byte (d.b24 >>> 16), byte (d.b24 >>> 8)]
  | _ => d.out

def dec64.loop (lim : Nat) : List Char → Dec → List Byte
  | [], d      => rest lim d
  | c :: cs, d =>
    match t64d c with
    | none   => loop lim cs d
    | some c =>
      match d.i with
      | 0 => loop lim cs { d with b24 := c <<< 18, i := 1 }
      | 1 => loop lim cs { d with b24 := d.b24 ||| c <<< 12, i := 2 }
      | 2 => loop lim cs { d with b24 := d.b24 ||| c <<< 6, i := 3 }
      | _ =>
        if lim < d.out.length + 3 then
          d.out
        else
          let b24 := d.b24 ||| c
          loop lim cs { out := d.out ++ [byte (b24 >>> 16), byte (b24 >>> 8), byte b24], b24, i := 0 }

def dec64 (lim : Nat) (src : List Char) : List Byte :=
  dec64.loop lim src ⟨[], 0, 0⟩

def tab32 (j : Nat) : Char :=
  set32.getD j NUL

-- The characters of five bytes.
def enc32.chars (a b c d e : Nat) : List Char :=
  [tab32 (0x1f &&& a >>> 3), tab32 (0x1c &&& a <<< 2 ||| 0x03 &&& b >>> 6), tab32 (0x1f &&& b >>> 1),
    tab32 (0x10 &&& b <<< 4 ||| 0x0f &&& c >>> 4), tab32 (0x1e &&& c <<< 1 ||| 0x01 &&& d >>> 7),
    tab32 (0x1f &&& d >>> 2), tab32 (0x18 &&& d <<< 3 ||| 0x07 &&& e >>> 5), tab32 (0x1f &&& e)]

-- Only a multiple of five bytes is encoded whole.
def enc32.loop : List Byte → Out → Except Stop Out
  | a :: b :: c :: d :: e :: src, o => do
    let o ← o.puts (chars a.toNat b.toNat c.toNat d.toNat e.toNat)
    loop src o
  | [a, b, c, _], o => o.puts ((chars a.toNat b.toNat c.toNat 0 0).take 5)
  | [a, b, _], o    => o.puts ((chars a.toNat b.toNat 0 0 0).take 4)
  | [a, b], o       => o.puts ((chars a.toNat b.toNat 0 0 0).take 3)
  | [a], o          => o.puts ((chars a.toNat 0 0 0 0).take 2)
  | [], o           => return o

def enc32 (dest : List Char) (src : List Byte) : Except Stop (List Char) :=
  if dest.length ≤ (8 * src.length + 4) / 5 then
    throw .nil
  else do
    let o ← enc32.loop src ⟨[], dest⟩
    o.close

-- A character that is not in the table counts as the first.
def dec32.index (c : Char) : Nat :=
  (set32.idxOf? c).getD 0

def dec32.bytes (u : Nat → Nat) : List Byte :=
  [byte (u 0 <<< 3 ||| 0x7 &&& u 1 >>> 2), byte ((0x3 &&& u 1) <<< 6 ||| u 2 <<< 1 ||| 0x1 &&& u 3 >>> 4),
    byte ((0xf &&& u 3) <<< 4 ||| 0xf &&& u 4 >>> 1), byte ((0x1 &&& u 4) <<< 7 ||| u 5 <<< 2 ||| 0x3 &&& u 6 >>> 3),
    byte ((0x7 &&& u 6) <<< 5 ||| u 7)]

def dec32.loop : List Char → Option (List Byte)
  | a :: b :: c :: d :: e :: f :: g :: h :: src =>
    (loop src).map (bytes (fun i => index ([a, b, c, d, e, f, g, h].getD i NUL)) ++ ·)
  | [] => some []
  | src =>
    let u := bytes fun i => index (src.getD i NUL)
    match src.length with
    | 2 => some (u.take 1)
    | 4 => some (u.take 2)
    | 5 => some (u.take 3)
    | 7 => some (u.take 4)
    | _ => none

def dec32 (ndest : Nat) (src : List Char) : Option (List Byte) :=
  if ndest + 1 < (5 * src.length + 7) / 8 then none else dec32.loop src

section

variable {o : Out} {cs : List Char} {src : List Byte} {a b k i : Nat}

theorem puts_eq (h : cs.length ≤ o.room.length) : o.puts cs = .ok ⟨o.done ++ cs, o.room.drop cs.length⟩ := by
  induction cs generalizing o
  case nil          => simp [Out.puts, pure, Except.pure]
  case cons c cs ih =>
    obtain ⟨done, room⟩ := o
    cases room
    case nil         => exact absurd h (by simp)
    case cons x room =>
      have hrest := @ih ⟨done ++ [c], room⟩ (Nat.le_of_succ_le_succ h)
      rw [List.append_assoc] at hrest
      exact hrest

theorem close_eq (h : o.room ≠ []) : o.close = .ok (o.done ++ NUL :: o.room.tail) := by
  obtain ⟨done, room⟩ := o
  cases room
  case nil  => exact absurd rfl h
  case cons => rfl

theorem or_add (ha : 2 ^ k ∣ a) (hb : b < 2 ^ k) : a ||| b = a + b := by
  obtain ⟨q, rfl⟩ := ha
  rw [Nat.mul_comm, ← Nat.shiftLeft_eq, Nat.shiftLeft_add_eq_or_of_lt hb]

theorem byte_eq {x : Nat} {y : Byte} (h : x % 256 = y.toNat) : byte x = y :=
  BitVec.eq_of_toNat_eq h

-- Base 64

theorem t64d_t64e (h : i < 64) : t64d (t64e i) = some i := by
  have hall : ∀ i : Fin 64, t64d (t64e i) = some i.val := by decide +kernel
  exact hall ⟨i, h⟩

-- The characters that are read back, and what they are filled up with.
def text64 : List Byte → List Char
  | x :: y :: z :: src => enc64.chars (x.toNat <<< 16 ||| y.toNat <<< 8 ||| z.toNat) ++ text64 src
  | [x, y]             => (enc64.chars (x.toNat <<< 16 ||| y.toNat <<< 8)).take 3
  | [x]                => (enc64.chars (x.toNat <<< 16)).take 2
  | []                 => []

def pad64 (n : Nat) : List Char :=
  List.replicate ((3 - n % 3) % 3) '='

theorem and_63 (x : Nat) : x &&& 0x3f = x % 64 :=
  Nat.and_two_pow_sub_one_eq_mod x 6

theorem word16 (x y : Byte) : x.toNat <<< 16 ||| y.toNat <<< 8 = x.toNat * 65536 + y.toNat * 256 := by
  have hy := y.isLt
  rw [Nat.shiftLeft_eq, Nat.shiftLeft_eq, or_add (k := 16) (by omega) (by omega)]

theorem word24 (x y z : Byte) :
    x.toNat <<< 16 ||| y.toNat <<< 8 ||| z.toNat = x.toNat * 65536 + y.toNat * 256 + z.toNat := by
  have hz := z.isLt
  rw [word16, or_add (k := 8) (by omega) (by omega)]

-- The characters of 24 bits give the bits back, the first two and three those above.
theorem bits_two (b : Nat) : (b >>> 18) <<< 18 ||| (b >>> 12 &&& 0x3f) <<< 12 = b / 4096 * 4096 := by
  rw [and_63, Nat.shiftLeft_eq, Nat.shiftLeft_eq, Nat.shiftRight_eq_div_pow, Nat.shiftRight_eq_div_pow,
    or_add (k := 18) (by omega) (by omega)]
  omega

theorem bits_three (b : Nat) :
    (b >>> 18) <<< 18 ||| (b >>> 12 &&& 0x3f) <<< 12 ||| (b >>> 6 &&& 0x3f) <<< 6 = b / 64 * 64 := by
  rw [bits_two, and_63, Nat.shiftLeft_eq, Nat.shiftRight_eq_div_pow, or_add (k := 12) (by omega) (by omega)]
  omega

theorem bits_four (b : Nat) :
    (b >>> 18) <<< 18 ||| (b >>> 12 &&& 0x3f) <<< 12 ||| (b >>> 6 &&& 0x3f) <<< 6 ||| (b &&& 0x3f) = b := by
  rw [bits_three, and_63, or_add (k := 6) (by omega) (by omega)]
  omega

theorem t64d_chars {b : Nat} (h : b < 2 ^ 24) : t64d (t64e (b >>> 18)) = some (b >>> 18) ∧
    t64d (t64e (b >>> 12 &&& 0x3f)) = some (b >>> 12 &&& 0x3f) ∧
      t64d (t64e (b >>> 6 &&& 0x3f)) = some (b >>> 6 &&& 0x3f) ∧
    t64d (t64e (b &&& 0x3f)) = some (b &&& 0x3f) := by
  have hmask (x : Nat) : x &&& 0x3f < 64 := by
    rw [and_63]
    exact Nat.mod_lt x (by decide)
  have hhigh : b >>> 18 < 64 := by
    rw [Nat.shiftRight_eq_div_pow]
    omega
  exact ⟨t64d_t64e hhigh, t64d_t64e (hmask _), t64d_t64e (hmask _), t64d_t64e (hmask _)⟩

theorem dec64_four {b c lim : Nat} {out : List Byte} (h : b < 2 ^ 24) (hlim : out.length + 3 ≤ lim) :
    dec64.loop lim (enc64.chars b ++ cs) ⟨out, c, 0⟩ =
      dec64.loop lim cs ⟨out ++ [byte (b >>> 16), byte (b >>> 8), byte b], b, 0⟩ := by
  obtain ⟨h0, h1, h2, h3⟩ := t64d_chars h
  simp only [enc64.chars, List.cons_append, List.nil_append, dec64.loop, h0, h1, h2, h3, bits_four]
  rw [if_neg (Nat.not_lt_of_le hlim)]

theorem dec64_three {b c lim : Nat} {out : List Byte} (h : b < 2 ^ 24) (hlim : out.length + 2 ≤ lim) :
    dec64.loop lim ((enc64.chars b).take 3) ⟨out, c, 0⟩ =
      out ++ [byte ((b / 64 * 64) >>> 16), byte ((b / 64 * 64) >>> 8)] := by
  obtain ⟨h0, h1, h2, -⟩ := t64d_chars h
  simp only [enc64.chars, List.take_succ_cons, List.take_zero, dec64.loop, h0, h1, h2, bits_three, dec64.rest]
  rw [if_neg (Nat.not_lt_of_le hlim)]

theorem dec64_two {b c lim : Nat} {out : List Byte} (h : b < 2 ^ 24) (hlim : out.length + 1 ≤ lim) :
    dec64.loop lim ((enc64.chars b).take 2) ⟨out, c, 0⟩ = out ++ [byte ((b / 4096 * 4096) >>> 16)] := by
  obtain ⟨h0, h1, -, -⟩ := t64d_chars h
  simp only [enc64.chars, List.take_succ_cons, List.take_zero, dec64.loop, h0, h1, bits_two, dec64.rest]
  rw [if_neg (Nat.not_lt_of_le hlim)]

theorem dec64_text64 (src : List Byte) (c lim : Nat) (out : List Byte) (hlim : out.length + src.length ≤ lim) :
    dec64.loop lim (text64 src) ⟨out, c, 0⟩ = out ++ src := by
  induction src using text64.induct generalizing c out
  case case1 x y z src ih =>
    have hx := x.isLt
    have hy := y.isLt
    have hz := z.isLt
    have hlen : out.length + (src.length + 3) ≤ lim := hlim
    have hword := word24 x y z
    rw [text64, hword, dec64_four (by omega) (by omega), ih _ _ (by simp; omega)]
    have h0 : byte ((x.toNat * 65536 + y.toNat * 256 + z.toNat) >>> 16) = x := byte_eq (by
      rw [Nat.shiftRight_eq_div_pow]
      omega)
    have h1 : byte ((x.toNat * 65536 + y.toNat * 256 + z.toNat) >>> 8) = y := byte_eq (by
      rw [Nat.shiftRight_eq_div_pow]
      omega)
    have h2 : byte (x.toNat * 65536 + y.toNat * 256 + z.toNat) = z := byte_eq (by omega)
    rw [h0, h1, h2, List.append_assoc]
    rfl
  case case2 x y =>
    have hx := x.isLt
    have hy := y.isLt
    rw [text64, word16 x y, dec64_three (by omega) hlim]
    have h0 : byte (((x.toNat * 65536 + y.toNat * 256) / 64 * 64) >>> 16) = x := byte_eq (by
      rw [Nat.shiftRight_eq_div_pow]
      omega)
    have h1 : byte (((x.toNat * 65536 + y.toNat * 256) / 64 * 64) >>> 8) = y := byte_eq (by
      rw [Nat.shiftRight_eq_div_pow]
      omega)
    rw [h0, h1]
  case case3 x =>
    have hx := x.isLt
    rw [text64, Nat.shiftLeft_eq, dec64_two (by omega) hlim]
    have h0 : byte ((x.toNat * 2 ^ 16 / 4096 * 4096) >>> 16) = x := byte_eq (by
      rw [Nat.shiftRight_eq_div_pow]
      omega)
    rw [h0]
  case case4 => simp [text64, dec64.loop, dec64.rest]

theorem length_chars (b : Nat) : (enc64.chars b).length = 4 :=
  rfl

theorem length_text64 (src : List Byte) : (text64 src ++ pad64 src.length).length = (src.length + 2) / 3 * 4 := by
  induction src using text64.induct
  case case1 x y z src ih =>
    have hpad : pad64 (x :: y :: z :: src).length = pad64 src.length := by
      rw [pad64, pad64]
      congr 1
      simp only [List.length_cons]
      omega
    rw [text64, hpad, List.append_assoc, List.length_append, length_chars, ih]
    simp only [List.length_cons]
    omega
  case case2 => simp [text64, pad64, enc64.chars]
  case case3 => simp [text64, pad64, enc64.chars]
  case case4 => rfl

theorem text64_two (x y : Byte) :
    text64 [x, y] ++ pad64 [x, y].length = (enc64.chars (x.toNat <<< 16 ||| y.toNat <<< 8)).take 3 ++ ['='] := by
  simp [text64, pad64]

theorem text64_one (x : Byte) :
    text64 [x] ++ pad64 [x].length = (enc64.chars (x.toNat <<< 16)).take 2 ++ ['=', '='] := by
  simp [text64, pad64]

theorem loop64_eq (src : List Byte) (o : Out) (h : (text64 src ++ pad64 src.length).length < o.room.length) :
    enc64.loop src o = .ok ⟨o.done ++ (text64 src ++ pad64 src.length),
      o.room.drop (text64 src ++ pad64 src.length).length⟩ := by
  induction src using text64.induct generalizing o
  case case1 x y z src ih =>
    have hpad : pad64 (x :: y :: z :: src).length = pad64 src.length := by
      rw [pad64, pad64]
      congr 1
      simp only [List.length_cons]
      omega
    rw [hpad, text64, List.append_assoc] at h ⊢
    rw [List.length_append, length_chars] at h
    rw [enc64.loop, if_neg (by omega), puts_eq (by rw [length_chars]; omega)]
    dsimp only [bind, Except.bind]
    rw [ih, length_chars, @List.length_append _ (enc64.chars _), length_chars, List.drop_drop, List.append_assoc]
    rw [length_chars, List.length_drop]
    omega
  case case2 x y =>
    rw [text64_two] at h ⊢
    have hroom : 4 < o.room.length := h
    rw [enc64.loop, if_neg (Nat.not_le_of_lt hroom)]
    exact puts_eq h.le
  case case3 x =>
    rw [text64_one] at h ⊢
    have hroom : 4 < o.room.length := h
    rw [enc64.loop, if_neg (Nat.not_le_of_lt hroom)]
    exact puts_eq h.le
  case case4 => simp [enc64.loop, text64, pad64, pure, Except.pure]

theorem enc64_eq {out : List Char} (h : (src.length + 2) / 3 * 4 < out.length) :
    ∃ rest, enc64 out src = .ok (text64 src ++ pad64 src.length ++ NUL :: rest) := by
  rw [← length_text64] at h
  have hloop := loop64_eq src ⟨[], out⟩ h
  have hne : out.drop (text64 src ++ pad64 src.length).length ≠ [] := by
    intro hnil
    have := List.drop_eq_nil_iff.mp hnil
    omega
  exact ⟨_, by rw [enc64, hloop]; exact close_eq hne⟩

theorem loop64_room (src : List Byte) (o : Out) (h : o.room ≠ []) :
    ∃ o', enc64.loop src o = .ok o' ∧ o'.room ≠ [] ∧
      o'.done.length + o'.room.length = o.done.length + o.room.length := by
  have hputs {o : Out} {cs : List Char} (hlen : cs.length = 4) (hroom : ¬o.room.length ≤ 4) :
      ∃ o', o.puts cs = .ok o' ∧ o'.room ≠ [] ∧ o'.done.length + o'.room.length = o.done.length + o.room.length := by
    refine ⟨_, puts_eq (by omega), ?_, ?_⟩
    · intro hnil
      have := List.drop_eq_nil_iff.mp hnil
      omega
    · rw [List.length_append, List.length_drop]
      omega
  induction src using text64.induct generalizing o
  case case1 x y z src ih =>
    rw [enc64.loop]
    split
    case isTrue  => exact ⟨o, rfl, h, rfl⟩
    case isFalse hroom =>
      obtain ⟨o', hput, hne, hlen⟩ := hputs (length_chars _) hroom
      obtain ⟨o'', hloop, hne', hlen'⟩ := ih o' hne
      rw [hput]
      exact ⟨o'', hloop, hne', hlen'.trans hlen⟩
  case case2 x y =>
    rw [enc64.loop]
    split
    case isTrue  => exact ⟨o, rfl, h, rfl⟩
    case isFalse hroom => exact hputs rfl hroom
  case case3 x =>
    rw [enc64.loop]
    split
    case isTrue  => exact ⟨o, rfl, h, rfl⟩
    case isFalse hroom => exact hputs rfl hroom
  case case4 => exact ⟨o, rfl, h, rfl⟩

-- A text with its end in a buffer of `n` bytes.
def Terminated (n : Nat) (r : List Char) : Prop :=
  r.length = n ∧ NUL ∈ r

theorem close_terminated (h : o.room ≠ []) : ∃ r, o.close = .ok r ∧ Terminated (o.done.length + o.room.length) r := by
  refine ⟨_, close_eq h, ?_, by simp⟩
  have hpos := List.length_pos_iff.mpr h
  simp only [List.length_append, List.length_cons, List.length_tail]
  omega

theorem enc64_terminated {out : List Char} (h : out ≠ []) (src : List Byte) :
    ∃ r, enc64 out src = .ok r ∧ Terminated out.length r := by
  obtain ⟨o, hloop, hne, hlen⟩ := loop64_room src ⟨[], out⟩ h
  obtain ⟨r, hclose, hr⟩ := close_terminated hne
  rw [hlen] at hr
  refine ⟨r, by rw [enc64, hloop]; exact hclose, ?_⟩
  simpa using hr

-- Base 32

theorem index_tab32 (h : i < 32) : dec32.index (tab32 i) = i := by
  have hall : ∀ i : Fin 32, dec32.index (tab32 i) = i.val := by decide +kernel
  exact hall ⟨i, h⟩

theorem and_shiftRight (k m x : Nat) : (2 ^ k - 1) &&& x >>> m = x / 2 ^ m % 2 ^ k := by
  rw [Nat.and_comm, Nat.and_two_pow_sub_one_eq_mod, Nat.shiftRight_eq_div_pow]

theorem and_shiftLeft (k m x : Nat) : (2 ^ k - 1) <<< m &&& x <<< m = x % 2 ^ k * 2 ^ m := by
  rw [← Nat.shiftLeft_and_distrib, Nat.and_comm, Nat.and_two_pow_sub_one_eq_mod, Nat.shiftLeft_eq]

theorem and_or (j m k x y : Nat) :
    ((2 ^ j - 1) <<< k &&& x <<< k ||| (2 ^ k - 1) &&& y >>> m) = x % 2 ^ j * 2 ^ k + y / 2 ^ m % 2 ^ k := by
  rw [and_shiftLeft, and_shiftRight, or_add (Nat.dvd_mul_left _ _) (Nat.mod_lt _ (Nat.two_pow_pos k))]

theorem chars32_eq (a b c d e : Nat) : enc32.chars a b c d e =
    [tab32 (a / 8 % 32), tab32 (a % 8 * 4 + b / 64 % 4), tab32 (b / 2 % 32), tab32 (b % 2 * 16 + c / 16 % 16),
      tab32 (c % 16 * 2 + d / 128 % 2), tab32 (d / 4 % 32), tab32 (d % 4 * 8 + e / 32 % 8), tab32 (e % 32)] := by
  have h0 : 0x1f &&& a >>> 3 = a / 8 % 32 := and_shiftRight 5 3 a
  have h1 : 0x1c &&& a <<< 2 ||| 0x03 &&& b >>> 6 = a % 8 * 4 + b / 64 % 4 := and_or 3 6 2 a b
  have h2 : 0x1f &&& b >>> 1 = b / 2 % 32 := and_shiftRight 5 1 b
  have h3 : 0x10 &&& b <<< 4 ||| 0x0f &&& c >>> 4 = b % 2 * 16 + c / 16 % 16 := and_or 1 4 4 b c
  have h4 : 0x1e &&& c <<< 1 ||| 0x01 &&& d >>> 7 = c % 16 * 2 + d / 128 % 2 := and_or 4 7 1 c d
  have h5 : 0x1f &&& d >>> 2 = d / 4 % 32 := and_shiftRight 5 2 d
  have h6 : 0x18 &&& d <<< 3 ||| 0x07 &&& e >>> 5 = d % 4 * 8 + e / 32 % 8 := and_or 2 5 3 d e
  have h7 : 0x1f &&& e = e % 32 := by rw [Nat.and_comm]; exact Nat.and_two_pow_sub_one_eq_mod e 5
  rw [enc32.chars, h0, h1, h2, h3, h4, h5, h6, h7]

theorem bytes_eq {u : Nat → Nat} (h : ∀ i, u i < 32) : dec32.bytes u =
    [byte (u 0 * 8 + u 1 / 4 % 8), byte (u 1 % 4 * 64 + u 2 * 2 + u 3 / 16 % 2), byte (u 3 % 16 * 16 + u 4 / 2 % 16),
      byte (u 4 % 2 * 128 + u 5 * 4 + u 6 / 8 % 4), byte (u 6 % 8 * 32 + u 7)] := by
  have h2 := h 2
  have h5 := h 5
  have h7 := h 7
  have hlow (k x : Nat) : (2 ^ k - 1) &&& x = x % 2 ^ k := by rw [Nat.and_comm, Nat.and_two_pow_sub_one_eq_mod]
  have e0 : u 0 <<< 3 ||| 0x7 &&& u 1 >>> 2 = u 0 * 8 + u 1 / 4 % 8 := by
    have hand : 0x7 &&& u 1 >>> 2 = u 1 / 4 % 8 := and_shiftRight 3 2 (u 1)
    rw [hand, Nat.shiftLeft_eq, or_add (k := 3) (by omega) (by omega)]
  have e1 : (0x3 &&& u 1) <<< 6 ||| u 2 <<< 1 ||| 0x1 &&& u 3 >>> 4 = u 1 % 4 * 64 + u 2 * 2 + u 3 / 16 % 2 := by
    have hand : 0x1 &&& u 3 >>> 4 = u 3 / 16 % 2 := and_shiftRight 1 4 (u 3)
    have hand' : 0x3 &&& u 1 = u 1 % 4 := hlow 2 (u 1)
    have hor : u 1 % 4 * 2 ^ 6 ||| u 2 * 2 ^ 1 = u 1 % 4 * 64 + u 2 * 2 := or_add (k := 6) (by omega) (by omega)
    rw [hand, hand', Nat.shiftLeft_eq, Nat.shiftLeft_eq, hor, or_add (k := 1) (by omega) (by omega)]
  have e2 : (0xf &&& u 3) <<< 4 ||| 0xf &&& u 4 >>> 1 = u 3 % 16 * 16 + u 4 / 2 % 16 := by
    have hand : 0xf &&& u 4 >>> 1 = u 4 / 2 % 16 := and_shiftRight 4 1 (u 4)
    have hand' : 0xf &&& u 3 = u 3 % 16 := hlow 4 (u 3)
    rw [hand, hand', Nat.shiftLeft_eq, or_add (k := 4) (by omega) (by omega)]
  have e3 : (0x1 &&& u 4) <<< 7 ||| u 5 <<< 2 ||| 0x3 &&& u 6 >>> 3 = u 4 % 2 * 128 + u 5 * 4 + u 6 / 8 % 4 := by
    have hand : 0x3 &&& u 6 >>> 3 = u 6 / 8 % 4 := and_shiftRight 2 3 (u 6)
    have hand' : 0x1 &&& u 4 = u 4 % 2 := hlow 1 (u 4)
    have hor : u 4 % 2 * 2 ^ 7 ||| u 5 * 2 ^ 2 = u 4 % 2 * 128 + u 5 * 4 := or_add (k := 7) (by omega) (by omega)
    rw [hand, hand', Nat.shiftLeft_eq, Nat.shiftLeft_eq, hor, or_add (k := 2) (by omega) (by omega)]
  have e4 : (0x7 &&& u 6) <<< 5 ||| u 7 = u 6 % 8 * 32 + u 7 := by
    have hand' : 0x7 &&& u 6 = u 6 % 8 := hlow 3 (u 6)
    rw [hand', Nat.shiftLeft_eq, or_add (k := 5) (by omega) (by omega)]
  rw [dec32.bytes, e0, e1, e2, e3, e4]

def text32 : List Byte → List Char
  | a :: b :: c :: d :: e :: src => enc32.chars a.toNat b.toNat c.toNat d.toNat e.toNat ++ text32 src
  | _                            => []

theorem length_chars32 (a b c d e : Nat) : (enc32.chars a b c d e).length = 8 :=
  rfl

theorem index_lt (c : Char) : dec32.index c < 32 := by
  rw [dec32.index]
  cases hc : set32.idxOf? c
  case none   => decide
  case some i =>
    obtain ⟨hi, -⟩ := List.idxOf?_eq_some_iff.mp hc
    exact hi

theorem bytes_chars32 (a b c d e : Byte) :
    dec32.bytes (fun i => dec32.index ((enc32.chars a.toNat b.toNat c.toNat d.toNat e.toNat).getD i NUL)) =
      [a, b, c, d, e] := by
  have ha := a.isLt
  have hb := b.isLt
  have hc := c.isLt
  have hd := d.isLt
  have he := e.isLt
  rw [bytes_eq fun i => index_lt _, chars32_eq]
  simp only [List.getD_cons_zero, List.getD_cons_succ]
  rw [index_tab32 (by omega), index_tab32 (by omega), index_tab32 (by omega), index_tab32 (by omega),
    index_tab32 (by omega), index_tab32 (by omega), index_tab32 (by omega), index_tab32 (by omega)]
  have hdiv (x y m k : Nat) (hk : 0 < k) : (x % m * k + y % k) / k % m = x % m := by
    rw [Nat.add_comm, Nat.add_mul_div_right _ _ hk, Nat.div_eq_of_lt (Nat.mod_lt _ hk), Nat.zero_add, Nat.mod_mod]
  have hmod (x y k : Nat) : (x * k + y % k) % k = y % k := by
    rw [Nat.add_comm, Nat.add_mul_mod_self_right, Nat.mod_mod]
  simp (disch := decide) only [hdiv, hmod]
  rw [byte_eq (y := a) (by omega), byte_eq (y := b) (by omega), byte_eq (y := c) (by omega),
    byte_eq (y := d) (by omega),
    byte_eq (y := e) (by omega)]

theorem fives_induct {P : List Byte → Prop} (nil : P [])
    (cons : ∀ a b c d e src, P src → P (a :: b :: c :: d :: e :: src)) (h : 5 ∣ src.length) : P src := by
  induction src using text32.induct
  case case1 a b c d e src ih =>
    refine cons a b c d e src (ih ?_)
    simp only [List.length_cons] at h
    omega
  case case2 src hne =>
    rcases src with - | ⟨a, - | ⟨b, - | ⟨c, - | ⟨d, - | ⟨e, src⟩⟩⟩⟩⟩
    case nil => exact nil
    case cons.cons.cons.cons.cons => exact absurd rfl (hne a b c d e src)
    all_goals exact absurd h (by simp)

-- What is read back is what was written, where that is a multiple of five bytes.
theorem dec32_text32 (h : 5 ∣ src.length) : dec32.loop (text32 src) = some src := by
  refine fives_induct (P := fun src => dec32.loop (text32 src) = some src) rfl (fun a b c d e src ih => ?_) h
  have hread := bytes_chars32 a b c d e
  rw [text32]
  generalize hcs : enc32.chars a.toNat b.toNat c.toNat d.toNat e.toNat = cs at *
  obtain ⟨c0, c1, c2, c3, c4, c5, c6, c7, rfl⟩ : ∃ c0 c1 c2 c3 c4 c5 c6 c7, cs = [c0, c1, c2, c3, c4, c5, c6, c7] :=
    ⟨_, _, _, _, _, _, _, _, hcs.symm⟩
  simp only [List.cons_append, List.nil_append, dec32.loop, ih, Option.map_some, hread]

theorem length_text32 (h : 5 ∣ src.length) : (text32 src).length = src.length / 5 * 8 := by
  refine fives_induct (P := fun src => (text32 src).length = src.length / 5 * 8) rfl (fun a b c d e src ih => ?_) h
  rw [text32, List.length_append, length_chars32, ih]
  simp only [List.length_cons]
  omega

theorem loop32_eq (h : 5 ∣ src.length) (o : Out) (hroom : (text32 src).length < o.room.length) :
    enc32.loop src o = .ok ⟨o.done ++ text32 src, o.room.drop (text32 src).length⟩ := by
  refine fives_induct (P := fun src => ∀ o : Out, (text32 src).length < o.room.length →
    enc32.loop src o = .ok ⟨o.done ++ text32 src, o.room.drop (text32 src).length⟩) ?_
      (fun a b c d e src ih => ?_) h o hroom
  · intro o _
    simp [enc32.loop, text32, pure, Except.pure]
  · intro o hroom
    rw [text32, List.length_append, length_chars32] at hroom
    rw [enc32.loop, puts_eq (by rw [length_chars32]; omega)]
    dsimp only [bind, Except.bind]
    rw [ih _ (by rw [length_chars32, List.length_drop]; omega), text32, length_chars32, List.length_append,
      length_chars32,
      List.drop_drop, List.append_assoc]

theorem enc32_eq {dest : List Char} (h : 5 ∣ src.length) :
    enc32 dest src =
      if dest.length ≤ src.length / 5 * 8 then .error .nil
      else .ok (text32 src ++ NUL :: dest.drop (src.length / 5 * 8 + 1)) := by
  have hlen := length_text32 h
  have hroom : (8 * src.length + 4) / 5 = src.length / 5 * 8 := by omega
  rw [enc32, hroom]
  split
  case isTrue      => rfl
  case isFalse hgt =>
    have hne : dest.drop (text32 src).length ≠ [] := by
      intro hnil
      have := List.drop_eq_nil_iff.mp hnil
      omega
    rw [loop32_eq h ⟨[], dest⟩ (by rw [hlen]; exact Nat.lt_of_not_le hgt)]
    refine (close_eq hne).trans ?_
    rw [List.tail_drop, hlen, List.nil_append]

theorem set32_mem {i : Nat} (h : i < 32) : (t64d (tab32 i)).isSome = true ∧ tab32 i ≠ NUL := by
  have hall : ∀ i : Fin 32, (t64d (tab32 i)).isSome = true ∧ tab32 i ≠ NUL := by decide +kernel
  exact hall ⟨i, h⟩

theorem set64_mem {i : Nat} (h : i < 64) : (t64d (t64e i)).isSome = true ∧ t64e i ≠ NUL := by
  have hall : ∀ i : Fin 64, (t64d (t64e i)).isSome = true ∧ t64e i ≠ NUL := by decide +kernel
  exact hall ⟨i, h⟩

theorem chars32_mem {a b c d e : Byte} {x : Char} (h : x ∈ enc32.chars a.toNat b.toNat c.toNat d.toNat e.toNat) :
    (t64d x).isSome = true ∧ x ≠ NUL := by
  rw [chars32_eq] at h
  simp only [List.mem_cons, List.not_mem_nil, or_false] at h
  rcases h with rfl | rfl | rfl | rfl | rfl | rfl | rfl | rfl
  all_goals exact set32_mem (by omega)

theorem chars64_mem {b : Nat} {x : Char} (hb : b < 2 ^ 24) (h : x ∈ enc64.chars b) :
    (t64d x).isSome = true ∧ x ≠ NUL := by
  have hhigh : b >>> 18 < 64 := by
    rw [Nat.shiftRight_eq_div_pow]
    omega
  rw [enc64.chars, and_63, and_63, and_63] at h
  simp only [List.mem_cons, List.not_mem_nil, or_false] at h
  rcases h with rfl | rfl | rfl | rfl
  case inl => exact set64_mem hhigh
  all_goals exact set64_mem (Nat.mod_lt _ (by decide))

theorem text32_mem {x : Char} (h : x ∈ text32 src) : (t64d x).isSome = true ∧ x ≠ NUL := by
  induction src using text32.induct
  case case1 a b c d e src ih =>
    rw [text32] at h
    rcases List.mem_append.mp h with h | h
    · exact chars32_mem h
    · exact ih h
  case case2 src hne =>
    rw [text32] at h
    · exact absurd h List.not_mem_nil
    · exact hne

theorem text64_mem {c : Char} (h : c ∈ text64 src) : (t64d c).isSome = true ∧ c ≠ NUL := by
  induction src using text64.induct
  case case1 x y z src ih =>
    have hx := x.isLt
    have hy := y.isLt
    have hz := z.isLt
    have hword := word24 x y z
    rw [text64, hword] at h
    rcases List.mem_append.mp h with h | h
    · exact chars64_mem (by omega) h
    · exact ih h
  case case2 x y =>
    have hx := x.isLt
    have hy := y.isLt
    rw [text64, word16] at h
    exact chars64_mem (by omega) (List.mem_of_mem_take h)
  case case3 x =>
    have hx := x.isLt
    rw [text64, Nat.shiftLeft_eq] at h
    exact chars64_mem (by omega) (List.mem_of_mem_take h)
  case case4 => exact absurd h List.not_mem_nil

end

end Enc
