import Nix.Libmp.Mpadd
import Nix.Libmp.Mpfmt
import Mathlib.Data.List.TakeWhile

-- Numbers from text, and that what is printed is read back.
namespace Libmp

open Enc

-- The text in a buffer.
def cstr (buf : List Char) : List Char :=
  buf.takeWhile (· ≠ NUL)

def t16 (c : Char) : Option Nat :=
  ((set16 ++ ['0', '1', '2', '3', '4', '5', '6', '7', '8', '9', 'a', 'b', 'c', 'd', 'e', 'f']).idxOf? c).map (· % 16)

def t10 (c : Char) : Option Nat :=
  ['0', '1', '2', '3', '4', '5', '6', '7', '8', '9'].idxOf? c

-- The digits from the last to the first, eight of them in one.
def from16.loop : List Nat → Nat → Digit → Mpint → Mpint
  | [],      i, x, b => if i = 0 then b else { b with top := b.top + 1, p := b.p.set b.top x }
  | d :: ds, i, x, b =>
    let x := x ||| BitVec.ofNat 32 d <<< i
    if i + 4 = 32 then
      loop ds 0 0 { b with top := b.top + 1, p := b.p.set b.top x }
    else
      loop ds (i + 4) x b

def from16 (a : List Char) (b : Mpint) : Mpint × List Char :=
  let cs := a.takeWhile fun c => (t16 c).isSome
  let b := mpbits { b with top := 0 } (cs.length * 4)
  (from16.loop (cs.reverse.map fun c => (t16 c).getD 0) 0 0 { b with top := 0 }, a.drop cs.length)

-- The digits of `x` below those of `b`, `i` of them.
def from10.accumulate (b : Mpint) (i x : Nat) : Option Mpint := do
  let pow := uitomp (10 ^ i)
  let r := uitomp x
  let b ← mpmul (b.top + pow.top + 1) b pow b
  return mpadd b r b

-- A billion at a time.
def from10.loop : List Char → Nat → Nat → Mpint → Option (Mpint × List Char)
  | [],     i, x, b => if i = 0 then some (b, []) else (accumulate b i x).map (·, [])
  | c :: a, i, x, b =>
    match t10 c with
    | none   => if i = 0 then some (b, c :: a) else (accumulate b i x).map (·, c :: a)
    | some y =>
      if i + 1 = 9 then do
        let b ← accumulate b 9 (x * 10 + y)
        loop a 0 0 b
      else
        loop a (i + 1) (x * 10 + y) b

def from10 (a : List Char) (b : Mpint) : Option (Mpint × List Char) :=
  from10.loop a 0 0 { b with top := 0 }

-- Without the zeros that it begins with, but one byte at least.
def betomp.skip : List Byte → List Byte
  | c :: d :: src => if c = 0 then skip (d :: src) else c :: d :: src
  | src           => src

-- The bytes from the first to the last, `m` digits of them, the next at bit `s` of its digit.
def betomp.loop : List Byte → Nat → Nat → Digit → Vec → Vec
  | [],       _, _, _, p => p
  | c :: src, m, s, x, p =>
    let x := x ||| c.setWidth 32 <<< s
    if s < 8 then loop src (m - 1) 24 0 (p.set (m - 1) x) else loop src m (s - 8) x p

def betomp (src : List Byte) (b : Mpint) : Mpint :=
  let src := betomp.skip src
  let n := src.length
  let b := mpbits b (n * 8)
  let top := DIGITS (n * 8)
  { b with top, p := betomp.loop src top ((n - 1) * 8 % 32) 0 b.p }

def from64 (a : List Char) (b : Mpint) : Mpint × List Char :=
  let cs := a.takeWhile fun c => (t64d c).isSome
  let b := mpbits b (cs.length * 6)
  (betomp (dec64 cs.length cs) b, a.drop cs.length)

-- The characters are looked up in the table of base 64.
def from32 (a : List Char) (b : Mpint) : Mpint × List Char :=
  let cs := a.takeWhile fun c => (t64d c).isSome
  let b := mpbits b (cs.length * 5)
  match dec32 cs.length cs with
  | none   => (b, a)
  | some p => (betomp p b, a.drop cs.length)

-- What follows the signs, and the sign.
def strtomp.sign : List Char → Int → List Char × Int
  | [],     s => ([], s)
  | c :: a, s => if c = '-' then sign a (-s) else (c :: a, s)

def strtomp.number (a : List Char) (base : Nat) (b : Mpint) : Option (Mpint × List Char) :=
  match base with
  | 10 => from10 a b
  | 32 => some (from32 a b)
  | 64 => some (from64 a b)
  | _  => some (from16 a b)

-- The number, in a new one, and what is left of the text.
def strtomp (a : List Char) (base : Nat) : Option (Mpint × List Char) := do
  let (a, sign) := strtomp.sign (a.dropWhile fun c => c = ' ' ∨ c = '\t') 1
  let (b, e) ← strtomp.number a base mpnew
  -- if no characters parsed, there wasn't a number to convert
  if e.length = a.length then
    none
  else
    return ({ mpnorm b with sign }, e)

section

variable {b b1 b2 : Mpint} {n m i k x s : Nat} {cs : List Char} {ds : List Nat} {p : Vec}

-- Base 16

theorem from16_loop (hds : ∀ d ∈ ds, d < 16) (hi : 4 ∣ i) (hlt : i < 32) (y : Digit)
    (hy : y.toNat < 2 ^ i) (b : Mpint) :
    (from16.loop ds i y b).mag = b.mag + (y.toNat + 2 ^ i * Digits.num 16 ds.reverse) * base ^ b.top ∧
    (from16.loop ds i y b).sign = b.sign := by
  induction ds generalizing i y b
  case nil          =>
    rw [from16.loop]
    split
    case isTrue hzero =>
      rw [hzero, pow_zero] at hy
      have hy : y.toNat = 0 := by omega
      simp [hy, Digits.num]
    case isFalse      =>
      refine ⟨?_, rfl⟩
      rw [Mpint.mag, val_set_succ]
      simp [Digits.num, Mpint.mag]
  case cons d ds ih =>
    have hd := hds d List.mem_cons_self
    have hrest := fun e he => hds e (List.mem_cons_of_mem d he)
    have hor : (y ||| BitVec.ofNat 32 d <<< i).toNat = y.toNat + d * 2 ^ i := by
      have hshift : (BitVec.ofNat 32 d <<< i).toNat = d * 2 ^ i := by
        have hroom : d * 2 ^ i < 2 ^ 32 := by
          calc d * 2 ^ i < 2 ^ 4 * 2 ^ i := Nat.mul_lt_mul_of_pos_right hd (Nat.two_pow_pos i)
            _ = 2 ^ (4 + i) := (pow_add ..).symm
            _ ≤ 2 ^ 32 := Nat.pow_le_pow_right (by decide) (by omega)
        rw [BitVec.toNat_shiftLeft, BitVec.toNat_ofNat, Nat.mod_eq_of_lt (by omega : d < 2 ^ 32),
          Nat.shiftLeft_eq, Nat.mod_eq_of_lt hroom]
      rw [BitVec.toNat_or, hshift, Nat.or_comm, or_add ⟨d, Nat.mul_comm ..⟩ hy, Nat.add_comm]
    have hbound : y.toNat + d * 2 ^ i < 2 ^ (i + 4) := by
      have hle : d * 2 ^ i ≤ 15 * 2 ^ i := Nat.mul_le_mul_right _ (Nat.le_of_lt_succ hd)
      rw [pow_add]
      omega
    rw [from16.loop, List.reverse_cons, Digits.num_append]
    simp only [List.length_singleton, pow_one]
    have hone : Digits.num 16 [d] = d := by simp [Digits.num]
    split
    case isTrue hfull =>
      obtain ⟨hmag, hsign⟩ := ih (i := 0) hrest (by decide) (by decide) 0 (by decide)
        { b with top := b.top + 1, p := b.p.set b.top (y ||| BitVec.ofNat 32 d <<< i) }
      refine ⟨hmag.trans ?_, hsign⟩
      have hi : i = 28 := by omega
      have hzero : (0 : Digit).toNat = 0 := rfl
      rw [hone, Mpint.mag, val_set_succ, hor, hi, hzero, base]
      simp only [Mpint.mag]
      ring
    case isFalse hmore =>
      obtain ⟨hmag, hsign⟩ := ih (i := i + 4) hrest (by omega) (by omega) (y ||| BitVec.ofNat 32 d <<< i)
        (by rw [hor]; exact hbound) b
      refine ⟨hmag.trans ?_, hsign⟩
      rw [hone, hor, pow_add]
      ring

-- Bytes

theorem betomp_skip (src : List Byte) :
    Digits.num 256 ((betomp.skip src).map BitVec.toNat) = Digits.num 256 (src.map BitVec.toNat) := by
  induction src using betomp.skip.induct
  case case1 src ih =>
    have hzero : (0 : Byte).toNat = 0 := rfl
    rw [betomp.skip, if_pos rfl, ih, List.map_cons (a := 0), Digits.num_cons, hzero, Nat.zero_mul, Nat.zero_add]
  case case2 c d src hc => rw [betomp.skip, if_neg hc]
  case case3 src hsrc   => rw [betomp.skip]; exact hsrc

theorem betomp_loop (src : List Byte) (m s : Nat) (y : Digit) (p : Vec) (hlen : 8 * src.length + 24 = 32 * m + s)
    (hs : s ≤ 24) (hs8 : 8 ∣ s) (hy : 2 ^ (s + 8) ∣ y.toNat) :
    val (betomp.loop src m s y p) m = y.toNat * base ^ (m - 1) + Digits.num 256 (src.map BitVec.toNat) ∧
    ∀ i, m ≤ i → betomp.loop src m s y p i = p i := by
  induction src generalizing m s y p
  case nil           =>
    rw [List.length_nil] at hlen
    obtain rfl : m = 0 := by omega
    obtain rfl : s = 24 := by omega
    have hzero : y.toNat = 0 := Nat.eq_zero_of_dvd_of_lt hy y.isLt
    exact ⟨by simp [hzero, Digits.num], fun i _ => rfl⟩
  case cons c src ih =>
    rw [List.length_cons] at hlen
    have hc := c.isLt
    have hor : (y ||| c.setWidth 32 <<< s).toNat = y.toNat + c.toNat * 2 ^ s := by
      have hroom : c.toNat * 2 ^ s < 2 ^ (s + 8) := by
        rw [Nat.add_comm, pow_add]
        exact Nat.mul_lt_mul_of_pos_right hc (Nat.two_pow_pos s)
      have hword : 2 ^ (s + 8) ≤ 2 ^ 32 := Nat.pow_le_pow_right (by decide) (by omega)
      have hshift : (c.setWidth 32 <<< s).toNat = c.toNat * 2 ^ s := by
        rw [BitVec.toNat_shiftLeft, BitVec.toNat_setWidth, Nat.mod_eq_of_lt (by omega : c.toNat < 2 ^ 32),
          Nat.shiftLeft_eq, Nat.mod_eq_of_lt (hroom.trans_le hword)]
      rw [BitVec.toNat_or, hshift, or_add hy hroom]
    obtain ⟨t, rfl⟩ := hs8
    obtain ⟨m, rfl⟩ : ∃ m', m = m' + 1 := ⟨m - 1, by omega⟩
    have hsrc : src.length = 4 * m + t := by omega
    have hpow : 256 ^ src.length = 2 ^ (8 * t) * base ^ m := by
      calc 256 ^ src.length = (2 ^ 8) ^ (4 * m + t) := by rw [hsrc]; rfl
        _ = 2 ^ (8 * t + 32 * m) := by
          rw [← pow_mul]
          congr 1
          omega
        _ = 2 ^ (8 * t) * base ^ m := by rw [pow_add, pow_mul 2 32, base]
    rw [betomp.loop, List.map_cons, Digits.num_cons, List.length_map, hpow, Nat.add_sub_cancel]
    split
    case isTrue hlast =>
      obtain rfl : t = 0 := by omega
      obtain ⟨hval, hsame⟩ :=
        ih m 24 0 (p.set m (y ||| c.setWidth 32 <<< (8 * 0))) (by omega) le_rfl (by decide) (Nat.dvd_zero _)
      have hdigit := hsame m le_rfl
      refine ⟨?_, fun i hi => (hsame i (by omega)).trans (Function.update_of_ne (by omega) ..)⟩
      rw [val_succ, hval, hdigit]
      have hset : (p.set m (y ||| c.setWidth 32 <<< (8 * 0))) m = y ||| c.setWidth 32 <<< (8 * 0) :=
        Function.update_self ..
      have hzero : (0 : Digit).toNat = 0 := rfl
      rw [hset, hor, hzero]
      ring
    case isFalse hmore =>
      obtain ⟨t, rfl⟩ : ∃ t', t = t' + 1 := ⟨t - 1, by omega⟩
      have hs' : 8 * (t + 1) - 8 = 8 * t := by omega
      rw [hs']
      have hdvd : 2 ^ (8 * t + 8) ∣ (y ||| c.setWidth 32 <<< (8 * (t + 1))).toNat := by
        rw [hor]
        exact Nat.dvd_add ((Nat.pow_dvd_pow 2 (by omega)).trans hy) (Nat.dvd_mul_left _ _)
      obtain ⟨hval, hsame⟩ := ih (m + 1) (8 * t) (y ||| c.setWidth 32 <<< (8 * (t + 1))) p (by omega) (by omega)
        (Nat.dvd_mul_right 8 t) hdvd
      refine ⟨?_, hsame⟩
      rw [hval, hor, Nat.add_sub_cancel]
      ring

theorem betomp_mag (src : List Byte) (b : Mpint) : (betomp src b).mag = Digits.num 256 (src.map BitVec.toNat) := by
  rw [← betomp_skip, betomp]
  generalize betomp.skip src = src
  have hdigits : DIGITS (src.length * 8) = (src.length + 3) / 4 := by
    rw [DIGITS]
    omega
  rw [Mpint.mag, hdigits]
  rcases Nat.eq_zero_or_pos src.length with hnil | hpos
  · have hnil := List.eq_nil_of_length_eq_zero hnil
    rw [hnil]
    rfl
  · obtain ⟨hval, -⟩ := betomp_loop src ((src.length + 3) / 4) ((src.length - 1) * 8 % 32) 0
      (mpbits b (src.length * 8)).p (by omega) (by omega) (by omega) (Nat.dvd_zero _)
    rw [hval]
    simp

-- What is read of a text

theorem t16_hex (h : k < 16) : t16 (hex k) = some k ∧ hex k ≠ NUL := by
  have hall : ∀ k : Fin 16, t16 (hex k) = some k.val ∧ hex k ≠ NUL := by decide
  exact hall ⟨k, h⟩

theorem t10_dec (h : k < 10) : t10 (dec k) = some k ∧ dec k ≠ NUL := by
  have hall : ∀ k : Fin 10, t10 (dec k) = some k.val ∧ dec k ≠ NUL := by decide
  exact hall ⟨k, h⟩

theorem takeWhile_text {q : Char → Bool} {rest : List Char} (hcs : ∀ c ∈ cs, q c = true)
    (hrest : ∀ c ∈ rest.head?, q c = false) : (cs ++ rest).takeWhile q = cs := by
  induction cs
  case nil          =>
    cases rest
    case nil         => rfl
    case cons c rest => exact List.takeWhile_cons_of_neg (by rw [hrest c rfl]; decide)
  case cons c cs ih =>
    rw [List.cons_append, List.takeWhile_cons_of_pos (hcs c List.mem_cons_self),
      ih fun d hd => hcs d (List.mem_cons_of_mem c hd)]

theorem from16_text (hds : ∀ d ∈ ds, d < 16) (b : Mpint) : (from16 (ds.map hex) b).fst.mag = Digits.num 16 ds ∧
    (from16 (ds.map hex) b).snd = [] := by
  have htake : (ds.map hex).takeWhile (fun c => (t16 c).isSome) = ds.map hex := by
    rw [List.takeWhile_eq_self_iff]
    intro c hc
    obtain ⟨d, hd, rfl⟩ := List.mem_map.mp hc
    rw [(t16_hex (hds d hd)).left]
    rfl
  have hread : (ds.map hex).reverse.map (fun c => (t16 c).getD 0) = ds.reverse := by
    rw [← List.map_reverse, List.map_map]
    refine (List.map_congr_left fun d hd => ?_).trans (List.map_id _)
    rw [Function.comp_apply, (t16_hex (hds d (List.mem_reverse.mp hd))).left]
    rfl
  rw [from16, htake, hread]
  refine ⟨?_, List.drop_length⟩
  obtain ⟨hmag, -⟩ := @from16_loop 0 ds.reverse (fun d hd => hds d (List.mem_reverse.mp hd)) (by decide : 4 ∣ 0)
    (by decide) 0 (by decide) { mpbits { b with top := 0 } ((ds.map hex).length * 4) with top := 0 }
  refine hmag.trans ?_
  have hzero : (0 : Digit).toNat = 0 := rfl
  rw [Mpint.mag, val_zero, hzero, List.reverse_reverse, pow_zero, pow_zero]
  ring

theorem accumulate_spec (hsign : b.sign = 1) (hi : i ≤ 9) (hx : x < 10 ^ i) :
    ∃ b', from10.accumulate b i x = some b' ∧ b'.Normal ∧ b'.sign = 1 ∧ b'.mag = b.mag * 10 ^ i + x := by
  have hpow : 10 ^ i < base := Nat.lt_of_le_of_lt (Nat.pow_le_pow_right (by decide) hi) (by decide)
  obtain ⟨hpmag, -, hpsign, hptop⟩ := uitomp_spec hpow
  obtain ⟨hrmag, hrnorm, hrsign, -⟩ := uitomp_spec (hx.trans hpow)
  obtain ⟨c, hc, hcnorm, hcmag, hcsign⟩ := @mpmul_mag (b.top + (uitomp (10 ^ i)).top + 1) b (uitomp (10 ^ i)) (by omega)
    (by omega) b
  rw [hsign, hpsign, Int.one_mul, ite_self] at hcsign
  obtain ⟨hmag, hnorm, hsign'⟩ := mpadd_spec hcnorm hrnorm hcsign hrsign c
  refine ⟨_, by rw [from10.accumulate, hc]; rfl, hnorm, hsign', ?_⟩
  rw [hmag, hcmag, hpmag, hrmag]

theorem from10_loop (hds : ∀ d ∈ ds, d < 10) (hi : i < 9) (hx : x < 10 ^ i) (hsign : b.sign = 1) :
    ∃ b', from10.loop (ds.map dec) i x b = some (b', []) ∧
      b'.mag = (b.mag * 10 ^ i + x) * 10 ^ ds.length + Digits.num 10 ds := by
  induction ds generalizing i x b
  case nil          =>
    rw [List.map_nil, from10.loop]
    split
    case isTrue hzero =>
      rw [hzero, pow_zero] at hx
      refine ⟨b, rfl, ?_⟩
      have hx : x = 0 := by omega
      simp [hx, hzero, Digits.num]
    case isFalse      =>
      obtain ⟨b', hb', -, -, hmag⟩ := accumulate_spec hsign hi.le hx
      refine ⟨b', by rw [hb']; rfl, ?_⟩
      simp [hmag, Digits.num]
  case cons d ds ih =>
    have hd := hds d List.mem_cons_self
    have hrest := fun e he => hds e (List.mem_cons_of_mem d he)
    have hx' : x * 10 + d < 10 ^ (i + 1) := by
      rw [pow_succ]
      omega
    rw [List.map_cons, from10.loop, (t10_dec hd).left]
    dsimp only
    rw [Digits.num_cons, List.length_cons]
    split
    case isTrue hfull =>
      obtain rfl : i = 8 := by omega
      obtain ⟨c, hc, -, hcsign, hcmag⟩ := accumulate_spec hsign le_rfl hx'
      obtain ⟨b', hb', hmag⟩ := ih hrest (i := 0) (x := 0) (by decide) (by decide) hcsign
      refine ⟨b', by rw [hc]; exact hb', ?_⟩
      rw [hmag, hcmag]
      ring
    case isFalse hmore =>
      obtain ⟨b', hb', hmag⟩ := ih hrest (i := i + 1) (by omega) hx' hsign
      refine ⟨b', hb', ?_⟩
      rw [hmag]
      ring

theorem from64_text (src : List Byte) (b : Mpint) :
    (from64 (text64 src ++ pad64 src.length) b).fst.mag = Digits.num 256 (src.map BitVec.toNat) ∧
    (from64 (text64 src ++ pad64 src.length) b).snd = pad64 src.length := by
  have htake : (text64 src ++ pad64 src.length).takeWhile (fun c => (t64d c).isSome) = text64 src := by
    refine takeWhile_text (fun c hc => (text64_mem hc).left) fun c hc => ?_
    have hmem := List.mem_of_mem_head? hc
    rw [List.eq_of_mem_replicate hmem]
    decide
  have hlen := length_text64 src
  rw [List.length_append, pad64, List.length_replicate] at hlen
  have hdec : dec64 (text64 src).length (text64 src) = src :=
    dec64_text64 src 0 (text64 src).length [] (by rw [List.length_nil]; omega)
  rw [from64, htake, hdec]
  exact ⟨betomp_mag .., List.drop_left⟩

theorem from32_text {src : List Byte} (h : 5 ∣ src.length) (b : Mpint) :
    (from32 (text32 src) b).fst.mag = Digits.num 256 (src.map BitVec.toNat) ∧ (from32 (text32 src) b).snd = [] := by
  have htake : (text32 src).takeWhile (fun c => (t64d c).isSome) = text32 src :=
    List.takeWhile_eq_self_iff.mpr fun c hc => (text32_mem hc).left
  have hlen := length_text32 h
  have hdec : dec32 (text32 src).length (text32 src) = some src := by
    rw [dec32, if_neg (by omega), dec32_text32 h]
  rw [from32, htake, hdec]
  exact ⟨betomp_mag .., List.drop_length⟩

-- What is lost in base 32: the zeros that the bytes are filled up with are read back as the lowest.
def readback (b : Mpint) (base : Nat) : Nat :=
  if base = 32 then b.mag * 256 ^ ((padded b).length - (bigendian b).length) else b.mag

-- What is not read in base 64.
def unread (b : Mpint) (base : Nat) : List Char :=
  if base = 64 then pad64 (bigendian b).length else []

theorem padded_num (b : Mpint) : Digits.num 256 ((padded b).map BitVec.toNat) =
    b.mag * 256 ^ ((padded b).length - (bigendian b).length) := by
  have hzeros (n : Nat) : Digits.num 256 (List.replicate n 0) = 0 := by
    rw [← Digits.num_dropWhile]
    have hnil : (List.replicate n 0).dropWhile (fun d : Nat => decide (d = 0)) = [] := by
      rw [List.dropWhile_eq_nil_iff]
      intro d hd
      exact decide_eq_true (List.eq_of_mem_replicate hd)
    rw [hnil]
    rfl
  have hzero : (0 : Byte).toNat = 0 := rfl
  rw [padded, List.map_append, List.map_replicate, hzero, Digits.num_append, bigendian_num, hzeros, List.length_append,
    List.length_replicate, List.length_replicate, Nat.add_sub_cancel_left, Nat.add_zero]

theorem number_body (b : Mpint) (base : Nat) :
    ∃ b', strtomp.number (body b base) base mpnew = some (b', unread b base) ∧ b'.mag = readback b base := by
  have h64 := from64_text (bigendian b) mpnew
  have h32 := from32_text (padded_length b).left mpnew
  obtain ⟨hnum, hlt⟩ := digits10_num b
  obtain ⟨b10, h10, h10mag⟩ := from10_loop hlt (by decide : 0 < 9) (by decide : 0 < 10 ^ 0) (rfl : mpnew.sign = 1)
  have h16 := @from16_text (strip16 b) (fun _ => strip16_lt) mpnew
  have hzero : mpnew.mag = 0 := val_zero zeros
  rw [bigendian_num] at h64
  rw [padded_num] at h32
  rw [strip16_num] at h16
  rw [hnum, hzero, Nat.zero_mul, Nat.zero_add, Nat.zero_mul, Nat.zero_add] at h10mag
  by_cases hten : base = 10
  · subst hten
    exact ⟨b10, h10, h10mag⟩
  by_cases hthirty : base = 32
  · subst hthirty
    exact ⟨_, congrArg some (Prod.ext rfl h32.right), h32.left⟩
  by_cases hsixty : base = 64
  · subst hsixty
    exact ⟨_, congrArg some (Prod.ext rfl h64.right), h64.left⟩
  have hbody : body b base = (strip16 b).map hex := by
    rw [body.eq_def]
    split
    · exact absurd rfl hsixty
    · exact absurd rfl hthirty
    · exact absurd rfl hten
    · rfl
  have hnumber : strtomp.number (body b base) base mpnew = some (from16 (body b base) mpnew) := by
    rw [strtomp.number.eq_def]
    split
    · exact absurd rfl hten
    · exact absurd rfl hthirty
    · exact absurd rfl hsixty
    · rfl
  rw [hnumber, hbody, unread, readback, if_neg hsixty, if_neg hthirty]
  exact ⟨_, congrArg some (Prod.ext rfl h16.right), h16.left⟩

-- The text is of characters that are digits in base 64, and of what it is filled up with.
theorem body_mem (b : Mpint) (base : Nat) :
    ∃ cs, body b base = cs ++ unread b base ∧ cs ≠ [] ∧ ∀ c ∈ cs, (t64d c).isSome = true ∧ c ≠ NUL := by
  have h10 := digits10_num b
  have h10len := digits10_length b
  have h16len := strip16_length b
  have h32 := padded_length b
  have h32len := length_text32 h32.left
  have h64 := length_text64 (bigendian b)
  have hpos : 0 < (bigendian b).length := by
    rw [(bigendian_length b).left, nbytes]
    exact Nat.succ_pos _
  have hpadded : (bigendian b).length ≤ (padded b).length := by
    rw [padded, List.length_append]
    exact Nat.le_add_right _ _
  have hdec : ∀ d : Fin 10, (t64d (dec d)).isSome = true := by decide
  have hhex : ∀ d : Fin 16, (t64d (hex d)).isSome = true := by decide
  have hlt : ∀ d ∈ strip16 b, d < 16 := fun _ => strip16_lt
  rw [body.eq_def]
  split
  · refine ⟨text64 (bigendian b), rfl, ?_, fun c hc => text64_mem hc⟩
    rw [List.length_append, pad64, List.length_replicate] at h64
    exact List.ne_nil_of_length_pos (by omega)
  · refine ⟨text32 (padded b), (List.append_nil _).symm, ?_, fun c hc => text32_mem hc⟩
    exact List.ne_nil_of_length_pos (by omega)
  · refine ⟨(digits10 b).map dec, (List.append_nil _).symm, ?_, fun c hc => ?_⟩
    · exact List.ne_nil_of_length_pos (by rw [List.length_map]; exact h10len.left)
    · obtain ⟨d, hd, rfl⟩ := List.mem_map.mp hc
      exact ⟨hdec ⟨d, h10.right d hd⟩, (t10_dec (h10.right d hd)).right⟩
  · rename_i hsixty _ _
    rw [unread, if_neg hsixty]
    refine ⟨(strip16 b).map hex, (List.append_nil _).symm, ?_, fun c hc => ?_⟩
    · exact List.ne_nil_of_length_pos (by rw [List.length_map]; exact h16len.left)
    · obtain ⟨d, hd, rfl⟩ := List.mem_map.mp hc
      exact ⟨hhex ⟨d, hlt d hd⟩, (t16_hex (hlt d hd)).right⟩

theorem body_terminated (b : Mpint) (base : Nat) : ∀ c ∈ body b base, c ≠ NUL := by
  obtain ⟨cs, hbody, -, hcs⟩ := body_mem b base
  intro c hc
  rw [hbody] at hc
  rcases List.mem_append.mp hc with hc | hc
  · exact (hcs c hc).right
  · rw [unread] at hc
    split at hc
    · rw [List.eq_of_mem_replicate hc]
      decide
    · exact absurd hc List.not_mem_nil

theorem strtomp_body (b : Mpint) (base : Nat) (hsign : b.sign = 1 ∨ b.sign = -1) :
    ∃ b', strtomp ((if b.sign < 0 then ['-'] else []) ++ body b base) base = some (b', unread b base) ∧
      b'.Normal ∧ b'.sign = b.sign ∧ b'.mag = readback b base := by
  obtain ⟨c, hc, hmag⟩ := number_body b base
  obtain ⟨cs, hbody, hne, hcs⟩ := body_mem b base
  obtain ⟨d, cs, rfl⟩ := List.exists_cons_of_ne_nil hne
  obtain ⟨hd, -⟩ := hcs d List.mem_cons_self
  have hstop : ¬(unread b base).length = (d :: (cs ++ unread b base)).length := by
    rw [List.length_cons, List.length_append]
    omega
  rw [List.cons_append] at hbody
  rw [hbody] at hc ⊢
  generalize cs ++ unread b base = ds at *
  have hspace : (d :: ds).dropWhile (fun c => decide (c = ' ' ∨ c = '\t')) = d :: ds := by
    refine List.dropWhile_cons_of_neg fun h => ?_
    rcases of_decide_eq_true h with rfl | rfl
    · exact absurd hd (by decide)
    · exact absurd hd (by decide)
  have hminus : d ≠ '-' := by
    rintro rfl
    exact absurd hd (by decide)
  have hread (s : Int) : strtomp.sign (d :: ds) s = (d :: ds, s) := by rw [strtomp.sign, if_neg hminus]
  refine ⟨{ mpnorm c with sign := b.sign }, ?_, mpnorm_normal c, rfl, (mpnorm_mag c).trans hmag⟩
  rcases hsign with hsign | hsign
  · rw [hsign, if_neg (by decide), List.nil_append, strtomp, hspace, hread]
    dsimp only
    rw [hc]
    exact if_neg hstop
  · rw [hsign, if_pos (by decide), List.singleton_append, strtomp, List.dropWhile_cons_of_neg (by decide), strtomp.sign,
      if_pos rfl, hread]
    dsimp only
    rw [hc]
    exact if_neg hstop

theorem cstr_text {cs rest : List Char} (h : ∀ c ∈ cs, c ≠ NUL) : cstr (cs ++ NUL :: rest) = cs := by
  refine takeWhile_text (fun c hc => decide_eq_true (h c hc)) fun c hc => ?_
  rw [← Option.mem_some_iff.mp hc]
  rfl

end

namespace Mpint

-- What is above the digits does not count.
structure Equal (b c : Mpint) : Prop where
  sign  : b.sign = c.sign
  top   : b.top = c.top
  digit : ∀ i < b.top, b.p i = c.p i

theorem Equal.mag {b c : Mpint} (h : Equal b c) : b.mag = c.mag := by
  rw [Mpint.mag, Mpint.mag, ← h.top]
  exact val_congr h.digit

theorem Normal.equal {b c : Mpint} (hb : b.Normal) (hc : c.Normal) (hsign : b.sign = c.sign) (hmag : b.mag = c.mag) :
    Equal b c := by
  have htop : b.top = c.top :=
    Nat.le_antisymm (hb.top_le (hmag.trans_lt c.mag_lt)) (hc.top_le (hmag.symm.trans_lt b.mag_lt))
  refine ⟨hsign, htop, fun i hi => BitVec.eq_of_toNat_eq ?_⟩
  have hdigit (d : Mpint) (hi : i < d.top) : Digits.digit base d.mag i = (d.p i).toNat :=
    Digits.digit_val (fun j _ => digit_lt d.p j) hi
  rw [← hdigit b hi, ← hdigit c (htop ▸ hi), hmag]

end Mpint

-- What is printed in a new buffer is read back, all of it.
def RoundTrip (b : Mpint) (base : Nat) : Prop :=
  ∀ buf : List Char, buf.length = mptoa.len b →
    ∃ r c, mptoa b base buf = .ok r ∧ strtomp (cstr r) base = some (c, []) ∧ b.Equal c

-- In a buffer of any length it is printed to the end, or there is an error.
def Fits (b : Mpint) (base : Nat) : Prop :=
  ∀ buf : List Char, Sound buf.length (mptoa b base buf)

section

variable {b : Mpint}

theorem roundTrip_iff (hb : b.Normalised) (base : Nat) :
    RoundTrip b base ↔ readback b base = b.mag ∧ unread b base = [] := by
  obtain ⟨c, hread, hnorm, hsign, hmag⟩ := strtomp_body b base hb.sign
  have htext : ∀ d ∈ (if b.sign < 0 then ['-'] else []) ++ body b base, d ≠ NUL := by
    intro d hd
    rcases List.mem_append.mp hd with hd | hd
    · split at hd
      · rw [List.mem_singleton.mp hd]
        decide
      · exact absurd hd List.not_mem_nil
    · exact body_terminated b base d hd
  constructor
  case mp  =>
    intro h
    obtain ⟨r, c', hr, hread', heq⟩ := h (List.replicate (mptoa.len b) NUL) (List.length_replicate ..)
    obtain ⟨rest, hrest⟩ := @mptoa_eq b (List.replicate (mptoa.len b) NUL) hb.normal base (List.length_replicate ..)
    obtain rfl := Except.ok.inj (hr.symm.trans hrest)
    rw [cstr_text htext, hread] at hread'
    obtain ⟨rfl, hnil⟩ := Prod.mk.inj (Option.some.inj hread')
    exact ⟨hmag.symm.trans heq.mag.symm, hnil⟩
  case mpr =>
    rintro ⟨hback, hnil⟩ buf hbuf
    obtain ⟨rest, hrest⟩ := mptoa_eq hb.normal base hbuf
    refine ⟨_, c, hrest, ?_, hb.normal.equal hnorm hsign.symm (hback.symm.trans hmag.symm)⟩
    rw [cstr_text htext, hread, hnil]

theorem padded_eq (b : Mpint) : readback b 32 = b.mag ↔ b.mag = 0 ∨ 5 ∣ nbytes b.mag := by
  have hlen := (bigendian_length b).left
  rw [readback, if_pos rfl, padded, List.length_append, List.length_replicate, Nat.add_sub_cancel_left, hlen]
  constructor
  case mp  =>
    intro h
    by_contra hnot
    push Not at hnot
    obtain ⟨hne, hfive⟩ := hnot
    have hpow : 256 ^ 1 ≤ 256 ^ ((5 - nbytes b.mag % 5) % 5) := Nat.pow_le_pow_right (by decide) (by omega)
    have hmul := Nat.mul_le_mul_left b.mag hpow
    omega
  case mpr =>
    rintro (hzero | hfive)
    · rw [hzero, Nat.zero_mul]
    · have hpad : (5 - nbytes b.mag % 5) % 5 = 0 := by omega
      rw [hpad, pow_zero, Nat.mul_one]

theorem pad64_eq_nil (b : Mpint) : unread b 64 = [] ↔ 3 ∣ nbytes b.mag := by
  rw [unread, if_pos rfl, pad64, List.replicate_eq_nil_iff, (bigendian_length b).left]
  omega

-- Base 32 gives a number back where its bytes need not be filled up, base 64 where they are three by three.
theorem strtomp_mptoa : ∀ b : Mpint, b.Normalised → ∀ base, base = 10 ∨ base = 16 ∨ base = 32 ∨ base = 64 →
    (RoundTrip b base ∧ Fits b base ↔ base = 10 ∨ base = 16 ∨
      base = 32 ∧ (b.mag = 0 ∨ 5 ∣ nbytes b.mag) ∨ base = 64 ∧ 3 ∣ nbytes b.mag) := by
  intro b hb base hbase
  have hfits : Fits b base := fun buf => mptoa_sound hb.normal base buf
  rw [and_iff_left hfits, roundTrip_iff hb]
  rcases hbase with rfl | rfl | rfl | rfl
  · exact iff_of_true ⟨rfl, rfl⟩ (.inl rfl)
  · exact iff_of_true ⟨rfl, rfl⟩ (.inr (.inl rfl))
  · have hread : unread b 32 = [] := rfl
    rw [padded_eq, and_iff_left hread]
    simp
  · have hback : readback b 64 = b.mag := rfl
    rw [pad64_eq_nil, and_iff_right hback]
    simp

theorem one_normalised : (uitomp 1).Normalised := by
  obtain ⟨-, hnorm, hsign, -⟩ := uitomp_spec (by decide : 1 < base)
  exact ⟨hnorm, .inl hsign, fun _ => hsign⟩

theorem strtomp_mptoa_one : RoundTrip (uitomp 1) 10 ∧ Fits (uitomp 1) 10 :=
  (strtomp_mptoa (uitomp 1) one_normalised 10 (.inl rfl)).mpr (.inl rfl)

-- One is read back as 2 ^ 32 in base 32, and in base 64 not all of the text is read.
theorem one_lost : (uitomp 1).Normalised ∧ ¬RoundTrip (uitomp 1) 32 ∧ ¬RoundTrip (uitomp 1) 64 := by
  refine ⟨one_normalised, ?_, ?_⟩
  · rw [roundTrip_iff one_normalised]
    exact fun h => absurd h.left (by decide)
  · rw [roundTrip_iff one_normalised]
    exact fun h => absurd h.right (by decide)

end

end Libmp
