import Nix.Lib.Memory
import Nix.Lib.Except

namespace Libc

section

open LittleEndian (encode decode)

abbrev BIT8SZ  : Nat := 1
abbrev BIT16SZ : Nat := 2
abbrev BIT32SZ : Nat := 4
abbrev BIT64SZ : Nat := 8

abbrev QIDSZ : Nat := BIT8SZ + BIT32SZ + BIT64SZ

-- The fixed part of an encoding with its count, and with the counts of the strings.
abbrev STATFIXLEN : Nat := BIT16SZ + QIDSZ + 5 * BIT16SZ + 4 * BIT32SZ + 1 * BIT64SZ

-- What a `char*` points to, up to the byte that ends it.
@[ext]
structure CStr where
  bytes   : List UInt8
  nulfree : 0 ∉ bytes

theorem nulfree_nil : (0 : UInt8) ∉ [] := List.not_mem_nil

structure Qid where
  path : UInt64
  vers : UInt32
  type : UInt8
deriving DecidableEq

-- `S` is what the strings are given by.
structure Dir (S : Type*) where
  type   : UInt16
  dev    : UInt32
  qid    : Qid
  mode   : UInt32
  atime  : UInt32
  mtime  : UInt32
  length : UInt64
  name   : S
  uid    : S
  gid    : S
  muid   : S
deriving DecidableEq

namespace Dir

variable {S T : Type*}

def sv (d : Dir S) : List S :=
  [d.name, d.uid, d.gid, d.muid]

def map (f : S → T) (d : Dir S) : Dir T :=
  { d with name := f d.name, uid := f d.uid, gid := f d.gid, muid := f d.muid }

end Dir

-- The bytes of a string, of which there are none where it is nil.
def text (s : Option CStr) : List UInt8 :=
  s.elim [] CStr.bytes

def strlen (s : Option CStr) : Nat :=
  (text s).length

def sizeD2M (d : Dir (Option CStr)) : Nat :=
  STATFIXLEN + (d.sv.map strlen).sum

-- The strings behind what was written so far, as long as they fit.
def putstrings (nbuf : Nat) : List (Option CStr) → List UInt8 → Bool × List UInt8
  | [], p      => (true, p)
  | s :: sv, p =>
    if p.length + strlen s + BIT16SZ > nbuf then
      (false, p)
    else
      putstrings nbuf sv (p ++ encode 2 (strlen s) ++ text s)

-- The result and what is written into the buffer.
def convD2M (d : Dir (Option CStr)) (nbuf : Nat) : Nat × List UInt8 :=
  if nbuf < BIT16SZ then
    (0, [])
  else
    let ss := STATFIXLEN + (d.sv.map strlen).sum
    let p := encode 2 (ss - BIT16SZ)
    if ss > nbuf then
      (BIT16SZ, p)
    else
      let p := p ++ encode 2 d.type.toNat ++ encode 4 d.dev.toNat ++ encode 1 d.qid.type.toNat ++
        encode 4 d.qid.vers.toNat ++ encode 8 d.qid.path.toNat ++ encode 4 d.mode.toNat ++ encode 4 d.atime.toNat ++
        encode 4 d.mtime.toNat ++ encode 8 d.length.toNat
      match putstrings nbuf d.sv p with
      | (false, p) => (0, p)
      | (true, p)  => if ss ≠ p.length then (0, p) else (p.length, p)

def GBIT (w : Nat) (b : Buf) (m : Memory) (p : Nat) : Except Buf.Fault Nat :=
  decode <$> b.read m p w

-- How far the strings reach, if they do not go beyond the end with their counts.
def skipstrings (b : Buf) (m : Memory) : Nat → Nat → Except Buf.Fault (Option Nat)
  | 0, p     => .ok (some p)
  | i + 1, p =>
    if p + BIT16SZ > b.stop then
      .ok none
    else do
      let n ← GBIT 2 b m p
      skipstrings b m i (p + (BIT16SZ + n))

-- Whether `statcheck` finds nothing wrong with what is in the buffer.
def statcheck (b : Buf) (m : Memory) : Except Buf.Fault Bool :=
  if b.len < STATFIXLEN then
    .ok false
  else do
    let n ← GBIT 2 b m b.base
    if b.len ≠ BIT16SZ + n then
      .ok false
    else do
      let p ← skipstrings b m 4 (b.base + (STATFIXLEN - 4 * BIT16SZ))
      .ok (p = some b.stop)

-- The strings are copied to where `strs` points and ended there, if it is not nil. The result has their addresses.
def getstrings (b : Buf) : Nat → Nat → Memory → Option Nat →
    Except Buf.Fault (Memory × Option (Nat × List (Option Nat)))
  | 0, p, m, _        => .ok (m, some (p, []))
  | i + 1, p, m, strs =>
    if p + BIT16SZ > b.stop then
      .ok (m, none)
    else do
      let ns ← GBIT 2 b m p
      let p := p + BIT16SZ
      if p + ns > b.stop then
        .ok (m, none)
      else
        match strs with
        | none => do
          let (m, r) ← getstrings b i (p + ns) m none
          .ok (m, r.map fun (q, sv) => (q, none :: sv))
        | some s => do
          let xs ← b.read m p ns
          let m := (m.write s xs).write (s + ns) [0]
          let (m, r) ← getstrings b i (p + ns) m (some (s + ns + 1))
          .ok (m, r.map fun (q, sv) => (q, some s :: sv))

-- The result is the number of bytes that were read, with the entry, or `none` where it is 0. A string of the entry
-- is `none` where it is `nullstring`.
def convM2D (b : Buf) (m : Memory) (strs : Option Nat) :
    Except Buf.Fault (Memory × Option (Nat × Dir (Option Nat))) :=
  if b.len < STATFIXLEN then
    .ok (m, none)
  else do
    let p := b.base + BIT16SZ
    let type ← GBIT 2 b m p
    let p := p + BIT16SZ
    let dev ← GBIT 4 b m p
    let p := p + BIT32SZ
    let qtype ← GBIT 1 b m p
    let p := p + BIT8SZ
    let vers ← GBIT 4 b m p
    let p := p + BIT32SZ
    let path ← GBIT 8 b m p
    let p := p + BIT64SZ
    let mode ← GBIT 4 b m p
    let p := p + BIT32SZ
    let atime ← GBIT 4 b m p
    let p := p + BIT32SZ
    let mtime ← GBIT 4 b m p
    let p := p + BIT32SZ
    let length ← GBIT 8 b m p
    let p := p + BIT64SZ
    let (m, r) ← getstrings b 4 p m strs
    .ok (m, r.bind fun
      | (q, [name, uid, gid, muid]) =>
        some (q - b.base,
          { type := .ofNat type, dev := .ofNat dev, qid := { path := .ofNat path, vers := .ofNat vers, type := .ofNat qtype },
            mode := .ofNat mode, atime := .ofNat atime, mtime := .ofNat mtime, length := .ofNat length, name, uid, gid, muid })
      | _ => none)

end

open LittleEndian (encode decode encode_length decode_encode encode_decode_of_length decode_lt)

section Numbers

variable {xs : List UInt8}

theorem encode_ofNat8 (h : xs.length = 1) : encode 1 (UInt8.ofNat (decode xs)).toNat = xs := by
  have := decode_lt xs
  rw [h] at this
  rw [UInt8.toNat_ofNat_of_lt' (by simpa using this), encode_decode_of_length h]

theorem encode_ofNat16 (h : xs.length = 2) : encode 2 (UInt16.ofNat (decode xs)).toNat = xs := by
  have := decode_lt xs
  rw [h] at this
  rw [UInt16.toNat_ofNat_of_lt' (by simpa using this), encode_decode_of_length h]

theorem encode_ofNat32 (h : xs.length = 4) : encode 4 (UInt32.ofNat (decode xs)).toNat = xs := by
  have := decode_lt xs
  rw [h] at this
  rw [UInt32.toNat_ofNat_of_lt' (by simpa using this), encode_decode_of_length h]

theorem encode_ofNat64 (h : xs.length = 8) : encode 8 (UInt64.ofNat (decode xs)).toNat = xs := by
  have := decode_lt xs
  rw [h] at this
  rw [UInt64.toNat_ofNat_of_lt' (by simpa using this), encode_decode_of_length h]

theorem ofNat8_encode (v : UInt8) : UInt8.ofNat (decode (encode 1 v.toNat)) = v := by
  rw [decode_encode (by simpa using v.toNat_lt), UInt8.ofNat_toNat]

theorem ofNat16_encode (v : UInt16) : UInt16.ofNat (decode (encode 2 v.toNat)) = v := by
  rw [decode_encode (by simpa using v.toNat_lt), UInt16.ofNat_toNat]

theorem ofNat32_encode (v : UInt32) : UInt32.ofNat (decode (encode 4 v.toNat)) = v := by
  rw [decode_encode (by simpa using v.toNat_lt), UInt32.ofNat_toNat]

theorem ofNat64_encode (v : UInt64) : UInt64.ofNat (decode (encode 8 v.toNat)) = v := by
  rw [decode_encode (by simpa using v.toNat_lt), UInt64.ofNat_toNat]

end Numbers

-- A string with its count.
def counted (s : List UInt8) : List UInt8 :=
  encode 2 s.length ++ s

@[simp]
theorem counted_length (s : List UInt8) : (counted s).length = 2 + s.length := by
  simp [counted]

section Strings

variable {b : Buf} {m : Memory} {p q s nbuf n : Nat} {ss : List (List UInt8)}

theorem putstrings_eq (sv : List (Option CStr)) {out : List UInt8}
    (h : out.length + ((sv.map text).flatMap counted).length ≤ nbuf) :
    putstrings nbuf sv out = (true, out ++ (sv.map text).flatMap counted) := by
  induction sv generalizing out
  case nil => simp [putstrings]
  case cons x sv ih =>
    rw [List.map_cons, List.flatMap_cons, List.length_append, counted_length] at h
    rw [putstrings, if_neg (by simp only [strlen, BIT16SZ]; omega), List.append_assoc, ih]
    · simp [counted, strlen]
    · simp only [List.length_append, strlen, encode_length]
      omega

theorem GBIT_eq (m : Memory) {w : Nat} (hl : b.base ≤ p) (hr : p + w ≤ b.stop) :
    GBIT w b m p = .ok (decode (m.bytes p w)) := by
  rw [GBIT, Buf.read_eq m hl hr]
  rfl

theorem GBIT_counted {x : List UInt8} (h : m.At p (counted x)) (hx : x.length < 65536) (hl : b.base ≤ p)
    (hr : p + 2 ≤ b.stop) : GBIT 2 b m p = .ok x.length := by
  have ha := (Memory.at_append.mp h).left
  rw [Memory.At, encode_length] at ha
  rw [GBIT_eq m hl hr, ha, decode_encode (by simpa using hx)]

theorem skipstrings_eq (h : m.At p (ss.flatMap counted)) (hs : ∀ x ∈ ss, x.length < 65536) (hl : b.base ≤ p)
    (hr : p + (ss.flatMap counted).length ≤ b.stop) :
    skipstrings b m ss.length p = .ok (some (p + (ss.flatMap counted).length)) := by
  induction ss generalizing p
  case nil => rfl
  case cons x ss ih =>
    obtain ⟨hx, hs⟩ := List.forall_mem_cons.mp hs
    rw [List.flatMap_cons, Memory.at_append, counted_length] at h
    rw [List.flatMap_cons, List.length_append, counted_length] at hr ⊢
    rw [List.length_cons, skipstrings, if_neg (by simp only [BIT16SZ]; omega), GBIT_counted h.left hx hl (by omega)]
    have := ih h.right hs (by omega) (by omega)
    rw [Nat.add_assoc] at this
    exact this

theorem of_skipstrings (h : skipstrings b m n p = .ok (some q)) (hl : b.base ≤ p) :
    ∃ ss : List (List UInt8), ss.length = n ∧ (∀ x ∈ ss, x.length < 65536) ∧ m.At p (ss.flatMap counted) ∧
      q = p + (ss.flatMap counted).length := by
  induction n generalizing p
  case zero =>
    obtain rfl := Option.some.inj <| Except.ok.inj h
    exact ⟨[], rfl, nofun, Memory.at_nil, rfl⟩
  case succ n ih =>
    rw [skipstrings] at h
    split at h
    case isTrue => cases h
    case isFalse hp =>
      rw [GBIT_eq m hl (by simp only [BIT16SZ] at hp; omega)] at h
      let k := decode (m.bytes p 2)
      have hk : k < 65536 := by simpa using decode_lt (m.bytes p 2)
      obtain ⟨ss, hn, hs, ha, hq⟩ := ih (p := p + (2 + k)) h (by omega)
      have hb : encode 2 k = m.bytes p 2 := encode_decode_of_length (m.bytes_length p 2)
      refine ⟨m.bytes (p + 2) k :: ss, by simp [hn], ?_, ?_, ?_⟩
      · exact List.forall_mem_cons.mpr ⟨by simpa using hk, hs⟩
      · rw [List.flatMap_cons, Memory.at_append, counted_length, Memory.bytes_length]
        refine ⟨?_, ha⟩
        rw [counted, Memory.bytes_length, hb, Memory.at_append, Memory.bytes_length]
        exact ⟨m.at_bytes .., m.at_bytes ..⟩
      · rw [hq, List.flatMap_cons, List.length_append, counted_length, Memory.bytes_length, Nat.add_assoc]

theorem skipstrings_ok (hl : b.base ≤ p) : ∃ r, skipstrings b m n p = .ok r := by
  induction n generalizing p
  case zero => exact ⟨_, rfl⟩
  case succ n ih =>
    rw [skipstrings]
    split
    case isTrue => exact ⟨_, rfl⟩
    case isFalse hp =>
      rw [GBIT_eq m hl (by simp only [BIT16SZ] at hp; omega)]
      exact ih (by omega)

end Strings

-- The fields of fixed size, without the count in front.
def fixed {S : Type*} (d : Dir S) : List UInt8 :=
  encode 2 d.type.toNat ++ encode 4 d.dev.toNat ++ encode 1 d.qid.type.toNat ++ encode 4 d.qid.vers.toNat ++
    encode 8 d.qid.path.toNat ++ encode 4 d.mode.toNat ++ encode 4 d.atime.toNat ++ encode 4 d.mtime.toNat ++
    encode 8 d.length.toNat

@[simp]
theorem fixed_length {S : Type*} (d : Dir S) : (fixed d).length = 39 := by
  simp [fixed]

-- An entry as a string of bytes, where the strings in it may have any bytes.
def encoding (d : Dir (List UInt8)) : List UInt8 :=
  let strings := d.sv.flatMap counted
  encode 2 (39 + strings.length) ++ fixed d ++ strings

theorem encoding_length (d : Dir (List UInt8)) : (encoding d).length = 41 + (d.sv.flatMap counted).length := by
  simp only [encoding, List.length_append, encode_length, fixed_length]

theorem sum_length (ss : List (List UInt8)) :
    (ss.flatMap counted).length = 2 * ss.length + (ss.map List.length).sum := by
  induction ss
  case nil => rfl
  case cons x ss ih =>
    rw [List.flatMap_cons, List.length_append, counted_length, ih, List.length_cons, List.map_cons, List.sum_cons]
    omega

theorem sv_map {S T : Type*} (f : S → T) (d : Dir S) : (d.map f).sv = d.sv.map f :=
  rfl

theorem sizeD2M_eq (d : Dir (Option CStr)) : sizeD2M d = (encoding (d.map text)).length := by
  have hl : (d.map text).sv.length = 4 := rfl
  rw [encoding_length, sum_length, hl, sv_map, List.map_map, sizeD2M]
  exact (by omega : 49 + (d.sv.map strlen).sum = 41 + (2 * 4 + (d.sv.map strlen).sum))

theorem convD2M_eq {d : Dir (Option CStr)} {nbuf : Nat} (h : sizeD2M d ≤ nbuf) :
    convD2M d nbuf = (sizeD2M d, encoding (d.map text)) := by
  have hsize := sizeD2M_eq d
  rw [encoding_length, sv_map] at hsize
  have hp : encode 2 (STATFIXLEN + (d.sv.map strlen).sum - BIT16SZ) ++ fixed d ++ (d.sv.map text).flatMap counted =
      encoding (d.map text) := by
    have : STATFIXLEN + (d.sv.map strlen).sum - BIT16SZ = 39 + ((d.map text).sv.flatMap counted).length := by
      rw [sizeD2M] at hsize
      rw [hsize, sv_map]
      exact (by omega : ∀ k, 41 + k - 2 = 39 + k) _
    rw [this]
    rfl
  have hfits : (encode 2 (STATFIXLEN + (d.sv.map strlen).sum - BIT16SZ) ++ fixed d).length +
      ((d.sv.map text).flatMap counted).length ≤ nbuf := by
    rw [List.length_append, encode_length, fixed_length]
    omega
  have hput := putstrings_eq d.sv hfits
  have hfixed : encode 2 (STATFIXLEN + (d.sv.map strlen).sum - BIT16SZ) ++ encode 2 d.type.toNat ++
      encode 4 d.dev.toNat ++ encode 1 d.qid.type.toNat ++ encode 4 d.qid.vers.toNat ++ encode 8 d.qid.path.toNat ++
      encode 4 d.mode.toNat ++ encode 4 d.atime.toNat ++ encode 4 d.mtime.toNat ++ encode 8 d.length.toNat =
      encode 2 (STATFIXLEN + (d.sv.map strlen).sum - BIT16SZ) ++ fixed d := by
    simp only [fixed, List.append_assoc]
  have hle : ¬STATFIXLEN + (d.sv.map strlen).sum > nbuf := Nat.not_lt.mpr h
  have h2 : ¬nbuf < BIT16SZ := by
    have : STATFIXLEN ≤ nbuf := Nat.le_trans (Nat.le_add_right ..) h
    simp only [STATFIXLEN, BIT16SZ, QIDSZ, BIT8SZ, BIT32SZ, BIT64SZ] at *
    omega
  rw [convD2M, if_neg h2]
  simp only [if_neg hle, hfixed, hput, hp]
  rw [if_neg, sizeD2M_eq]
  exact not_not.mpr <| sizeD2M_eq d

-- A buffer that is too short gets the number of bytes that is needed, if it has place for that.
theorem convD2M_short {d : Dir (Option CStr)} {nbuf : Nat} (h : nbuf < sizeD2M d) :
    convD2M d nbuf = if nbuf < 2 then (0, []) else (2, encode 2 (sizeD2M d - 2)) := by
  have h : STATFIXLEN + (d.sv.map strlen).sum > nbuf := h
  rw [convD2M]
  simp only [if_pos h]
  rfl

section Load

variable {m : Memory} {p : Nat} {S T : Type*} {name uid gid muid : S}

-- The entry whose fields of fixed size are in the memory.
def load (m : Memory) (p : Nat) (name uid gid muid : S) : Dir S where
  type   := .ofNat (decode (m.bytes p 2))
  dev    := .ofNat (decode (m.bytes (p + 2) 4))
  qid    :=
    { type := .ofNat (decode (m.bytes (p + 6) 1))
      vers := .ofNat (decode (m.bytes (p + 7) 4))
      path := .ofNat (decode (m.bytes (p + 11) 8)) }
  mode   := .ofNat (decode (m.bytes (p + 19) 4))
  atime  := .ofNat (decode (m.bytes (p + 23) 4))
  mtime  := .ofNat (decode (m.bytes (p + 27) 4))
  length := .ofNat (decode (m.bytes (p + 31) 8))
  name   := name
  uid    := uid
  gid    := gid
  muid   := muid

theorem at_fixed_load : m.At p (fixed (load m p name uid gid muid)) := by
  simp only [fixed, load, Memory.at_append, List.length_append, encode_ofNat8, encode_ofNat16, encode_ofNat32,
    encode_ofNat64, Memory.bytes_length, Memory.at_bytes, Nat.reduceAdd, and_self]

theorem load_of_at {d : Dir T} (h : m.At p (fixed d)) :
    load m p name uid gid muid = { d with name, uid, gid, muid } := by
  simp only [fixed, Memory.at_append, List.length_append, encode_length, Nat.reduceAdd] at h
  simp only [Memory.At, encode_length] at h
  simp only [load, h, ofNat8_encode, ofNat16_encode, ofNat32_encode, ofNat64_encode]

end Load

section Statcheck

variable {b : Buf} {m : Memory} {d : Dir (List UInt8)}

theorem statcheck_ok (b : Buf) (m : Memory) : ∃ r, statcheck b m = .ok r := by
  rw [statcheck]
  split
  case isTrue => exact ⟨_, rfl⟩
  case isFalse hl =>
    have hl : 49 ≤ b.len := Nat.not_lt.mp hl
    rw [GBIT_eq m (Nat.le_refl _) (by simp only [Buf.stop]; omega), Except.ok_bind]
    split
    case isTrue => exact ⟨_, rfl⟩
    case isFalse =>
      obtain ⟨r, hr⟩ := skipstrings_ok (b := b) (m := m) (n := 4) (Nat.le_add_right b.base (STATFIXLEN - 4 * BIT16SZ))
      rw [hr]
      exact ⟨_, rfl⟩

theorem at_encoding {p : Nat} : m.At p (encoding d) ↔
    m.At p (encode 2 (39 + (d.sv.flatMap counted).length)) ∧ m.At (p + 2) (fixed d) ∧
      m.At (p + 41) (d.sv.flatMap counted) := by
  simp only [encoding, Memory.at_append, List.length_append, encode_length, fixed_length, and_assoc]

-- `statcheck` accepts what has the form of an encoding, whatever bytes are in the strings.
theorem statcheck_iff : statcheck b m = .ok true ↔
    ∃ d : Dir (List UInt8), (∀ x ∈ d.sv, x.length < 65536) ∧ b.len < 65538 ∧ m.bytes b.base b.len = encoding d := by
  constructor
  · intro h
    rw [statcheck] at h
    split at h
    case isTrue => simp at h
    case isFalse hl =>
      have hl : 49 ≤ b.len := Nat.not_lt.mp hl
      rw [GBIT_eq m (Nat.le_refl _) (by simp only [Buf.stop]; omega), Except.ok_bind] at h
      split at h
      case isTrue => simp at h
      case isFalse hn =>
        have hn : b.len = 2 + decode (m.bytes b.base 2) := not_not.mp hn
        have hlt : decode (m.bytes b.base 2) < 65536 := by simpa using decode_lt (m.bytes b.base 2)
        obtain ⟨r, hr, h⟩ := Except.bind_eq_ok_iff.mp h
        obtain rfl : r = some b.stop := by simpa using h
        obtain ⟨ss, hss, hs, ha, hq⟩ := of_skipstrings hr (Nat.le_add_right ..)
        have hq : b.base + b.len = b.base + 41 + (ss.flatMap counted).length := hq
        have ha : m.At (b.base + 41) (ss.flatMap counted) := ha
        obtain ⟨x₁, x₂, x₃, x₄, rfl⟩ : ∃ x₁ x₂ x₃ x₄, ss = [x₁, x₂, x₃, x₄] := by
          match ss, hss with
          | [x₁, x₂, x₃, x₄], _ => exact ⟨x₁, x₂, x₃, x₄, rfl⟩
        let d := load m (b.base + 2) x₁ x₂ x₃ x₄
        have hd : m.At b.base (encoding d) := by
          refine at_encoding.mpr ⟨?_, at_fixed_load, ha⟩
          have : 39 + (d.sv.flatMap counted).length = decode (m.bytes b.base 2) := by
            have : d.sv = [x₁, x₂, x₃, x₄] := rfl
            rw [this]
            omega
          rw [this, encode_decode_of_length (m.bytes_length ..)]
          exact m.at_bytes ..
        refine ⟨d, hs, by omega, ?_⟩
        rw [Memory.At, encoding_length] at hd
        rw [← hd]
        congr 1
        exact (by omega : b.len = 41 + ([x₁, x₂, x₃, x₄].flatMap counted).length)
  · rintro ⟨d, hs, hlen, hb⟩
    have ha : m.At b.base (encoding d) := by rw [Memory.At, ← hb, Memory.bytes_length]
    have hl : b.len = 41 + (d.sv.flatMap counted).length := by
      rw [← encoding_length, ← hb, Memory.bytes_length]
    obtain ⟨hcount, -, hstrings⟩ := at_encoding.mp ha
    have hsum := sum_length d.sv
    have hsv : d.sv.length = 4 := rfl
    have h49 : ¬b.len < STATFIXLEN := by
      rw [hl, hsum, hsv]
      exact Nat.not_lt.mpr (by omega : 49 ≤ 41 + (2 * 4 + _))
    have hgbit : decode (m.bytes b.base 2) = 39 + (d.sv.flatMap counted).length := by
      rw [Memory.At, encode_length] at hcount
      have : 39 + (d.sv.flatMap counted).length < 256 ^ 2 := by omega
      rw [hcount, decode_encode this]
    have hsize : ¬b.len ≠ BIT16SZ + (39 + (d.sv.flatMap counted).length) := by
      rw [hl, not_not, ← Nat.add_assoc]
    have hskip := skipstrings_eq (b := b) hstrings hs (Nat.le_add_right ..) (by simp only [Buf.stop]; omega)
    have hskip : skipstrings b m 4 (b.base + (STATFIXLEN - 4 * BIT16SZ)) = .ok (some b.stop) := by
      rw [Buf.stop, hl, ← Nat.add_assoc]
      exact hskip
    rw [statcheck, if_neg h49, GBIT_eq m (Nat.le_refl _) (by simp only [Buf.stop]; omega), Except.ok_bind, hgbit,
      if_neg hsize, hskip, Except.ok_bind, decide_eq_true rfl]

end Statcheck

end Libc
