import Mathlib.Algebra.Order.BigOperators.Group.List
import Mathlib.Algebra.Order.Group.Nat
import Nix.Libc.Dir

namespace Libc

open LittleEndian (encode decode encode_length decode_encode)

-- A string that is in the memory with the byte that ends it.
def Stored (m : Memory) (q : Option Nat) (s : List UInt8) : Prop :=
  ∃ a, q = some a ∧ m.At a (s ++ [0])

section Strings

variable {b : Buf} {m : Memory} {p s n : Nat} {ss : List (List UInt8)}

-- How many bytes the strings take where they are copied to.
def storage (ss : List (List UInt8)) : Nat :=
  (ss.map fun x => x.length + 1).sum

theorem getstrings_ok (strs : Option Nat) (hl : b.base ≤ p) : ∃ r, getstrings b n p m strs = .ok r := by
  induction n generalizing p m strs
  case zero => exact ⟨_, rfl⟩
  case succ n ih =>
    rw [getstrings]
    split
    case isTrue => exact ⟨_, rfl⟩
    case isFalse hp =>
      have hp : p + 2 ≤ b.stop := Nat.not_lt.mp hp
      rw [GBIT_eq m hl hp, Except.ok_bind]
      dsimp only
      split
      case isTrue => exact ⟨_, rfl⟩
      case isFalse hns =>
        have hp' : b.base ≤ p + BIT16SZ + decode (m.bytes p 2) := by omega
        cases strs
        case none =>
          obtain ⟨r, hr⟩ := ih (m := m) none hp'
          exact ⟨_, by rw [hr, Except.ok_bind]⟩
        case some s =>
          dsimp only
          rw [Buf.read_eq m (by omega) (by omega), Except.ok_bind]
          obtain ⟨r, hr⟩ := ih (m := (m.write s (m.bytes (p + BIT16SZ) _)).write (s + decode (m.bytes p 2)) [0])
            (some (s + decode (m.bytes p 2) + 1)) hp'
          exact ⟨_, by rw [hr, Except.ok_bind]⟩

theorem getstrings_none (h : m.At p (ss.flatMap counted)) (hs : ∀ x ∈ ss, x.length < 65536) (hl : b.base ≤ p)
    (hr : p + (ss.flatMap counted).length ≤ b.stop) :
    getstrings b ss.length p m none =
      .ok (m, some (p + (ss.flatMap counted).length, ss.map fun _ => none)) := by
  induction ss generalizing p
  case nil => rfl
  case cons x ss ih =>
    obtain ⟨hx, hs⟩ := List.forall_mem_cons.mp hs
    rw [List.flatMap_cons, Memory.at_append, counted_length] at h
    rw [List.flatMap_cons, List.length_append, counted_length] at hr ⊢
    have := ih h.right hs (by omega) (by omega)
    rw [List.length_cons, getstrings, if_neg (by simp only [BIT16SZ]; omega), GBIT_counted h.left hx hl (by omega),
      Except.ok_bind]
    dsimp only
    rw [if_neg (by simp only [BIT16SZ]; omega), Nat.add_assoc p, this, Except.ok_bind, Nat.add_assoc p]
    rfl

-- The strings are copied to where they are apart from what is still to be read, which is before it or behind its end.
theorem getstrings_some (h : m.At p (ss.flatMap counted)) (hs : ∀ x ∈ ss, x.length < 65536) (hl : b.base ≤ p)
    (hr : p + (ss.flatMap counted).length ≤ b.stop) (hd : s ≤ p ∨ p + (ss.flatMap counted).length ≤ s) :
    ∃ m' sv, getstrings b ss.length p m (some s) = .ok (m', some (p + (ss.flatMap counted).length, sv)) ∧
      List.Forall₂ (Stored m') sv ss ∧ ∀ a, a < s ∨ s + storage ss ≤ a → m' a = m a := by
  induction ss generalizing p m s
  case nil => exact ⟨m, [], rfl, .nil, fun _ _ => rfl⟩
  case cons x ss ih =>
    obtain ⟨hx, hs⟩ := List.forall_mem_cons.mp hs
    rw [List.flatMap_cons, Memory.at_append, counted_length] at h
    rw [List.flatMap_cons, List.length_append, counted_length] at hr hd ⊢
    have hxm : m.At (p + 2) x := by
      have := (Memory.at_append.mp h.left).right
      rwa [encode_length] at this
    let m₁ := m.write s (x ++ [0])
    have hm₁ : (m.write s x).write (s + x.length) [0] = m₁ := Memory.write_append ..
    have hlen : (x ++ [0]).length = x.length + 1 := by simp
    have hrest : m₁.At (p + (2 + x.length)) (ss.flatMap counted) := h.right.write <| by rw [hlen]; omega
    obtain ⟨m', sv, hg, hsv, hframe⟩ := ih (s := s + x.length + 1) hrest hs (by omega) (by omega) (by omega)
    refine ⟨m', some s :: sv, ?_, .cons ⟨s, rfl, ?_⟩ hsv, fun a ha => ?_⟩
    · rw [List.length_cons, getstrings, if_neg (by simp only [BIT16SZ]; omega), GBIT_counted h.left hx hl (by omega),
        Except.ok_bind]
      dsimp only
      rw [if_neg (by simp only [BIT16SZ]; omega), Buf.read_of_at hxm (by omega) (by omega), Except.ok_bind]
      simp only [hm₁]
      rw [Nat.add_assoc p, hg, Except.ok_bind, Nat.add_assoc p]
      rfl
    · refine (m.at_write s (x ++ [0])).congr fun a _ ha => hframe a <| .inl ?_
      rw [hlen] at ha
      omega
    · rw [storage, List.map_cons, List.sum_cons] at ha
      rw [hframe a (by rw [storage]; omega)]
      exact Memory.write_outside <| by rw [hlen]; omega

end Strings

section Decode

variable {b : Buf} {m : Memory}

theorem convM2D_eq (h : 49 ≤ b.len) (strs : Option Nat) :
    convM2D b m strs = (getstrings b 4 (b.base + 41) m strs).map fun (m', r) => (m', r.bind fun
      | (q, [name, uid, gid, muid]) => some (q - b.base, load m (b.base + 2) name uid gid muid)
      | _ => none) := by
  have hg (w p : Nat) (hp : p + w ≤ 41) : GBIT w b m (b.base + p) = .ok (decode (m.bytes (b.base + p) w)) :=
    GBIT_eq m (Nat.le_add_right ..) (by simp only [Buf.stop]; omega)
  have hlen : ¬b.len < STATFIXLEN := Nat.not_lt.mpr h
  rw [convM2D, if_neg hlen]
  simp only [Nat.add_assoc, Nat.reduceAdd, BIT8SZ, BIT16SZ, BIT32SZ, BIT64SZ]
  rw [hg 2 2 (by decide), Except.ok_bind, hg 4 4 (by decide), Except.ok_bind, hg 1 8 (by decide), Except.ok_bind,
    hg 4 9 (by decide), Except.ok_bind, hg 8 13 (by decide), Except.ok_bind, hg 4 21 (by decide), Except.ok_bind,
    hg 4 25 (by decide), Except.ok_bind, hg 4 29 (by decide), Except.ok_bind, hg 8 33 (by decide), Except.ok_bind]
  cases getstrings b 4 (b.base + 41) m strs
  case error => rfl
  case ok r => rfl

theorem convM2D_ok (b : Buf) (m : Memory) (strs : Option Nat) : ∃ r, convM2D b m strs = .ok r := by
  rcases Nat.lt_or_ge b.len 49 with hlen | hlen
  · exact ⟨_, if_pos hlen⟩
  · obtain ⟨r, hr⟩ := getstrings_ok (b := b) (m := m) (n := 4) strs (Nat.le_add_right b.base 41)
    rw [convM2D_eq hlen, hr]
    exact ⟨_, rfl⟩

-- An entry that was decoded is the one that was encoded, where a string that was nil has no bytes.
structure Decoded (m : Memory) (e : Dir (Option Nat)) (d : Dir (Option CStr)) : Prop where
  fields  : e.map (fun _ => ()) = d.map fun _ => ()
  strings : List.Forall₂ (Stored m) e.sv (d.sv.map text)

-- Where the strings of an encoding may be put: at its start, or anywhere else but behind the first of its counts.
def Apart (b : Buf) (s : Nat) : Prop :=
  s ≤ b.base + 41 ∨ b.stop ≤ s

theorem strings_lt {d : Dir (List UInt8)} (h : (encoding d).length < 65538) : ∀ x ∈ d.sv, x.length < 65536 := by
  intro x hx
  have := List.le_sum_of_mem <| List.mem_map_of_mem (f := List.length) hx
  rw [encoding_length, sum_length] at h
  omega

theorem of_encoding {d : Dir (List UInt8)} (h : m.bytes b.base b.len = encoding d) :
    b.len = 41 + (d.sv.flatMap counted).length ∧ 49 ≤ b.len ∧ m.At (b.base + 2) (fixed d) ∧
      m.At (b.base + 41) (d.sv.flatMap counted) := by
  have ha : m.At b.base (encoding d) := by rw [Memory.At, ← h, Memory.bytes_length]
  have hl : b.len = 41 + (d.sv.flatMap counted).length := by rw [← encoding_length, ← h, Memory.bytes_length]
  have hsum := sum_length d.sv
  have hsv : d.sv.length = 4 := rfl
  exact ⟨hl, by omega, (at_encoding.mp ha).right⟩

theorem convM2D_encoding {d : Dir (Option CStr)} (h : sizeD2M d < 65536)
    (hb : m.bytes b.base b.len = encoding (d.map text)) {s : Nat} (hs : Apart b s) :
    ∃ m' e, convM2D b m (some s) = .ok (m', some (b.len, e)) ∧ Decoded m' e d := by
  obtain ⟨hl, hlen, hfixed, hstrings⟩ := of_encoding hb
  rw [sizeD2M_eq] at h
  obtain ⟨m', sv, hg, hf, -⟩ := getstrings_some (b := b) hstrings (strings_lt (by omega)) (Nat.le_add_right ..)
    (by simp only [Buf.stop]; omega) (hs.imp_right fun hs => by simp only [Buf.stop] at hs; omega)
  have hstop : b.base + 41 + ((d.map text).sv.flatMap counted).length - b.base = b.len := by omega
  obtain ⟨name, uid, gid, muid, rfl⟩ := List.length_eq_four.mp hf.length_eq
  refine ⟨m', load m (b.base + 2) name uid gid muid, ?_, ?_, hf⟩
  · have hg : getstrings b 4 (b.base + 41) m (some s) = _ := hg
    rw [convM2D_eq hlen, hg, ← hstop]
    rfl
  · rw [load_of_at hfixed]
    rfl

theorem convM2D_encoding_none {d : Dir (Option CStr)} (h : sizeD2M d < 65536)
    (hb : m.bytes b.base b.len = encoding (d.map text)) :
    convM2D b m none = .ok (m, some (b.len, d.map fun _ => none)) := by
  obtain ⟨hl, hlen, hfixed, hstrings⟩ := of_encoding hb
  rw [sizeD2M_eq] at h
  have hg : getstrings b 4 (b.base + 41) m none = _ := getstrings_none (b := b) hstrings (strings_lt (by omega))
    (Nat.le_add_right ..) (by simp only [Buf.stop]; omega)
  have hstop : b.base + 41 + ((d.map text).sv.flatMap counted).length - b.base = b.len := by omega
  rw [convM2D_eq hlen, hg, ← hstop]
  exact congrArg (fun e => Except.ok (m, some (_, e))) <| load_of_at hfixed

theorem of_convD2M {d : Dir (Option CStr)} {nbuf : Nat} (h : sizeD2M d < 65536) (hn : sizeD2M d ≤ nbuf)
    (hb : convD2M d nbuf = (b.len, m.bytes b.base b.len)) :
    statcheck b m = .ok true ∧ convM2D b m none = .ok (m, some (b.len, d.map fun _ => none)) ∧
      ∀ s, Apart b s → ∃ m' e, convM2D b m (some s) = .ok (m', some (b.len, e)) ∧ Decoded m' e d := by
  rw [convD2M_eq hn] at hb
  obtain ⟨hlen, hbytes⟩ := Prod.mk.inj hb
  refine ⟨statcheck_iff.mpr ⟨d.map text, strings_lt ?_, by omega, hbytes.symm⟩, convM2D_encoding_none h hbytes.symm,
    fun s hs => convM2D_encoding h hbytes.symm hs⟩
  rw [← sizeD2M_eq]
  omega

-- Of the strings of bytes that `statcheck` accepts those are written for an entry which have no zeros in their strings.
theorem exists_convD2M_iff :
    (∃ d nbuf, sizeD2M d < 65538 ∧ sizeD2M d ≤ nbuf ∧ convD2M d nbuf = (b.len, m.bytes b.base b.len)) ↔
      ∃ d : Dir (List UInt8), (∀ x ∈ d.sv, x.length < 65536 ∧ 0 ∉ x) ∧ b.len < 65538 ∧
        m.bytes b.base b.len = encoding d := by
  constructor
  · rintro ⟨d, nbuf, h, hn, hb⟩
    rw [convD2M_eq hn] at hb
    obtain ⟨hlen, hbytes⟩ := Prod.mk.inj hb
    refine ⟨d.map text, fun x hx => ⟨strings_lt (sizeD2M_eq d ▸ h) x hx, ?_⟩, by omega, hbytes.symm⟩
    obtain ⟨s, -, rfl⟩ := List.mem_map.mp (sv_map text d ▸ hx)
    cases s
    case none => exact List.not_mem_nil
    case some s => exact s.nulfree
  · rintro ⟨e, hs, hlen, hbytes⟩
    simp only [Dir.sv, List.forall_mem_cons] at hs
    obtain ⟨⟨-, hname⟩, ⟨-, huid⟩, ⟨-, hgid⟩, ⟨-, hmuid⟩, -⟩ := hs
    let d : Dir (Option CStr) :=
      { e with name := some ⟨_, hname⟩, uid := some ⟨_, huid⟩, gid := some ⟨_, hgid⟩, muid := some ⟨_, hmuid⟩ }
    have hd : d.map text = e := rfl
    have hsize : sizeD2M d = b.len := by rw [sizeD2M_eq, hd, ← hbytes, Memory.bytes_length]
    exact ⟨d, b.len, hsize ▸ hlen, Nat.le_of_eq hsize, by rw [convD2M_eq (Nat.le_of_eq hsize), hsize, hd, hbytes]⟩

end Decode

def empty : Dir (Option CStr) :=
  { type := 0, dev := 0, qid := { path := 0, vers := 0, type := 0 }, mode := 0, atime := 0, mtime := 0, length := 0,
    name := none, uid := none, gid := none, muid := none }

def written : Memory :=
  Memory.write (fun _ => 0) 0 (convD2M empty 49).snd

-- An entry whose name is one byte that is zero.
def zero : Memory
  | 0  => 48
  | 41 => 1
  | _  => 0

end Libc
