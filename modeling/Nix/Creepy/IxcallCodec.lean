import Nix.Creepy.Ixcall

namespace Creepy

open LittleEndian (encode decode)

namespace Unpack

variable {m : Unpack α} {k : α → Unpack β} {p q : List UInt8}

theorem bind_apply (m : Unpack α) (k : α → Unpack β) (p : List UInt8) :
    (m >>= k) p = match m p with | .ok (a, q) => k a q | .error e => .error e := by
  change (m p >>= fun x => k x.1 x.2) = _
  cases m p <;> rfl

theorem pure_apply (a : α) (p : List UInt8) : (pure a : Unpack α) p = .ok (a, p) :=
  rfl

theorem bind_eq_ok : (m >>= k) p = .ok (b, q) ↔ ∃ a r, m p = .ok (a, r) ∧ k a r = .ok (b, q) := by
  rw [bind_apply]
  cases m p <;> simp [Prod.ext_iff]

theorem bind_eq_outside :
    (m >>= k) p = .error .outside ↔
    m p = .error .outside ∨ ∃ a r, m p = .ok (a, r) ∧ k a r = .error .outside := by
  rw [bind_apply]
  cases m p <;> simp [Prod.ext_iff]

theorem pure_eq_ok : (pure a : Unpack α) p = .ok (b, q) ↔ a = b ∧ p = q := by
  simp [pure_apply]

theorem pure_ne_outside : (pure a : Unpack α) p ≠ .error .outside := by
  simp [pure_apply]

theorem throw_apply (e : Stop) : (throw e : Unpack α) p = .error e :=
  rfl

end Unpack

theorem need_eq_ok : need n p = .ok (u, q) ↔ n ≤ p.length ∧ p = q := by
  simp only [need]
  split <;> simp [*]

theorem need_ne_outside : need n p ≠ .error .outside := by
  simp only [need]
  split <;> simp

theorem load_eq_ok : load n p = .ok (bs, q) ↔ bs.length = n ∧ p = bs ++ q := by
  simp only [load]
  split
  case isTrue h =>
    simp only [Except.ok.injEq, Prod.mk.injEq]
    constructor
    · rintro ⟨rfl, rfl⟩
      simp [h]
    · rintro ⟨rfl, rfl⟩
      simp
  case isFalse h =>
    simp only [reduceCtorEq, false_iff, not_and]
    rintro rfl rfl
    simp at h

theorem load_eq_outside : load n p = .error .outside ↔ p.length < n := by
  simp only [load]
  split <;> simp_all

theorem checkop_eq_ok : checkop op p = .ok (u, q) ↔ ¬op ≥ CMAX ∧ p = q := by
  simp only [checkop]
  split <;> simp [*]

theorem checkop_ne_outside : checkop op p ≠ .error .outside := by
  simp only [checkop]
  split <;> simp

theorem remaining_eq_ok : remaining p = .ok (bs, q) ↔ bs = p ∧ p = q := by
  simp [remaining, get, getThe, MonadStateOf.get, StateT.get, pure, Except.pure, eq_comm]

theorem remaining_ne_outside : remaining p ≠ .error .outside := by
  simp [remaining, get, getThe, MonadStateOf.get, StateT.get, pure, Except.pure]

-- Loading a number undoes storing it, and loads nothing but stored numbers.
section Words

open Unpack

theorem loadWord_eq_ok (ofNat : Nat → W) (toNat : W → Nat) (hl : ∀ v, ofNat (toNat v) = v)
    (hr : ∀ n < 256 ^ w, toNat (ofNat n) = n) (hb : ∀ v, toNat v < 256 ^ w) :
    (load w >>= fun bs => pure (ofNat (decode bs))) p = .ok (v, q) ↔
    p = encode w (toNat v) ++ q := by
  simp only [bind_eq_ok, load_eq_ok, pure_eq_ok]
  constructor
  · rintro ⟨bs, _, ⟨hl, rfl⟩, rfl, rfl⟩
    rw [hr _ (hl ▸ LittleEndian.decode_lt bs), LittleEndian.encode_decode_of_length hl]
  · rintro rfl
    refine ⟨_, _, ⟨LittleEndian.encode_length .., rfl⟩, ?_, rfl⟩
    rw [LittleEndian.decode_encode (hb v), hl]

theorem GBIT8_eq_ok : GBIT8 p = .ok (v, q) ↔ p = PBIT8 v ++ q :=
  loadWord_eq_ok _ UInt8.toNat (fun _ => UInt8.ofNat_toNat)
    (fun _ => UInt8.toNat_ofNat_of_lt') (·.toNat_lt)

theorem GBIT16_eq_ok : GBIT16 p = .ok (v, q) ↔ p = PBIT16 v ++ q :=
  loadWord_eq_ok _ UInt16.toNat (fun _ => UInt16.ofNat_toNat)
    (fun _ => UInt16.toNat_ofNat_of_lt') (·.toNat_lt)

theorem GBIT32_eq_ok : GBIT32 p = .ok (v, q) ↔ p = PBIT32 v ++ q :=
  loadWord_eq_ok _ UInt32.toNat (fun _ => UInt32.ofNat_toNat)
    (fun _ => UInt32.toNat_ofNat_of_lt') (·.toNat_lt)

theorem GBIT64_eq_ok : GBIT64 p = .ok (v, q) ↔ p = PBIT64 v ++ q :=
  loadWord_eq_ok _ UInt64.toNat (fun _ => UInt64.ofNat_toNat)
    (fun _ => UInt64.toNat_ofNat_of_lt') (·.toNat_lt)

theorem GBIT8_eq_outside : GBIT8 p = .error .outside ↔ p.length < BIT8SZ := by
  simp only [GBIT8, bind_eq_outside, load_eq_outside, pure_ne_outside, and_false, exists_false, or_false]

theorem GBIT16_eq_outside : GBIT16 p = .error .outside ↔ p.length < BIT16SZ := by
  simp only [GBIT16, bind_eq_outside, load_eq_outside, pure_ne_outside, and_false, exists_false, or_false]

theorem GBIT32_eq_outside : GBIT32 p = .error .outside ↔ p.length < BIT32SZ := by
  simp only [GBIT32, bind_eq_outside, load_eq_outside, pure_ne_outside, and_false, exists_false, or_false]

theorem GBIT64_eq_outside : GBIT64 p = .error .outside ↔ p.length < BIT64SZ := by
  simp only [GBIT64, bind_eq_outside, load_eq_outside, pure_ne_outside, and_false, exists_false, or_false]

theorem exists_PBIT64_append (h : BIT64SZ ≤ p.length) : ∃ v q, p = PBIT64 v ++ q := by
  refine ⟨.ofNat (decode (p.take BIT64SZ)), p.drop BIT64SZ, GBIT64_eq_ok.mp ?_⟩
  simp only [GBIT64, bind_apply, load, if_pos h, pure_apply]

@[simp] theorem PBIT8_length  : (PBIT8 v).length = BIT8SZ := by simp [PBIT8]
@[simp] theorem PBIT16_length : (PBIT16 v).length = BIT16SZ := by simp [PBIT16]
@[simp] theorem PBIT32_length : (PBIT32 v).length = BIT32SZ := by simp [PBIT32]
@[simp] theorem PBIT64_length : (PBIT64 v).length = BIT64SZ := by simp [PBIT64]

end Words

open Unpack

-- A string field as it stands in a message. Its bytes may hold a `\0`.
def wstring (raw : List UInt8) : List UInt8 :=
  PBIT16 (.ofNat raw.length) ++ raw

@[simp]
theorem wstring_length (raw : List UInt8) : (wstring raw).length = BIT16SZ + raw.length := by
  simp [wstring]

theorem gstring_eq_ok :
    gstring p = .ok (s, q) ↔
    ∃ raw, raw.length < 2 ^ 16 ∧ p = wstring raw ++ q ∧ s = some (.ofMem raw) := by
  simp only [gstring, wstring, bind_eq_ok, need_eq_ok, GBIT16_eq_ok, load_eq_ok, pure_eq_ok]
  constructor
  · rintro ⟨_, _, ⟨-, rfl⟩, n, _, rfl, _, _, ⟨-, rfl⟩, raw, _, ⟨hl, rfl⟩, rfl, rfl⟩
    have hn : UInt16.ofNat raw.length = n := hl ▸ UInt16.ofNat_toNat
    exact ⟨raw, hl ▸ n.toNat_lt, by rw [hn, List.append_assoc], rfl⟩
  · rintro ⟨raw, hl, rfl, rfl⟩
    have hn : (UInt16.ofNat raw.length).toNat = raw.length := UInt16.toNat_ofNat_of_lt' hl
    refine ⟨(), _, ⟨?_, rfl⟩, _, raw ++ q, List.append_assoc .., (), _, ⟨?_, rfl⟩, raw, q, ?_, rfl, rfl⟩
    all_goals simp [hn]

theorem gstring_ne_outside : gstring p ≠ .error .outside := by
  simp only [gstring, ne_eq, bind_eq_outside, need_ne_outside, need_eq_ok, GBIT16_eq_outside,
    load_eq_outside, pure_ne_outside, false_or, not_exists, not_and, not_or]
  grind

namespace IXcall

def strings : IXcall → List (Option CStr)
  | IXTversion _ s | IXRversion _ s | IXRerror s | IXTwalk s | IXTcreate s _ _ | IXTattr s
  | IXTwattr s _ | IXTcond _ s _ | IXTmove _ s => [s]
  | IXTattach s₁ s₂ => [s₁, s₂]
  | _ => []

-- The attribute value, which is packed with the call.
def value : IXcall → List UInt8
  | IXRattr v | IXTwattr _ v | IXTcond _ _ v => v
  | _ => []

-- The data, which follows the packed call in the message.
def data : IXcall → List UInt8
  | IXRread d | IXTwrite _ _ d => d
  | _ => []

-- The same call with an empty string for each nil string.
def denil : IXcall → IXcall
  | IXTversion m s => IXTversion m (s.getD .empty)
  | IXRversion m s => IXRversion m (s.getD .empty)
  | IXTattach s₁ s₂ => IXTattach (s₁.getD .empty) (s₂.getD .empty)
  | IXRerror s => IXRerror (s.getD .empty)
  | IXTwalk s => IXTwalk (s.getD .empty)
  | IXTcreate s p m => IXTcreate (s.getD .empty) p m
  | IXTattr s => IXTattr (s.getD .empty)
  | IXTwattr s v => IXTwattr (s.getD .empty) v
  | IXTcond o s v => IXTcond o (s.getD .empty) v
  | IXTmove d s => IXTmove d (s.getD .empty)
  | f => f

-- The calls of the protocol that fit the fields that hold their sizes: 16 bits for each string,
-- 32 bits for the data and for the whole call.
structure Fits (f : IXcall) : Prop where
  packs   : ∃ body, ixpackBody f = some body ∧ BIT8SZ + body.length < 2 ^ 32
  strings : ∀ s ∈ f.strings, ∀ c ∈ s, c.length < 2 ^ 16
  data    : f.data.length < 2 ^ 32

end IXcall

theorem stringsz_eq (s : Option CStr) : stringsz s = (pstring s).length := by
  cases s <;> simp [stringsz, pstring, CStr.length]

theorem ixpackedsize_eq_of_body (h : ixpackBody f = some body) :
    ixpackedsize f = some (.ofNat (BIT8SZ + body.length)) := by
  cases f <;> simp only [ixpackBody, reduceCtorEq, Option.ite_none_left_eq_some] at h
  case' IXTcond => have h := h.right
  all_goals
    obtain rfl := Option.some.inj h
    simp only [ixpackedsize, stringsz_eq, List.length_append, List.length_nil, PBIT8_length,
      PBIT16_length, PBIT32_length, PBIT64_length, Nat.add_assoc]

section Forward

theorem need_of_le (h : n ≤ p.length) : need n p = .ok ((), p) :=
  need_eq_ok.mpr ⟨h, rfl⟩

theorem checkop_of_lt (h : ¬op ≥ CMAX) : checkop op p = .ok ((), p) :=
  checkop_eq_ok.mpr ⟨h, rfl⟩

theorem GBIT8_PBIT8 : GBIT8 (PBIT8 v ++ q) = .ok (v, q) := GBIT8_eq_ok.mpr rfl
theorem GBIT16_PBIT16 : GBIT16 (PBIT16 v ++ q) = .ok (v, q) := GBIT16_eq_ok.mpr rfl
theorem GBIT32_PBIT32 : GBIT32 (PBIT32 v ++ q) = .ok (v, q) := GBIT32_eq_ok.mpr rfl
theorem GBIT64_PBIT64 : GBIT64 (PBIT64 v ++ q) = .ok (v, q) := GBIT64_eq_ok.mpr rfl

theorem gstring_pstring {s : Option CStr} (h : ∀ c ∈ s, c.length < 2 ^ 16) :
    gstring (pstring s ++ q) = .ok (some (s.getD .empty), q) := by
  cases s with
  | none => exact gstring_eq_ok.mpr ⟨[], by simp, by simp [pstring, wstring], rfl⟩
  | some s =>
    refine gstring_eq_ok.mpr ⟨s.bytes, h s rfl, by simp [pstring, wstring, CStr.length], ?_⟩
    simp [CStr.ofMem_bytes]

theorem remaining_apply : remaining p = .ok (p, p) :=
  rfl

end Forward

-- What `ixunpackBody` makes of the packed call. The value is not passed over: `p` stays on it.
theorem ixunpackBody_ixpackBody {f : IXcall} (hf : f.Fits) (h : ixpackBody f = some body) :
    ∃ t : IXtype, t.code = f.type ∧
      ixunpackBody t (body ++ f.data) = .ok (f.denil, f.value ++ f.data) := by
  have hs := hf.strings
  cases f
  case other => simp [ixpackBody] at h
  case' IXTcond =>
    simp only [ixpackBody, Option.ite_none_left_eq_some] at h
    have ⟨hop, h⟩ := h
  all_goals
    obtain rfl := Option.some.inj h
    simp only [IXcall.type]
    refine ⟨_, rfl, ?_⟩
    simp only [IXcall.strings, List.mem_cons, List.not_mem_nil, or_false, forall_eq,
      forall_eq_or_imp] at hs
    simp (disch := first | assumption | exact hs.left | exact hs.right | (simp <;> omega) | fail) only
      [ixunpackBody, IXcall.denil, IXcall.value, IXcall.data, List.append_assoc, List.nil_append,
      bind_apply, pure_apply, need_of_le, GBIT8_PBIT8, GBIT16_PBIT16, GBIT32_PBIT32,
      GBIT64_PBIT64, gstring_pstring, remaining_apply, checkop_of_lt]
  all_goals simp only [List.append_nil]

-- The messages that `ixunpack` mishandles. It checks for one of the two offsets of `IXTwrite` only,
-- a string with a `\0` in it is cut there, and `p` is not advanced past an attribute value.
inductive Spoiled : List UInt8 → Prop
  | version (t) (ht : t = IXtype.IXTversion ∨ t = IXtype.IXRversion) (m : UInt32)
    (hr : raw.length < 2 ^ 16) (h : 0 ∈ raw) : Spoiled (t.code :: (PBIT32 m ++ (wstring raw ++ q)))
  | attach (hr₁ : raw₁.length < 2 ^ 16) (hr₂ : raw₂.length < 2 ^ 16) (h : 0 ∈ raw₁ ∨ 0 ∈ raw₂) :
    Spoiled (IXtype.IXTattach.code :: (wstring raw₁ ++ (wstring raw₂ ++ q)))
  | string (t) (ht : t = IXtype.IXRerror ∨ t = IXtype.IXTwalk ∨ t = IXtype.IXTattr)
    (hr : raw.length < 2 ^ 16) (h : 0 ∈ raw) : Spoiled (t.code :: (wstring raw ++ q))
  | create (perm : UInt32) (mode : UInt8) (hr : raw.length < 2 ^ 16) (h : 0 ∈ raw) :
    Spoiled (IXtype.IXTcreate.code :: (wstring raw ++ (PBIT32 perm ++ (PBIT8 mode ++ q))))
  | move (dirfid : UInt32) (hr : raw.length < 2 ^ 16) (h : 0 ∈ raw) :
    Spoiled (IXtype.IXTmove.code :: (PBIT32 dirfid ++ (wstring raw ++ q)))
  | write (h₁ : BIT64SZ ≤ q.length) (h₂ : q.length < BIT64SZ + BIT64SZ) :
    Spoiled (IXtype.IXTwrite.code :: q)
  | rattr (h : q ≠ []) : Spoiled (IXtype.IXRattr.code :: q)
  | twattr (hr : raw.length < 2 ^ 16) (h : 0 ∈ raw ∨ q ≠ []) :
    Spoiled (IXtype.IXTwattr.code :: (wstring raw ++ q))
  | tcond (op : UInt8) (ho : ¬op ≥ CMAX) (hr : raw.length < 2 ^ 16) (h : 0 ∈ raw ∨ q ≠ []) :
    Spoiled (IXtype.IXTcond.code :: (PBIT8 op ++ (wstring raw ++ q)))

-- `ixunpack` stays inside the buffer and fails, or packing its result gives the bytes it consumed.
def Reproduces (b : List UInt8) : Prop :=
  match ixunpack b with
  | .error .ret0 => True
  | .error .outside => False
  | .ok (f, n) => n ≤ b.length ∧
    ∀ ap : List UInt8, b.length ≤ ap.length → ixpack f ap = .ret (.ofNat n) (overlay (b.take n) ap)

theorem gstring_wstring (h : raw.length < 2 ^ 16) :
    gstring (wstring raw ++ q) = .ok (some (.ofMem raw), q) :=
  gstring_eq_ok.mpr ⟨raw, h, rfl, rfl⟩

theorem CStr.ofMem_length_le (raw : List UInt8) : (ofMem raw).length ≤ raw.length :=
  (List.takeWhile_prefix _).length_le

theorem CStr.ofMem_length_eq_iff (raw : List UInt8) : (ofMem raw).length = raw.length ↔ 0 ∉ raw where
  mp h := (ofMem_bytes_eq_iff raw).mp <| (List.takeWhile_prefix _).eq_of_length h
  mpr h := congrArg List.length <| (ofMem_bytes_eq_iff raw).mpr h

-- The length field tells a string that was cut from the one it was cut from.
theorem wstring_append_eq_pstring_append_iff (h : raw.length < 2 ^ 16) :
    wstring raw ++ q = pstring (some (.ofMem raw)) ++ r ↔ 0 ∉ raw ∧ q = r := by
  have hle := CStr.ofMem_length_le raw
  simp only [wstring, pstring, List.append_assoc]
  constructor
  · intro he
    have ⟨hn, ht⟩ := List.append_inj he (by simp)
    have hc : (UInt16.ofNat raw.length) = .ofNat (CStr.ofMem raw).length := by
      have := (GBIT16_PBIT16 (q := [])).symm.trans (hn ▸ GBIT16_PBIT16)
      simp_all
    have hl : (CStr.ofMem raw).length = raw.length := by
      have := congrArg UInt16.toNat hc
      rw [UInt16.toNat_ofNat_of_lt' h, UInt16.toNat_ofNat_of_lt' (hle.trans_lt h)] at this
      exact this.symm
    have hz := (CStr.ofMem_length_eq_iff raw).mp hl
    rw [(CStr.ofMem_bytes_eq_iff raw).mpr hz] at ht
    exact ⟨hz, List.append_cancel_left ht⟩
  · rintro ⟨hz, rfl⟩
    rw [(CStr.ofMem_length_eq_iff raw).mpr hz, (CStr.ofMem_bytes_eq_iff raw).mpr hz]

theorem pstring_ofMem_length_le (raw : List UInt8) :
    (pstring (some (.ofMem raw))).length ≤ BIT16SZ + raw.length := by
  have := CStr.ofMem_length_le raw
  simp_all [pstring, CStr.length]

theorem ixunpackBody_eq_outside :
    ixunpackBody t p = .error .outside ↔
    t = .IXTwrite ∧ BIT64SZ ≤ p.length ∧ p.length < BIT64SZ + BIT64SZ := by
  cases t
  case IXTwrite =>
    simp only [ixunpackBody, bind_eq_outside, need_ne_outside, need_eq_ok, GBIT64_eq_outside,
      GBIT64_eq_ok, remaining_ne_outside, pure_ne_outside, true_and, false_or]
    constructor
    · rintro ⟨_, _, ⟨h, rfl⟩, h' | ⟨_, r, rfl, h' | h'⟩⟩
      · omega
      · simp_all
      · simp at h'
    · rintro ⟨h, h'⟩
      obtain ⟨v, q, rfl⟩ := exists_PBIT64_append h
      simp only [List.length_append, PBIT64_length] at h'
      exact ⟨(), _, ⟨h, rfl⟩, .inr ⟨v, q, rfl, .inl (by omega)⟩⟩
  all_goals
    simp only [ixunpackBody, bind_eq_outside, need_ne_outside, need_eq_ok, GBIT8_eq_outside,
      GBIT16_eq_outside, GBIT32_eq_outside, GBIT64_eq_outside, GBIT8_eq_ok, GBIT16_eq_ok,
      GBIT32_eq_ok, GBIT64_eq_ok, checkop_ne_outside, remaining_ne_outside, pure_ne_outside,
      gstring_ne_outside, and_false, exists_false, or_false, false_or, reduceCtorEq, false_and,
      not_exists, not_and, not_or, iff_false]
  all_goals grind [PBIT16_length, PBIT64_length, PBIT32_length]

theorem wstring_append_eq (hr : raw.length < 2 ^ 16) (hz : 0 ∉ raw) (q : List UInt8) :
    wstring raw ++ q = pstring (some (.ofMem raw)) ++ q :=
  (wstring_append_eq_pstring_append_iff hr).mpr ⟨hz, rfl⟩

theorem ixunpackBody_eq_ok (h : ixunpackBody t p = .ok (f, q)) :
    f.type = t.code ∧ ∃ body, ixpackBody f = some body ∧ body.length ≤ p.length ∧
      q <:+ p ∧ (¬Spoiled (t.code :: p) → p = body ++ q) := by
  cases t <;> simp only [ixunpackBody, bind_eq_ok, need_eq_ok, GBIT8_eq_ok, GBIT16_eq_ok,
    GBIT32_eq_ok, GBIT64_eq_ok, gstring_eq_ok, checkop_eq_ok, remaining_eq_ok, pure_eq_ok,
    exists_and_left, and_assoc, exists_eq_left, exists_const, ↓existsAndEq, true_and, and_true] at h
  case IXTversion | IXRversion =>
    obtain ⟨-, m, raw, rfl, hr, rfl⟩ := h
    have := pstring_ofMem_length_le raw
    refine ⟨rfl, _, rfl, by simp; omega, by simp [List.suffix_append_of_suffix], fun hs => ?_⟩
    have hz : 0 ∉ raw := fun h => hs <| .version _ (by simp) m hr h
    simp [wstring_append_eq hr hz]
  case IXTattach =>
    obtain ⟨raw₂, raw₁, hr₁, rfl, hr₂, rfl⟩ := h
    have := pstring_ofMem_length_le raw₁
    have := pstring_ofMem_length_le raw₂
    refine ⟨rfl, _, rfl, by simp; omega, by simp [List.suffix_append_of_suffix], fun hs => ?_⟩
    have hz₁ : 0 ∉ raw₁ := fun h => hs <| .attach hr₁ hr₂ (.inl h)
    have hz₂ : 0 ∉ raw₂ := fun h => hs <| .attach hr₁ hr₂ (.inr h)
    simp [wstring_append_eq hr₁ hz₁, wstring_append_eq hr₂ hz₂]
  case IXRerror | IXTwalk | IXTattr =>
    obtain ⟨raw, hr, rfl, rfl⟩ := h
    have := pstring_ofMem_length_le raw
    refine ⟨rfl, _, rfl, by simp; omega, by simp, fun hs => ?_⟩
    have hz : 0 ∉ raw := fun h => hs <| .string _ (by simp) hr h
    exact wstring_append_eq hr hz q
  case IXTcreate =>
    obtain ⟨perm, mode, raw, hr, rfl, -, rfl⟩ := h
    have := pstring_ofMem_length_le raw
    refine ⟨rfl, _, rfl, by simp; omega, by simp [List.suffix_append_of_suffix], fun hs => ?_⟩
    have hz : 0 ∉ raw := fun h => hs <| .create perm mode hr h
    simp [wstring_append_eq hr hz]
  case IXTmove =>
    obtain ⟨-, dirfid, raw, rfl, hr, rfl⟩ := h
    have := pstring_ofMem_length_le raw
    refine ⟨rfl, _, rfl, by simp; omega, by simp [List.suffix_append_of_suffix], fun hs => ?_⟩
    have hz : 0 ∉ raw := fun h => hs <| .move dirfid hr h
    simp [wstring_append_eq hr hz]
  case IXRattr =>
    obtain ⟨rfl, rfl⟩ := h
    refine ⟨rfl, _, rfl, le_rfl, List.suffix_rfl, fun hs => ?_⟩
    have hv : p = [] := by_contra fun h => hs <| .rattr h
    simp [hv]
  case IXTwattr =>
    obtain ⟨raw, hr, rfl, rfl⟩ := h
    have := pstring_ofMem_length_le raw
    refine ⟨rfl, _, rfl, by simp; omega, by simp, fun hs => ?_⟩
    have hz : 0 ∉ raw := fun h => hs <| .twattr hr (.inl h)
    have hv : q = [] := by_contra fun h => hs <| .twattr hr (.inr h)
    simp [hv, wstring_append_eq hr hz]
  case IXTcond =>
    obtain ⟨-, op, raw, rfl, ho, hr, rfl⟩ := h
    have := pstring_ofMem_length_le raw
    refine ⟨rfl, _, if_neg ho, by simp; omega, by simp [List.suffix_append_of_suffix], fun hs => ?_⟩
    have hz : 0 ∉ raw := fun h => hs <| .tcond op ho hr (.inl h)
    have hv : q = [] := by_contra fun h => hs <| .tcond op ho hr (.inr h)
    simp [hv, wstring_append_eq hr hz]
  case IXTread =>
    obtain ⟨-, nmsg, offset, count, rfl, rfl⟩ := h
    exact ⟨rfl, _, rfl, by simp, by simp [List.suffix_append_of_suffix], by simp⟩
  case IXTwrite | IXRwrite =>
    obtain ⟨-, _, _, rfl, rfl⟩ := h
    exact ⟨rfl, _, rfl, by simp, by simp [List.suffix_append_of_suffix], by simp⟩
  case IXRattach | IXTfid | IXTclone | IXRclone | IXTopen =>
    obtain ⟨-, _, rfl, rfl⟩ := h
    exact ⟨rfl, _, rfl, by simp, List.suffix_append .., fun _ => rfl⟩
  all_goals
    obtain ⟨rfl, rfl⟩ := h
    exact ⟨rfl, [], rfl, by simp, List.suffix_rfl, fun _ => rfl⟩

theorem ixunpack_code_cons (t : IXtype) (p : List UInt8) :
    ixunpack (t.code :: p) =
    match ixunpackBody t p with
    | .ok (f, q) => .ok (f, 1 + p.length - q.length)
    | .error e => .error e := by
  have h : GBIT8 (t.code :: p) = .ok (t.code, p) := GBIT8_eq_ok.mpr (by simp [PBIT8, encode])
  simp only [ixunpack, bind_apply, need_of_le (n := BIT8SZ) (p := t.code :: p) (by simp), h, IXtype.ofCode_code]
  cases ixunpackBody t p <;> simp [Nat.add_comm]

theorem ixunpack_nil : ixunpack [] = .error .ret0 :=
  rfl

theorem ixunpack_unknown (h : IXtype.ofCode c = none) : ixunpack (c :: p) = .error .ret0 := by
  have hg : GBIT8 (c :: p) = .ok (c, p) := GBIT8_eq_ok.mpr (by simp [PBIT8, encode])
  simp only [ixunpack, bind_apply, need_of_le (n := BIT8SZ) (p := c :: p) (by simp), hg, h, throw_apply]

theorem ixpack_eq_ret (h : ixpackBody f = some body) (hb : 1 + body.length < 2 ^ 32)
    (hl : 1 + body.length ≤ ap.length) :
    ixpack f ap = .ret (.ofNat (1 + body.length)) (overlay (PBIT8 f.type ++ body) ap) := by
  have hn : (UInt32.ofNat (1 + body.length)).toNat = 1 + body.length :=
    UInt32.toNat_ofNat_of_lt' hb
  have hz : UInt32.ofNat (1 + body.length) ≠ 0 := by
    intro h
    rw [h, UInt32.toNat_zero] at hn
    omega
  simp only [ixpack, ixpackedsize_eq_of_body h, h, hn, hz, false_or, gt_iff_lt, not_lt.mpr hl, if_false,
    List.length_append, PBIT8_length, ne_eq, not_true_eq_false]

theorem overlay_take (bs ap : List UInt8) : (overlay bs ap).take bs.length = bs := by
  simp [overlay]

-- For a call that was unpacked, what is left to show is that its body stood right before `q`.
theorem reproduces_code_cons_iff (h : ixunpackBody t p = .ok (f, q)) (hp : 1 + p.length < 2 ^ 32)
    (hb : ixpackBody f = some body) :
    Reproduces (t.code :: p) ↔ p = body ++ q := by
  obtain ⟨ht, body', hb', hl, hq, _⟩ := ixunpackBody_eq_ok h
  obtain rfl := Option.some.inj (hb.symm.trans hb')
  obtain ⟨pre, rfl⟩ := hq
  have hn : 1 + (pre ++ q).length - q.length = 1 + pre.length := by simp; omega
  have htake : (t.code :: (pre ++ q)).take (1 + pre.length) = t.code :: pre := by
    simp [Nat.add_comm 1]
  have hcode : PBIT8 f.type ++ body = f.type :: body := by simp [PBIT8, encode]
  simp only [Reproduces, ixunpack_code_cons, h, hn, htake, List.append_left_inj]
  constructor
  · rintro ⟨-, he⟩
    have he := he _ le_rfl
    rw [ixpack_eq_ret hb (by omega) (by simp at hl ⊢; omega), hcode, ht] at he
    obtain ⟨hs, ho⟩ := Packed.ret.inj he
    have hs := congrArg UInt32.toNat hs
    simp only [List.length_append] at hp hl
    have hb32 : 1 + body.length < UInt32.size := show _ < 2 ^ 32 by omega
    have hp32 : 1 + pre.length < UInt32.size := show _ < 2 ^ 32 by omega
    rw [UInt32.toNat_ofNat_of_lt' hb32, UInt32.toNat_ofNat_of_lt' hp32] at hs
    have hs : (t.code :: body).length = (t.code :: pre).length := by simp; omega
    have ho := congrArg (List.take (t.code :: body).length) ho
    rw [overlay_take, hs, overlay_take] at ho
    exact (List.cons.inj ho).right.symm
  · rintro rfl
    refine ⟨by simp; omega, fun ap hap => ?_⟩
    rw [ixpack_eq_ret hb (by simp at hp; omega) (by simp at hap; omega), hcode, ht]

theorem Spoiled.not_reproduces (h : Spoiled b) (hb : b.length < 2 ^ 32) : ¬Reproduces b := by
  -- Unpacking succeeds, but for `IXTwrite`, and packing the result leads to other bytes.
  have mismatch {t f p body q} (hl : (t.code :: p).length < 2 ^ 32)
      (hu : ixunpackBody t p = .ok (f, q)) (hb : ixpackBody f = some body) (hne : p ≠ body ++ q) :
      ¬Reproduces (t.code :: p) := by
    rw [List.length_cons, Nat.add_comm] at hl
    exact mt (reproduces_code_cons_iff hu hl hb).mp hne
  have cut {raw q r} (hr : raw.length < 2 ^ 16) (h : 0 ∈ raw ∨ q ≠ r) :
      wstring raw ++ q ≠ pstring (some (.ofMem raw)) ++ r :=
    fun he => have ⟨hz, hq⟩ := (wstring_append_eq_pstring_append_iff hr).mp he
      h.elim hz (· hq)
  cases h
  case write h₁ h₂ =>
    simp [Reproduces, ixunpack_code_cons, ixunpackBody_eq_outside.mpr ⟨rfl, h₁, h₂⟩]
  case' version raw q t ht m hr h => obtain rfl | rfl := ht
  case' string raw q t ht hr h => obtain rfl | rfl | rfl := ht
  case' version.inl =>
    refine mismatch (f := .IXTversion m (some (.ofMem raw))) (q := q) hb ?_ rfl ?differ
    case differ => simpa using cut (q := q) (r := q) hr (.inl h)
  case' version.inr =>
    refine mismatch (f := .IXRversion m (some (.ofMem raw))) (q := q) hb ?_ rfl ?differ
    case differ => simpa using cut (q := q) (r := q) hr (.inl h)
  case' attach raw₁ raw₂ q hr₁ hr₂ h =>
    refine mismatch (f := .IXTattach (some (.ofMem raw₁)) (some (.ofMem raw₂))) (q := q) hb
      ?_ rfl ?differ
    case differ =>
      simpa using cut hr₁ <| h.imp_right fun h₂ => cut (q := q) (r := q) hr₂ (.inl h₂)
  case' string.inl =>
    refine mismatch (f := .IXRerror (some (.ofMem raw))) (q := q) hb ?_ rfl ?differ
    case differ => exact cut hr (.inl h)
  case' string.inr.inl =>
    refine mismatch (f := .IXTwalk (some (.ofMem raw))) (q := q) hb ?_ rfl ?differ
    case differ => exact cut hr (.inl h)
  case' string.inr.inr =>
    refine mismatch (f := .IXTattr (some (.ofMem raw))) (q := q) hb ?_ rfl ?differ
    case differ => exact cut hr (.inl h)
  case' create raw q perm mode hr h =>
    refine mismatch (f := .IXTcreate (some (.ofMem raw)) perm mode) (q := q) hb ?_ rfl ?differ
    case differ => simpa using cut (q := q) (r := q) hr (.inl h)
  case' move raw q dirfid hr h =>
    refine mismatch (f := .IXTmove dirfid (some (.ofMem raw))) (q := q) hb ?_ rfl ?differ
    case differ => simpa using cut (q := q) (r := q) hr (.inl h)
  case' rattr q h =>
    refine mismatch (f := .IXRattr q) (q := q) hb ?_ rfl ?differ
    case differ => simpa using h
  case' twattr raw q hr h =>
    refine mismatch (f := .IXTwattr (some (.ofMem raw)) q) (q := q) hb ?_ rfl ?differ
    case differ => simpa using cut (r := q ++ q) hr (h.imp_right (by simp))
  case' tcond raw q op ho hr h =>
    refine mismatch (f := .IXTcond op (some (.ofMem raw)) q) (q := q) hb ?_ (if_neg ho) ?differ
    case differ => simpa using cut (r := q ++ q) hr (h.imp_right (by simp))
  all_goals
    simp (disch := first | assumption | (simp <;> omega) | fail) only [ixunpackBody, bind_apply,
      pure_apply, need_of_le, GBIT8_PBIT8, GBIT32_PBIT32, gstring_wstring, remaining_apply,
      checkop_of_lt]

theorem reproduces_of_not_spoiled (h : ¬Spoiled b) (hb : b.length < 2 ^ 32) : Reproduces b := by
  cases b with
  | nil => simp [Reproduces, ixunpack_nil]
  | cons c p =>
    cases ht : IXtype.ofCode c with
    | none => simp [Reproduces, ixunpack_unknown ht]
    | some t =>
      obtain rfl := IXtype.code_of_ofCode ht
      rw [List.length_cons, Nat.add_comm] at hb
      cases hu : ixunpackBody t p with
      | ok r =>
        have ⟨_, _, hb', _, _, hp⟩ := ixunpackBody_eq_ok hu
        exact (reproduces_code_cons_iff hu hb hb').mpr <| hp h
      | error e =>
        cases e with
        | ret0 => simp [Reproduces, ixunpack_code_cons, hu]
        | outside =>
          have ⟨ht, h₁, h₂⟩ := ixunpackBody_eq_outside.mp hu
          exact absurd (ht ▸ .write h₁ h₂) h

theorem reproduces_iff (hb : b.length < 2 ^ 32) : Reproduces b ↔ ¬Spoiled b where
  mp h hs := hs.not_reproduces hb h
  mpr h   := reproduces_of_not_spoiled h hb

-- `ixpack` writes as many bytes as `ixpackedsize` says, and unpacking them together with the data
-- that follows gives the call back and that number.
def RoundTrips (f : IXcall) : Prop :=
  ∃ size bytes, ixpackedsize f = some size ∧ bytes.length = size.toNat ∧
    (∀ ap : List UInt8, size.toNat ≤ ap.length → ixpack f ap = .ret size (overlay bytes ap)) ∧
    ixunpack (bytes ++ f.data) = .ok (f.denil, size.toNat)

theorem ixunpack_packed {f : IXcall} (hf : f.Fits) (h : ixpackBody f = some body) :
    ixunpack (PBIT8 f.type ++ body ++ f.data) = .ok (f.denil, 1 + body.length - f.value.length) := by
  have ⟨t, ht, hu⟩ := ixunpackBody_ixpackBody hf h
  have hc : PBIT8 f.type ++ body ++ f.data = t.code :: (body ++ f.data) := by
    simp [PBIT8, encode, ht]
  rw [hc, ixunpack_code_cons, hu]
  simp only [List.length_append, Except.ok.injEq, Prod.mk.injEq, true_and]
  omega

theorem roundTrips_iff_value_eq_nil {f : IXcall} (hf : f.Fits) : RoundTrips f ↔ f.value = [] := by
  obtain ⟨body, hb, hl⟩ := hf.packs
  have hn : (UInt32.ofNat (1 + body.length)).toNat = 1 + body.length :=
    UInt32.toNat_ofNat_of_lt' hl
  have hsize := ixpackedsize_eq_of_body hb
  have hu := ixunpack_packed hf hb
  have hp {ap : List UInt8} (h : 1 + body.length ≤ ap.length) := ixpack_eq_ret hb hl h
  constructor
  · intro ⟨size, bytes, hs, hlen, hpack, hunpack⟩
    obtain rfl : UInt32.ofNat (1 + body.length) = size := Option.some.inj (hsize.symm.trans hs)
    rw [hn] at hlen hpack hunpack
    have ho := Packed.ret.inj <| (hp hlen.ge).symm.trans (hpack bytes hlen.ge)
    have hbytes : PBIT8 f.type ++ body = bytes := by
      have ho := congrArg (List.take bytes.length) ho.right
      have hl : (PBIT8 f.type ++ body).length = bytes.length := by simp [hlen]
      rwa [overlay_take, ← hl, overlay_take] at ho
    have he := (hbytes ▸ hu).symm.trans hunpack
    simp only [Except.ok.injEq, Prod.mk.injEq, true_and] at he
    exact List.eq_nil_of_length_eq_zero (by omega)
  · intro hv
    refine ⟨_, PBIT8 f.type ++ body, hsize, ?_, fun ap hap => hp (hn ▸ hap), ?_⟩
    · rw [hn, List.length_append, PBIT8_length]
    · rw [hu, hn, hv, List.length_nil, Nat.sub_zero]

theorem ixcall_codec {f : IXcall} {b : List UInt8} (hf : f.Fits) (hb : b.length < 2 ^ 32) :
    (RoundTrips f ↔ f.value = []) ∧ (Reproduces b ↔ ¬Spoiled b) :=
  ⟨roundTrips_iff_value_eq_nil hf, reproduces_iff hb⟩

theorem ixcall_codec_clunk_and_write :
    RoundTrips .IXTclunk ∧ ¬Reproduces (68 :: List.replicate 8 0) := by
  have hf : IXcall.IXTclunk.Fits := ⟨⟨[], rfl, by decide⟩, by decide, by decide⟩
  have hs : Spoiled (68 :: List.replicate 8 0) := .write (by decide) (by decide)
  have h := ixcall_codec (b := 68 :: List.replicate 8 0) hf (by decide)
  exact ⟨h.left.mpr rfl, fun hr => h.right.mp hr hs⟩

-- The value stays unread, and the second offset of `IXTwrite` is read from outside the buffer.
theorem ixcall_codec_fails :
    (IXcall.IXRattr [1]).Fits ∧ ¬RoundTrips (.IXRattr [1]) ∧
    ixunpack (68 :: List.replicate 8 0) = .error .outside ∧
    ¬Reproduces (68 :: List.replicate 8 0) := by
  have hf : (IXcall.IXRattr [1]).Fits := ⟨⟨[1], rfl, by decide⟩, by decide, by decide⟩
  have hw : ixunpack (68 :: List.replicate 8 0) = .error .outside := by decide
  exact ⟨hf, mt (roundTrips_iff_value_eq_nil hf).mp (by decide), hw, by simp only [Reproduces, hw, not_false_eq_true]⟩

end Creepy
