import Nix.Libc.FcallCodec

namespace Libc

open LittleEndian (encode encode_length decode_encode)
open Decoder (Codes)

namespace Mtype

theorem ofByte_byte (t : Mtype) : ofByte t.byte = some t := by
  cases t <;> rfl

theorem byte_of_ofByte {t : Mtype} {b : UInt8} (h : ofByte b = some t) : b = t.byte := by
  have hall : ∀ i : Fin 256, ∀ t ∈ ofByte (.ofNat i), UInt8.ofNat i = t.byte := by decide +kernel
  have := hall ⟨b.toNat, b.toNat_lt⟩ t
  rw [UInt8.ofNat_toNat] at this
  exact this h

theorem byte_inj {t t' : Mtype} (h : t.byte = t'.byte) : t = t' :=
  Option.some.inj <| (ofByte_byte t).symm.trans <| h ▸ ofByte_byte t'

end Mtype

section Decode

-- A message as a string of bytes.
def Fcall.bytes (f : Fcall (List UInt8) (List UInt8)) : List UInt8 :=
  encode 4 (7 + f.body.bytes.length) ++ encode 1 f.body.type.byte.toNat ++ encode 2 f.tag.toNat ++ f.body.bytes

@[simp]
theorem Fcall.bytes_length (f : Fcall (List UInt8) (List UInt8)) : f.bytes.length = 7 + f.body.bytes.length := by
  simp only [Fcall.bytes, List.length_append, encode_length]

theorem gtype_codes (b : UInt8) :
    Codes (gbody (Mtype.ofByte b)) 0 Body.bytes (fun f => b = f.type.byte ∧ f.Fits List.length) StoredBody := by
  cases h : Mtype.ofByte b
  case none =>
    have hnone : (fun f : Body (List UInt8) (List UInt8) => b = f.type.byte ∧ f.Fits List.length) = fun _ => False := by
      refine funext fun f => eq_false fun ⟨hf, _⟩ => ?_
      rw [hf, Mtype.ofByte_byte] at h
      cases h
    rw [hnone]
    exact .none (gbody_codes .Terror).keeps
  case some t =>
    have ht : (fun f : Body (List UInt8) (List UInt8) => b = f.type.byte ∧ f.Fits List.length) =
        fun f => f.type = t ∧ f.Fits List.length := by
      refine funext fun f => propext <| and_congr_left fun _ => ⟨fun hf => ?_, fun hf => ?_⟩
      · rw [hf, Mtype.ofByte_byte] at h
        exact Option.some.inj h
      · rw [Mtype.byte_of_ofByte h, hf]
    rw [ht]
    exact gbody_codes t

theorem gfcall_codes :
    Codes gfcall 0 (fun v : UInt32 × Fcall (List UInt8) (List UInt8) => encode 4 v.fst.toNat ++
        encode 1 v.snd.body.type.byte.toNat ++ encode 2 v.snd.tag.toNat ++ v.snd.body.bytes)
      (fun v => 7 ≤ v.fst.toNat ∧ v.snd.body.Fits List.length)
      fun m p a v => a.fst = v.fst ∧ a.snd.tag = v.snd.tag ∧ StoredBody m p a.snd.body v.snd.body := by
  have h := (number_codes GBIT32_codes fun size => (number_codes GBIT8_codes fun type => number_codes GBIT16_codes fun tag =>
    (gtype_codes type).bind fun body => .result (size, ({ tag, body } : Fcall Nat (Nat × Nat)))).guard
      (c := size.toNat < BIT32SZ + BIT8SZ + BIT16SZ)).room
  refine h.conv (fun v => (v.fst, ⟨v.snd.snd.fst, v.snd.snd.snd.fst⟩)) ?_ ?_ ?_ ?_
  · rintro ⟨size, type, tag, body, _⟩ ⟨-, -, -, -, ⟨htype, -⟩, -⟩
    obtain rfl : type = body.type.byte := htype
    simp
  · rintro ⟨size, tag, body⟩
    constructor
    · rintro ⟨hsize, hfits⟩
      exact ⟨(size, body.type.byte, tag, body, ()), rfl, trivial, Nat.not_lt.mpr hsize, trivial, trivial, ⟨rfl, hfits⟩,
        trivial⟩
    · rintro ⟨⟨size, type, tag, body, _⟩, hv, -, hsize, -, -, ⟨-, hfits⟩, -⟩
      cases hv
      exact ⟨Nat.not_lt.mp hsize, hfits⟩
  · rintro m m' p p' a v ⟨hsize, htag, hs⟩ hp hm
    exact ⟨hsize, htag, (gbody_codes .Terror).keeps hs hp hm⟩
  · rintro m p _ ⟨size, type, tag, body, _⟩ - ⟨g, hg, rfl⟩
    exact ⟨rfl, rfl, hg⟩

variable {b : Buf} {m : Memory}

theorem convM2S_decodes (b : Buf) (m : Memory) :
    ∃ m' r, convM2S b m = .ok (m', r) ∧ m.Within m' b.base b.stop ∧
      ∀ n g, r = some (n, g) → ∃ f : Fcall (List UInt8) (List UInt8), f.body.Fits List.length ∧
        n = f.bytes.length ∧ n < 2 ^ 32 ∧ n ≤ b.len ∧ m.At b.base f.bytes ∧ g.tag = f.tag ∧
          StoredBody m' (b.base + n) g.body f.body := by
  rcases gfcall_codes.decodes (m := m) (Nat.le_refl b.base) (Nat.le_add_right ..) with
    ⟨m', hg, hw⟩ | ⟨m', ⟨size, g⟩, ⟨size', f⟩, hg, ⟨hsize, hfits⟩, hat, hle, hw, rfl, htag, hs⟩
  · exact ⟨m', none, by rw [convM2S, hg]; rfl, hw, nofun⟩
  · dsimp only at *
    have hlen : (encode 4 size.toNat ++ encode 1 f.body.type.byte.toNat ++ encode 2 f.tag.toNat ++ f.body.bytes).length =
        f.bytes.length := by
      simp [Fcall.bytes]
    rw [hlen] at hle hw hg hs
    refine ⟨m', if b.base + size.toNat = b.base + f.bytes.length then some (size.toNat, g) else none, ?_,
      hw.mono (Nat.le_refl _) hle, fun n g' hr => ?_⟩
    · rw [convM2S, hg, Except.ok_bind]
      simp only [Option.bind_some, if_neg (Nat.not_lt.mpr hle)]
    · split at hr
      case isFalse => cases hr
      case isTrue hp =>
        obtain ⟨rfl, rfl⟩ := Prod.mk.inj <| Option.some.inj hr
        have hn : size.toNat = f.bytes.length := Nat.add_left_cancel hp
        refine ⟨f, hfits, hn, size.toNat_lt, ?_, ?_, htag, hn ▸ hs⟩
        · rw [hn]
          exact Nat.le_of_add_le_add_left hle
        · rw [hn, Fcall.bytes_length] at hat
          exact hat

theorem convM2S_accepts {f : Fcall (List UInt8) (List UInt8)} (hfits : f.body.Fits List.length)
    (hlt : f.bytes.length < 2 ^ 32) (hle : f.bytes.length ≤ b.len) (hat : m.At b.base f.bytes) :
    ∃ m' g, convM2S b m = .ok (m', some (f.bytes.length, g)) ∧ g.tag = f.tag ∧
      StoredBody m' (b.base + f.bytes.length) g.body f.body := by
  have hsize : (UInt32.ofNat f.bytes.length).toNat = f.bytes.length := UInt32.toNat_ofNat_of_lt' hlt
  have hbytes : f.bytes = encode 4 (UInt32.ofNat f.bytes.length).toNat ++ encode 1 f.body.type.byte.toNat ++
      encode 2 f.tag.toNat ++ f.body.bytes := by
    rw [hsize, Fcall.bytes_length]
    rfl
  have hle : b.base + f.bytes.length ≤ b.stop := Nat.add_le_add_left hle _
  have h7 : 7 ≤ (UInt32.ofNat f.bytes.length).toNat := by
    rw [hsize, Fcall.bytes_length]
    exact Nat.le_add_right ..
  obtain ⟨m', ⟨size, g⟩, hg, -, rfl, htag, hs⟩ := gfcall_codes.accepts (v := (.ofNat f.bytes.length, f)) (Nat.le_refl b.base)
    (hbytes ▸ hle) ⟨h7, hfits⟩ (hbytes ▸ hat)
  dsimp only at *
  rw [← hbytes] at hg hs
  refine ⟨m', g, ?_, htag, hs⟩
  rw [convM2S, hg, Except.ok_bind]
  simp only [Option.bind_some, if_neg (Nat.not_lt.mpr hle), hsize, if_true]

end Decode

def Body.map {S T D : Type} (h : S → T) : Body S D → Body T D
  | .Tversion msize version => .Tversion msize (h version)
  | .Rversion msize version => .Rversion msize (h version)
  | .Tauth afid uname aname => .Tauth afid (h uname) (h aname)
  | .Rauth aqid => .Rauth aqid
  | .Tattach fid afid uname aname => .Tattach fid afid (h uname) (h aname)
  | .Rattach qid => .Rattach qid
  | .Rerror ename => .Rerror (h ename)
  | .Tflush oldtag => .Tflush oldtag
  | .Rflush => .Rflush
  | .Twalk fid newfid wname => .Twalk fid newfid (wname.map h)
  | .Rwalk wqid => .Rwalk wqid
  | .Topen fid mode => .Topen fid mode
  | .Ropen qid iounit => .Ropen qid iounit
  | .Tcreate fid name perm mode => .Tcreate fid (h name) perm mode
  | .Rcreate qid iounit => .Rcreate qid iounit
  | .Tread fid offset count => .Tread fid offset count
  | .Rread data => .Rread data
  | .Twrite fid offset data => .Twrite fid offset data
  | .Rwrite count => .Rwrite count
  | .Tclunk fid => .Tclunk fid
  | .Rclunk => .Rclunk
  | .Tremove fid => .Tremove fid
  | .Rremove => .Rremove
  | .Tstat fid => .Tstat fid
  | .Rstat stat => .Rstat stat
  | .Twstat fid stat => .Twstat fid stat
  | .Rwstat => .Rwstat

-- A message with its strings as bytes.
def Fcall.text (f : Fcall (Option CStr) (List UInt8)) : Fcall (List UInt8) (List UInt8) where
  tag  := f.tag
  body := f.body.map Libc.text

section Encode

theorem pstring_eq : pstring = fun s => counted (text s) := by
  funext s
  cases s <;> rfl

theorem stringsz_eq : stringsz = fun s => (counted (text s)).length := by
  funext s
  cases s <;> simp [stringsz, text]

theorem Body.map_type {S T D : Type} (h : S → T) (f : Body S D) : (f.map h).type = f.type := by
  cases f <;> rfl

theorem Body.map_fits (f : Body (Option CStr) (List UInt8)) : (f.map text).Fits List.length ↔ f.Fits strlen := by
  cases f <;> simp [Body.map, Body.Fits, Body.strings, strlen]

@[simp]
theorem pqid_length (q : Qid) : (pqid q).length = 13 := by
  simp [pqid]

theorem size_eq (f : Fcall (Option CStr) (List UInt8)) : f.size = f.text.bytes.length := by
  obtain ⟨tag, f⟩ := f
  rw [Fcall.bytes_length]
  have hq (qs : List Qid) : (qs.flatMap pqid).length = qs.length * 13 := by
    simp [List.length_flatMap]
  have hs (ss : List (Option CStr)) : ((ss.map text).flatMap counted).length = (ss.map stringsz).sum := by
    rw [List.length_flatMap, List.map_map, stringsz_eq]
    rfl
  cases f
  case Twalk fid newfid wname =>
    simp only [Fcall.size, Fcall.text, Body.map, Body.bytes, List.length_append, encode_length, hs, BIT8SZ, BIT16SZ, BIT32SZ]
    omega
  case Rwalk wqid =>
    simp only [Fcall.size, Fcall.text, Body.map, Body.bytes, List.length_append, encode_length, hq, BIT8SZ, BIT16SZ, BIT32SZ,
      BIT64SZ, QIDSZ]
    omega
  all_goals
    simp [Fcall.size, Fcall.text, Body.map, Body.bytes, stringsz_eq, BIT8SZ, BIT16SZ, BIT32SZ, BIT64SZ, QIDSZ]
    try omega

theorem pbody_eq {f : Body (Option CStr) (List UInt8)} (p : List UInt8) (h : f.Fits strlen) :
    pbody p f = (true, p ++ (f.map text).bytes) := by
  cases f
  case Twalk fid newfid wname =>
    have : ¬wname.length > MAXWELEM := Nat.not_lt.mpr h.right
    simp [pbody, Body.map, Body.bytes, pstring_eq, this, List.flatMap_map]
  case Rwalk wqid =>
    have : ¬wqid.length > MAXWELEM := Nat.not_lt.mpr h.right
    simp [pbody, Body.map, Body.bytes, this]
  all_goals simp [pbody, Body.map, Body.bytes, pstring_eq]

theorem convS2M_eq {f : Fcall (Option CStr) (List UInt8)} {nap : Nat} (h : f.body.Fits strlen) (hlt : f.size < 2 ^ 32)
    (hn : sizeS2M f ≤ nap) : sizeS2M f = f.text.bytes.length ∧ convS2M f nap = (f.text.bytes.length, f.text.bytes) := by
  have hsize : sizeS2M f = f.text.bytes.length := by rw [sizeS2M, Nat.mod_eq_of_lt hlt, size_eq]
  have hlen := f.text.bytes_length
  have hp : encode 4 (sizeS2M f) ++ encode 1 f.body.type.byte.toNat ++ encode 2 f.tag.toNat ++ f.text.body.bytes =
      f.text.bytes := by
    rw [hsize, hlen, ← Body.map_type text f.body]
    rfl
  have h0 : sizeS2M f ≠ 0 := by omega
  have hput := pbody_eq (encode 4 (sizeS2M f) ++ encode 1 f.body.type.byte.toNat ++ encode 2 f.tag.toNat) h
  rw [show (f.body.map text).bytes = f.text.body.bytes from rfl, hp] at hput
  refine ⟨hsize, ?_⟩
  rw [convS2M]
  simp only [if_neg h0, if_neg (Nat.not_lt.mpr hn), hput]
  rw [if_neg (not_not.mpr hsize), hsize]

theorem exists_text {f : Fcall (List UInt8) (List UInt8)} (h : ∀ s ∈ f.body.strings, 0 ∉ s) : ∃ g, Fcall.text g = f := by
  let c (s : List UInt8) : Option CStr := if h : 0 ∈ s then none else some ⟨s, h⟩
  have hc {s : List UInt8} (hs : 0 ∉ s) : text (c s) = s := by
    simp only [c, dif_neg hs]
    rfl
  obtain ⟨tag, f⟩ := f
  refine ⟨⟨tag, f.map c⟩, ?_⟩
  rw [Fcall.text]
  congr 1
  cases f
  case Twalk fid newfid wname =>
    have : (wname.map c).map text = wname := by
      rw [List.map_map]
      exact (List.map_congr_left fun s hs => hc (h s hs)).trans (List.map_id _)
    simp only [Body.map, this]
  all_goals simp_all [Body.strings, Body.map]

end Encode

-- A message that was decoded, in a memory below a place.
structure StoredFcall (m : Memory) (p : Nat) (g : Fcall Nat (Nat × Nat)) (f : Fcall (List UInt8) (List UInt8)) : Prop where
  tag  : g.tag = f.tag
  body : StoredBody m p g.body f.body

-- A message is read as it was written, and what is accepted is a message.
theorem fcall_codec :
    (∀ f : Fcall (Option CStr) (List UInt8), f.body.Fits strlen → f.size < 2 ^ 32 → ∀ nap, sizeS2M f ≤ nap →
        ∃ out, convS2M f nap = (sizeS2M f, out) ∧ out.length = sizeS2M f ∧
          ∀ b (m : Memory), sizeS2M f ≤ b.len → m.bytes b.base (sizeS2M f) = out →
            ∃ m' g, convM2S b m = .ok (m', some (sizeS2M f, g)) ∧ StoredFcall m' (b.base + sizeS2M f) g f.text) ∧
      ∀ b (m : Memory), ∃ m' r, convM2S b m = .ok (m', r) ∧ m.Within m' b.base b.stop ∧
        ∀ n g, r = some (n, g) → n ≤ b.len ∧ ∃ v, StoredFcall m' (b.base + n) g v ∧ m.bytes b.base n = v.bytes ∧
          ((∀ s ∈ v.body.strings, 0 ∉ s) → ∃ f, Fcall.text f = v ∧
            ∀ nap, n ≤ nap → convS2M f nap = (n, m.bytes b.base n)) := by
  constructor
  · intro f hfits hlt nap hn
    obtain ⟨hsize, hconv⟩ := convS2M_eq hfits hlt hn
    refine ⟨f.text.bytes, hsize ▸ hconv, hsize.symm, fun b m hlen hb => ?_⟩
    rw [hsize] at hlen hb ⊢
    obtain ⟨m', g, hg, htag, hbody⟩ := convM2S_accepts ((Body.map_fits f.body).mpr hfits) (size_eq f ▸ hlt) hlen hb
    exact ⟨m', g, hg, htag, hbody⟩
  · intro b m
    obtain ⟨m', r, hr, hw, hsome⟩ := convM2S_decodes b m
    refine ⟨m', r, hr, hw, fun n g hn => ?_⟩
    obtain ⟨v, hfits, rfl, hlt, hle, hat, htag, hbody⟩ := hsome n g hn
    refine ⟨hle, v, ⟨htag, hbody⟩, hat, fun hnul => ?_⟩
    obtain ⟨f, rfl⟩ := exists_text hnul
    have hlt : f.size < 2 ^ 32 := size_eq f ▸ hlt
    have hsize : sizeS2M f = f.text.bytes.length := by rw [sizeS2M, Nat.mod_eq_of_lt hlt, size_eq]
    refine ⟨f, rfl, fun nap hnap => ?_⟩
    rw [(convS2M_eq ((Body.map_fits f.body).mp hfits) hlt (hsize ▸ hnap)).right, hat]

def clunk : Fcall (Option CStr) (List UInt8) where
  tag  := 1
  body := .Tclunk 7

def clunked : Memory :=
  Memory.write (fun _ => 0) 0 (convS2M clunk 11).snd

theorem fcall_codec_clunk : ∃ m' g, convM2S ⟨0, 11⟩ clunked = .ok (m', some (11, g)) ∧ StoredFcall m' 11 g clunk.text := by
  obtain ⟨out, ho, hl, h⟩ := fcall_codec.left clunk ⟨nofun, trivial⟩ (by decide) 11 (by decide)
  have hw : clunked = Memory.write (fun _ => 0) 0 out := by rw [clunked, ho]
  have hm : clunked.bytes 0 11 = out := by
    have := Memory.at_write (fun _ => 0) 0 out
    rwa [← hw, Memory.At, hl] at this
  exact h ⟨0, 11⟩ clunked (by decide) hm

-- An error message that is one byte, which is zero.
def rerror : Memory
  | 0 => 10
  | 4 => 107
  | 7 => 1
  | _ => 0

theorem convS2M_rerror {m : Memory} {f : Fcall (Option CStr) (List UInt8)} (h0 : m 8 = 0)
    (h : StoredBody m 10 (.Rerror 8) f.text.body) : (convS2M f 10).fst = 9 := by
  obtain ⟨tag, f⟩ := f
  cases f with
  | Rerror ename =>
    cases h with
    | Rerror hs =>
      have hnil : text ename = [] := by
        rcases ename with _ | ⟨_ | ⟨x, xs⟩, hnul⟩
        · rfl
        · rfl
        · have hx : m.At 8 ([x] ++ (xs ++ [0])) := hs.left
          obtain rfl : m 8 = x := Memory.at_singleton.mp (Memory.at_append.mp hx).left
          exact absurd (h0 ▸ List.mem_cons_self) hnul
      have hfits : (Body.Rerror ename : Body _ (List UInt8)).Fits strlen := by
        simp [Body.Fits, Body.strings, strlen, hnil]
      have hlen : (Fcall.text ⟨tag, .Rerror ename⟩).bytes.length = 9 := by
        simp [Fcall.text, Body.map, Body.bytes, hnil]
      have hsize : (⟨tag, .Rerror ename⟩ : Fcall _ _).size = 9 := by rw [size_eq, hlen]
      rw [(convS2M_eq hfits (hsize ▸ by decide) (by rw [sizeS2M, hsize]; decide)).right, hlen]
  | _ => cases h

-- The message that is written for what was decoded is shorter then. A size that does not fit in its count is not found
-- to be too large for the buffer.
theorem fcall_codec_incorrect :
    (∃ m' g, convM2S ⟨0, 10⟩ rerror = .ok (m', some (10, g)) ∧
        ∀ f, StoredFcall m' 10 g (Fcall.text f) → (convS2M f 10).fst = 9) ∧
      ∀ data : List UInt8, data.length = 2 ^ 32 - 22 →
        (Body.Twrite 0 0 data : Body (Option CStr) (List UInt8)).Fits strlen ∧ sizeS2M ⟨0, .Twrite 0 0 data⟩ = 1 ∧
          (convS2M ⟨0, .Twrite 0 0 data⟩ 1).fst = 0 := by
  constructor
  · exact ⟨_, _, rfl, fun f h => convS2M_rerror (by decide) h.body⟩
  · intro data hdata
    have hsize : sizeS2M ⟨0, .Twrite 0 0 data⟩ = 1 := by
      simp [sizeS2M, Fcall.size, hdata, BIT8SZ, BIT16SZ, BIT32SZ, BIT64SZ]
    refine ⟨⟨nofun, by omega⟩, hsize, ?_⟩
    rw [convS2M]
    simp only [hsize, pbody]
    rw [if_neg (by decide), if_neg (by decide), if_pos]
    simp only [List.length_append, encode_length]
    omega

end Libc
