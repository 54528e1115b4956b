import Nix.Libc.Fcall

namespace Libc

section

open LittleEndian (encode decode encode_length decode_encode decode_lt encode_decode_of_length)
open Decoder (Codes)

-- A string that a decoder has put where it ends with a zero, and data that stay where they are.
def StoredString (m : Memory) (p a : Nat) (s : List UInt8) : Prop :=
  m.At a (s ++ [0]) ∧ a + s.length + 1 ≤ p

def StoredData (m : Memory) (p : Nat) (a : Nat × Nat) (d : List UInt8) : Prop :=
  m.At a.fst d ∧ a.snd = d.length ∧ a.fst + d.length ≤ p

section Fields

theorem number_codes {α β β₂ : Type} {g : Decoder α} {k : α → Decoder β} {w n : Nat} {num : α → Nat} {ok : α → Prop}
    {enc₂ : β₂ → List UInt8} {ok₂ : α → β₂ → Prop} {rep₂ : α → Memory → Nat → β → β₂ → Prop}
    (h₁ : Codes g w (fun v => encode w (num v)) ok fun _ _ a v => a = v)
    (h₂ : ∀ a, Codes (k a) n enc₂ (ok₂ a) (rep₂ a)) :
    Codes (g >>= k) (w + n) (fun v : α × β₂ => encode w (num v.fst) ++ enc₂ v.snd)
      (fun v => ok v.fst ∧ ok₂ v.fst v.snd) fun m p c v => rep₂ v.fst m p c v.snd :=
  h₁.bind_fixed h₂ fun _ => encode_length ..

theorem GBIT8_codes : Codes GBIT8 1 (fun v => encode 1 v.toNat) (fun _ => True) fun _ _ a v => a = v :=
  .take (fun _ => encode_length ..) ofNat8_encode fun _ => encode_ofNat8

theorem GBIT16_codes : Codes GBIT16 2 (fun v => encode 2 v.toNat) (fun _ => True) fun _ _ a v => a = v :=
  .take (fun _ => encode_length ..) ofNat16_encode fun _ => encode_ofNat16

theorem GBIT32_codes : Codes GBIT32 4 (fun v => encode 4 v.toNat) (fun _ => True) fun _ _ a v => a = v :=
  .take (fun _ => encode_length ..) ofNat32_encode fun _ => encode_ofNat32

theorem GBIT64_codes : Codes GBIT64 8 (fun v => encode 8 v.toNat) (fun _ => True) fun _ _ a v => a = v :=
  .take (fun _ => encode_length ..) ofNat64_encode fun _ => encode_ofNat64

variable {b : Buf} {m : Memory} {p : Nat} {s : List UInt8}

theorem gstring_eq (h : m.At p (counted s)) (hs : s.length < 65536) (hl : b.base ≤ p)
    (hr : p + (counted s).length ≤ b.stop) :
    gstring b m p = .ok (m.write (p + 1) (s ++ [0]), some (p + (counted s).length, p + 1)) := by
  rw [counted_length] at hr ⊢
  have hsm : m.At (p + 1 + 1) s := by
    have := (Memory.at_append.mp h).right
    rwa [encode_length] at this
  have hplace : p + 1 + (s.length + 1) = p + (2 + s.length) := by omega
  rw [gstring, if_neg (by simp only [BIT16SZ]; omega), GBIT_counted h hs hl (by omega), Except.ok_bind]
  simp only [BIT16SZ, Nat.reduceSub, hplace]
  rw [if_neg (by omega), Buf.read_of_at hsm (by omega) (by omega), Except.ok_bind, Memory.write_append]

theorem gstring_none (hl : b.base ≤ p) (h : ∀ s : List UInt8, s.length < 65536 → m.At p (counted s) →
    b.stop < p + (counted s).length) : gstring b m p = .ok (m, none) := by
  rw [gstring]
  split
  case isTrue => rfl
  case isFalse hp =>
    have hp : p + 2 ≤ b.stop := Nat.not_lt.mp hp
    have hn : decode (m.bytes p 2) < 65536 := by simpa using decode_lt (m.bytes p 2)
    have hat : m.At p (counted (m.bytes (p + 2) (decode (m.bytes p 2)))) := by
      rw [counted, Memory.bytes_length, encode_decode_of_length (m.bytes_length p 2), Memory.at_append,
        Memory.bytes_length]
      exact ⟨m.at_bytes .., m.at_bytes ..⟩
    have := h _ (by rwa [Memory.bytes_length]) hat
    rw [counted_length, Memory.bytes_length] at this
    rw [GBIT_eq m hl hp, Except.ok_bind]
    exact if_pos (by simp only [BIT16SZ]; omega)

theorem stored_gstring : m.Within (m.write (p + 1) (s ++ [0])) p (p + (counted s).length) ∧
    StoredString (m.write (p + 1) (s ++ [0])) (p + (counted s).length) (p + 1) s := by
  rw [counted_length]
  refine ⟨.write (Nat.le_add_right ..) ?_, m.at_write .., by omega⟩
  rw [List.length_append, List.length_singleton]
  omega

-- A string takes one byte less than before with its count, and one more with the zero.
theorem gstring_codes : Codes gstring 0 counted (fun s => s.length < 65536) StoredString where
  keeps   := by
    rintro m m' p p' a s ⟨hat, hle⟩ hp hm
    refine ⟨hat.congr fun i _ hi => hm i ?_, by omega⟩
    rw [List.length_append, List.length_singleton] at hi
    omega
  need_le _ _ := Nat.zero_le _
  decodes := by
    intro b m p hl hp
    by_cases h : ∃ s : List UInt8, s.length < 65536 ∧ m.At p (counted s) ∧ p + (counted s).length ≤ b.stop
    case pos =>
      obtain ⟨s, hs, hat, hr⟩ := h
      exact .inr ⟨_, _, s, gstring_eq hat hs hl hr, hs, hat, hr, stored_gstring⟩
    case neg =>
      refine .inl ⟨m, gstring_none hl fun s hs hat => ?_, fun _ _ => rfl⟩
      exact Nat.lt_of_not_le fun hr => h ⟨s, hs, hat, hr⟩
  accepts := by
    intro b m p s hl hr hs hat
    exact ⟨_, _, gstring_eq hat hs hl hr, stored_gstring⟩

def qid (v : UInt8 × UInt32 × UInt64 × Unit) : Qid :=
  { path := v.snd.snd.fst, vers := v.snd.fst, type := v.fst }

theorem gqid_codes : Codes gqid 0 pqid (fun _ => True) fun _ _ a v => a = v := by
  have h := (number_codes GBIT8_codes fun type => number_codes GBIT32_codes fun vers => number_codes GBIT64_codes fun path =>
    .result ({ path, vers, type } : Qid)).room
  refine h.conv qid (fun v _ => ?_) (fun u => ?_) (fun h _ _ => h) fun _ h => h
  · simp [pqid, qid]
  · exact ⟨fun _ => ⟨(u.type, u.vers, u.path, ()), rfl, trivial, trivial, trivial, trivial⟩, fun _ => trivial⟩

variable {α β : Type} {enc : β → List UInt8} {ok : β → Prop}

theorem StoredData.keeps {m m' : Memory} {p p' : Nat} {a : Nat × Nat} {d : List UInt8} (h : StoredData m p a d)
    (hp : p ≤ p') (hm : ∀ i < p, m' i = m i) : StoredData m' p' a d :=
  ⟨h.left.congr fun i _ hi => hm i <| Nat.lt_of_lt_of_le hi h.right.right, h.right.left, Nat.le_trans h.right.right hp⟩

theorem data_codes {ν : Type} {g : Decoder ν} {num : ν → Nat} {w : Nat} {k : Nat × Nat → Decoder α}
    {rep : Nat × Nat → Memory → Nat → α → β → Prop}
    (hg : Codes g w (fun v => encode w (num v)) (fun _ => True) fun _ _ a v => a = v)
    (hn : ∀ n, n < 256 ^ w ↔ ∃ v, num v = n) (h : ∀ a, Codes (k a) 0 enc ok (rep a)) :
    Codes (g >>= fun count => .room (num count) >>= fun _ => .skip (num count) >>= fun data => k (data, num count))
      w (fun v : List UInt8 × β => encode w v.fst.length ++ v.fst ++ enc v.snd)
      (fun v => v.fst.length < 256 ^ w ∧ ok v.snd) fun m p c v => ∃ a, StoredData m p a v.fst ∧ rep a m p c v.snd := by
  have hdata := number_codes hg fun count => ((Codes.skip (num count)).bind fun data => h (data, num count)).room
  refine hdata.conv Prod.snd ?_ ?_ ?_ ?_
  · rintro ⟨count, d, u⟩ ⟨-, hd, hu⟩
    simp [hd]
  · rintro v
    constructor
    · rintro ⟨hlen, hu⟩
      obtain ⟨count, hc⟩ := (hn v.fst.length).mp hlen
      exact ⟨(count, v), rfl, trivial, hc.symm, hu⟩
    · rintro ⟨⟨count, d, u⟩, rfl, -, hd, hu⟩
      exact ⟨(hn d.length).mpr ⟨count, hd.symm⟩, hu⟩
  · rintro m m' p p' c v ⟨a, hs, hr⟩ hp hm
    exact ⟨a, hs.keeps hp hm, (h a).keeps hr hp hm⟩
  · rintro m p c ⟨count, d, u⟩ ⟨-, hd, -⟩ ⟨a, ⟨hat, hle⟩, hr⟩
    exact ⟨(a, num count), ⟨hat, hd.symm, hle⟩, hr⟩

theorem times_codes {γ δ : Type} {g : Decoder γ} {enc₁ : δ → List UInt8} {ok₁ : δ → Prop}
    {rep₁ : Memory → Nat → γ → δ → Prop} {k : List γ → Decoder α} {rep : List γ → Memory → Nat → α → β → Prop}
    (hg : Codes g 0 enc₁ ok₁ rep₁) (h : ∀ as, Codes (k as) 0 enc ok (rep as)) :
    Codes (GBIT16 >>= fun n => if n.toNat > MAXWELEM then .fail else .times g n.toNat >>= k) 2
      (fun v : List δ × β => encode 2 v.fst.length ++ v.fst.flatMap enc₁ ++ enc v.snd)
      (fun v => v.fst.length ≤ MAXWELEM ∧ (∀ u ∈ v.fst, ok₁ u) ∧ ok v.snd)
      fun m p c v => ∃ as, List.Forall₂ (rep₁ m p) as v.fst ∧ rep as m p c v.snd := by
  have htimes := number_codes GBIT16_codes fun n => ((hg.times n.toNat).bind h).guard (c := n.toNat > MAXWELEM)
  refine htimes.conv Prod.snd ?_ ?_ ?_ ?_
  · rintro ⟨n, us, u⟩ ⟨-, -, ⟨hus, -⟩, -⟩
    simp [hus]
  · rintro v
    constructor
    · rintro ⟨hlen, hus, hu⟩
      have hn : (UInt16.ofNat v.fst.length).toNat = v.fst.length := UInt16.toNat_ofNat_of_lt' <| by
        have hlen : v.fst.length ≤ 16 := hlen
        exact Nat.lt_of_le_of_lt hlen (by decide)
      exact ⟨(.ofNat v.fst.length, v), rfl, trivial, by simpa only [hn, Nat.not_lt] using hlen, ⟨hn.symm, hus⟩, hu⟩
    · rintro ⟨⟨n, us, u⟩, rfl, -, hn, ⟨hlen, hus⟩, hu⟩
      exact ⟨hlen ▸ Nat.not_lt.mp hn, hus, hu⟩
  · rintro m m' p p' c v ⟨as, hs, hr⟩ hp hm
    exact ⟨as, hs.imp fun _ _ hs => hg.keeps hs hp hm, (h as).keeps hr hp hm⟩
  · rintro m p c ⟨n, us, u⟩ - hr
    exact hr

end Fields

-- The fields of a message as bytes, where the strings may have any bytes.
def Body.bytes : Body (List UInt8) (List UInt8) → List UInt8
  | .Tversion msize version | .Rversion msize version => encode 4 msize.toNat ++ counted version
  | .Tauth afid uname aname         => encode 4 afid.toNat ++ counted uname ++ counted aname
  | .Rauth qid | .Rattach qid       => pqid qid
  | .Tattach fid afid uname aname   =>
    encode 4 fid.toNat ++ encode 4 afid.toNat ++ counted uname ++ counted aname
  | .Rerror ename                   => counted ename
  | .Tflush oldtag                  => encode 2 oldtag.toNat
  | .Rflush | .Rclunk | .Rremove | .Rwstat => []
  | .Twalk fid newfid wname         =>
    encode 4 fid.toNat ++ encode 4 newfid.toNat ++ encode 2 wname.length ++ wname.flatMap counted
  | .Rwalk wqid                     => encode 2 wqid.length ++ wqid.flatMap pqid
  | .Topen fid mode                 => encode 4 fid.toNat ++ encode 1 mode.toNat
  | .Ropen qid iounit | .Rcreate qid iounit => pqid qid ++ encode 4 iounit.toNat
  | .Tcreate fid name perm mode     =>
    encode 4 fid.toNat ++ counted name ++ encode 4 perm.toNat ++ encode 1 mode.toNat
  | .Tread fid offset count         => encode 4 fid.toNat ++ encode 8 offset.toNat ++ encode 4 count.toNat
  | .Rread data                     => encode 4 data.length ++ data
  | .Twrite fid offset data         =>
    encode 4 fid.toNat ++ encode 8 offset.toNat ++ encode 4 data.length ++ data
  | .Rwrite count                   => encode 4 count.toNat
  | .Tclunk fid | .Tremove fid | .Tstat fid => encode 4 fid.toNat
  | .Rstat stat                     => encode 2 stat.length ++ stat
  | .Twstat fid stat                => encode 4 fid.toNat ++ encode 2 stat.length ++ stat

def Body.strings {S D : Type} : Body S D → List S
  | .Tversion _ s | .Rversion _ s | .Rerror s | .Tcreate _ s _ _ => [s]
  | .Tauth _ uname aname | .Tattach _ _ uname aname => [uname, aname]
  | .Twalk _ _ wname => wname
  | _ => []

-- What the counts of a message have place for, and what its arrays have.
def Body.Fits {S : Type} (size : S → Nat) (f : Body S (List UInt8)) : Prop :=
  (∀ s ∈ f.strings, size s < 65536) ∧
    match f with
    | .Twalk _ _ wname            => wname.length ≤ MAXWELEM
    | .Rwalk wqid                 => wqid.length ≤ MAXWELEM
    | .Rread data | .Twrite _ _ data => data.length < 2 ^ 32
    | .Rstat stat | .Twstat _ stat   => stat.length < 65536
    | _                           => True

-- Two messages with the same fields, up to what their strings and their data are given by.
inductive Body.Rel {S T D E : Type} (R : S → T → Prop) (Q : D → E → Prop) : Body S D → Body T E → Prop
  | Tversion {msize s t} (h : R s t) : Rel R Q (.Tversion msize s) (.Tversion msize t)
  | Rversion {msize s t} (h : R s t) : Rel R Q (.Rversion msize s) (.Rversion msize t)
  | Tauth {afid s t s' t'} (h : R s t) (h' : R s' t') : Rel R Q (.Tauth afid s s') (.Tauth afid t t')
  | Rauth {aqid} : Rel R Q (.Rauth aqid) (.Rauth aqid)
  | Tattach {fid afid s t s' t'} (h : R s t) (h' : R s' t') :
    Rel R Q (.Tattach fid afid s s') (.Tattach fid afid t t')
  | Rattach {qid} : Rel R Q (.Rattach qid) (.Rattach qid)
  | Rerror {s t} (h : R s t) : Rel R Q (.Rerror s) (.Rerror t)
  | Tflush {oldtag} : Rel R Q (.Tflush oldtag) (.Tflush oldtag)
  | Rflush : Rel R Q .Rflush .Rflush
  | Twalk {fid newfid ss ts} (h : List.Forall₂ R ss ts) : Rel R Q (.Twalk fid newfid ss) (.Twalk fid newfid ts)
  | Rwalk {wqid} : Rel R Q (.Rwalk wqid) (.Rwalk wqid)
  | Topen {fid mode} : Rel R Q (.Topen fid mode) (.Topen fid mode)
  | Ropen {qid iounit} : Rel R Q (.Ropen qid iounit) (.Ropen qid iounit)
  | Tcreate {fid s t perm mode} (h : R s t) : Rel R Q (.Tcreate fid s perm mode) (.Tcreate fid t perm mode)
  | Rcreate {qid iounit} : Rel R Q (.Rcreate qid iounit) (.Rcreate qid iounit)
  | Tread {fid offset count} : Rel R Q (.Tread fid offset count) (.Tread fid offset count)
  | Rread {d e} (h : Q d e) : Rel R Q (.Rread d) (.Rread e)
  | Twrite {fid offset d e} (h : Q d e) : Rel R Q (.Twrite fid offset d) (.Twrite fid offset e)
  | Rwrite {count} : Rel R Q (.Rwrite count) (.Rwrite count)
  | Tclunk {fid} : Rel R Q (.Tclunk fid) (.Tclunk fid)
  | Rclunk : Rel R Q .Rclunk .Rclunk
  | Tremove {fid} : Rel R Q (.Tremove fid) (.Tremove fid)
  | Rremove : Rel R Q .Rremove .Rremove
  | Tstat {fid} : Rel R Q (.Tstat fid) (.Tstat fid)
  | Rstat {d e} (h : Q d e) : Rel R Q (.Rstat d) (.Rstat e)
  | Twstat {fid d e} (h : Q d e) : Rel R Q (.Twstat fid d) (.Twstat fid e)
  | Rwstat : Rel R Q .Rwstat .Rwstat

theorem Body.Rel.imp {S T D E : Type} {R R' : S → T → Prop} {Q Q' : D → E → Prop} {f : Body S D} {g : Body T E}
    (h : Rel R Q f g) (hr : ∀ {s t}, R s t → R' s t) (hq : ∀ {d e}, Q d e → Q' d e) : Rel R' Q' f g := by
  cases h
  case Twalk h => exact .Twalk <| h.imp fun _ _ => hr
  all_goals
    constructor <;> first | apply hr; assumption | apply hq; assumption

-- The fields that a decoder has found.
abbrev StoredBody (m : Memory) (p : Nat) : Body Nat (Nat × Nat) → Body (List UInt8) (List UInt8) → Prop :=
  Body.Rel (StoredString m p) (StoredData m p)

end

open LittleEndian (encode_length)
open Decoder (Codes)

theorem body_codes {β : Type} {t : Mtype} {g : Decoder (Body Nat (Nat × Nat))} {enc : β → List UInt8} {ok : β → Prop}
    {rep : Memory → Nat → Body Nat (Nat × Nat) → β → Prop} (h : Codes g 0 enc ok rep)
    (f : β → Body (List UInt8) (List UInt8)) (hs : ∀ u : Body (List UInt8) (List UInt8), u.type = t → ∃ v, f v = u)
    (ht : ∀ v, (f v).type = t) (he : ∀ v, (f v).bytes = enc v) (hf : ∀ v, (f v).Fits List.length ↔ ok v)
    (hr : ∀ {m p a v}, rep m p a v → StoredBody m p a (f v)) :
    Codes g 0 Body.bytes (fun u => u.type = t ∧ u.Fits List.length) StoredBody := by
  refine h.conv f (fun v _ => he v) (fun u => ?_) (fun hr hp hm => ?_) fun _ hr' => hr hr'
  · constructor
    · rintro ⟨hu, hfits⟩
      obtain ⟨v, rfl⟩ := hs u hu
      exact ⟨v, rfl, (hf v).mp hfits⟩
    · rintro ⟨v, rfl, hv⟩
      exact ⟨ht v, (hf v).mpr hv⟩
  · exact hr.imp (fun hs => gstring_codes.keeps hs hp hm) fun hd => hd.keeps hp hm

theorem lt_iff_16 (n : Nat) : n < 256 ^ 2 ↔ ∃ v : UInt16, v.toNat = n :=
  ⟨fun h => ⟨.ofNat n, UInt16.toNat_ofNat_of_lt' h⟩, fun ⟨v, h⟩ => h ▸ v.toNat_lt⟩

theorem lt_iff_32 (n : Nat) : n < 256 ^ 4 ↔ ∃ v : UInt32, v.toNat = n :=
  ⟨fun h => ⟨.ofNat n, UInt32.toNat_ofNat_of_lt' h⟩, fun ⟨v, h⟩ => h ▸ v.toNat_lt⟩

theorem found (f : Body Nat (Nat × Nat)) : Codes (pure f) 0 (fun _ : Unit => []) (fun _ => True) fun _ _ a _ => a = f :=
  .result f

theorem gbody_codes (t : Mtype) :
    Codes (gbody (some t)) 0 Body.bytes (fun f => f.type = t ∧ f.Fits List.length) StoredBody := by
  cases t
  case Terror =>
    have hnone : (fun f : Body (List UInt8) (List UInt8) => f.type = .Terror ∧ f.Fits List.length) = fun _ => False :=
      funext fun f => eq_false fun ⟨h, _⟩ => by cases f <;> cases h
    rw [hnone]
    exact .none fun {_ _ _ _ _ _} hr hp hm =>
      hr.imp (fun hs => gstring_codes.keeps hs hp hm) fun hd => hd.keeps hp hm
  case Tversion =>
    refine body_codes (number_codes GBIT32_codes fun msize => gstring_codes.bind fun s =>
        found (.Tversion msize s)).room
      (fun v => .Tversion v.fst v.snd.fst) ?_ (fun _ => rfl) (fun _ => ?_) (fun _ => ?_) ?_
    · exact fun | .Tversion msize s, _ => ⟨(msize, s, ()), rfl⟩
    · simp [Body.bytes]
    · simp [Body.Fits, Body.strings]
    · rintro m p _ v ⟨s, hs, rfl⟩
      exact .Tversion hs
  case Rversion =>
    refine body_codes (number_codes GBIT32_codes fun msize => gstring_codes.bind fun s =>
        found (.Rversion msize s)).room
      (fun v => .Rversion v.fst v.snd.fst) ?_ (fun _ => rfl) (fun _ => ?_) (fun _ => ?_) ?_
    · exact fun | .Rversion msize s, _ => ⟨(msize, s, ()), rfl⟩
    · simp [Body.bytes]
    · simp [Body.Fits, Body.strings]
    · rintro m p _ v ⟨s, hs, rfl⟩
      exact .Rversion hs
  case Tauth =>
    refine body_codes (number_codes GBIT32_codes fun afid => gstring_codes.bind fun s =>
        gstring_codes.bind fun s' => found (.Tauth afid s s')).room
      (fun v => .Tauth v.fst v.snd.fst v.snd.snd.fst) ?_ (fun _ => rfl) (fun _ => ?_) (fun _ => ?_) ?_
    · exact fun | .Tauth afid s s', _ => ⟨(afid, s, s', ()), rfl⟩
    · simp [Body.bytes]
    · simp [Body.Fits, Body.strings]
    · rintro m p _ v ⟨s, hs, s', hs', rfl⟩
      exact .Tauth hs hs'
  case Rauth =>
    refine body_codes (gqid_codes.bind fun q => found (.Rauth q))
      (fun v => .Rauth v.fst) ?_ (fun _ => rfl) (fun _ => ?_) (fun _ => ?_) ?_
    · exact fun | .Rauth q, _ => ⟨(q, ()), rfl⟩
    · simp [Body.bytes]
    · simp [Body.Fits, Body.strings]
    · rintro m p _ v ⟨_, rfl, rfl⟩
      exact .Rauth
  case Tattach =>
    refine body_codes (number_codes GBIT32_codes fun fid => (number_codes GBIT32_codes fun afid =>
        gstring_codes.bind fun s => gstring_codes.bind fun s' => found (.Tattach fid afid s s')).room).room
      (fun v => .Tattach v.fst v.snd.fst v.snd.snd.fst v.snd.snd.snd.fst) ?_ (fun _ => rfl)
      (fun _ => ?_) (fun _ => ?_) ?_
    · exact fun | .Tattach fid afid s s', _ => ⟨(fid, afid, s, s', ()), rfl⟩
    · simp [Body.bytes]
    · simp [Body.Fits, Body.strings]
    · rintro m p _ v ⟨s, hs, s', hs', rfl⟩
      exact .Tattach hs hs'
  case Rattach =>
    refine body_codes (gqid_codes.bind fun q => found (.Rattach q))
      (fun v => .Rattach v.fst) ?_ (fun _ => rfl) (fun _ => ?_) (fun _ => ?_) ?_
    · exact fun | .Rattach q, _ => ⟨(q, ()), rfl⟩
    · simp [Body.bytes]
    · simp [Body.Fits, Body.strings]
    · rintro m p _ v ⟨_, rfl, rfl⟩
      exact .Rattach
  case Rerror =>
    refine body_codes (gstring_codes.bind fun s => found (.Rerror s))
      (fun v => .Rerror v.fst) ?_ (fun _ => rfl) (fun _ => ?_) (fun _ => ?_) ?_
    · exact fun | .Rerror s, _ => ⟨(s, ()), rfl⟩
    · simp [Body.bytes]
    · simp [Body.Fits, Body.strings]
    · rintro m p _ v ⟨s, hs, rfl⟩
      exact .Rerror hs
  case Tflush =>
    refine body_codes (number_codes GBIT16_codes fun oldtag => found (.Tflush oldtag)).room
      (fun v => .Tflush v.fst) ?_ (fun _ => rfl) (fun _ => ?_) (fun _ => ?_) ?_
    · exact fun | .Tflush oldtag, _ => ⟨(oldtag, ()), rfl⟩
    · simp [Body.bytes]
    · simp [Body.Fits, Body.strings]
    · rintro m p _ v rfl
      exact .Tflush
  case Rflush =>
    refine body_codes (found .Rflush)
      (fun _ => .Rflush) ?_ (fun _ => rfl) (fun _ => ?_) (fun _ => ?_) ?_
    · exact fun | .Rflush, _ => ⟨(), rfl⟩
    · simp [Body.bytes]
    · simp [Body.Fits, Body.strings]
    · rintro m p _ v rfl
      exact .Rflush
  case Twalk =>
    refine body_codes (number_codes GBIT32_codes fun fid => number_codes GBIT32_codes fun newfid =>
        times_codes gstring_codes fun ss => found (.Twalk fid newfid ss)).room
      (fun v => .Twalk v.fst v.snd.fst v.snd.snd.fst) ?_ (fun _ => rfl) (fun _ => ?_) (fun _ => ?_) ?_
    · exact fun | .Twalk fid newfid ss, _ => ⟨(fid, newfid, ss, ()), rfl⟩
    · simp [Body.bytes]
    · simp [Body.Fits, Body.strings, and_comm]
    · rintro m p _ v ⟨ss, hs, rfl⟩
      exact .Twalk hs
  case Rwalk =>
    refine body_codes (times_codes gqid_codes fun qs => found (.Rwalk qs)).room
      (fun v => .Rwalk v.fst) ?_ (fun _ => rfl) (fun _ => ?_) (fun _ => ?_) ?_
    · exact fun | .Rwalk qs, _ => ⟨(qs, ()), rfl⟩
    · simp [Body.bytes]
    · simp [Body.Fits, Body.strings]
    · rintro m p _ v ⟨qs, hs, rfl⟩
      rw [List.forall₂_eq_eq_eq] at hs
      exact hs ▸ .Rwalk
  case Topen =>
    refine body_codes (number_codes GBIT32_codes fun fid => number_codes GBIT8_codes fun mode =>
        found (.Topen fid mode)).room
      (fun v => .Topen v.fst v.snd.fst) ?_ (fun _ => rfl) (fun _ => ?_) (fun _ => ?_) ?_
    · exact fun | .Topen fid mode, _ => ⟨(fid, mode, ()), rfl⟩
    · simp [Body.bytes]
    · simp [Body.Fits, Body.strings]
    · rintro m p _ v rfl
      exact .Topen
  case Ropen =>
    refine body_codes (gqid_codes.bind fun q => (number_codes GBIT32_codes fun iounit =>
        found (.Ropen q iounit)).room)
      (fun v => .Ropen v.fst v.snd.fst) ?_ (fun _ => rfl) (fun _ => ?_) (fun _ => ?_) ?_
    · exact fun | .Ropen q iounit, _ => ⟨(q, iounit, ()), rfl⟩
    · simp [Body.bytes]
    · simp [Body.Fits, Body.strings]
    · rintro m p _ v ⟨_, rfl, rfl⟩
      exact .Ropen
  case Tcreate =>
    refine body_codes (number_codes GBIT32_codes fun fid => gstring_codes.bind fun s =>
        (number_codes GBIT32_codes fun perm => number_codes GBIT8_codes fun mode =>
        found (.Tcreate fid s perm mode)).room).room
      (fun v => .Tcreate v.fst v.snd.fst v.snd.snd.fst v.snd.snd.snd.fst) ?_ (fun _ => rfl)
      (fun _ => ?_) (fun _ => ?_) ?_
    · exact fun | .Tcreate fid s perm mode, _ => ⟨(fid, s, perm, mode, ()), rfl⟩
    · simp [Body.bytes]
    · simp [Body.Fits, Body.strings]
    · rintro m p _ v ⟨s, hs, rfl⟩
      exact .Tcreate hs
  case Rcreate =>
    refine body_codes (gqid_codes.bind fun q => (number_codes GBIT32_codes fun iounit =>
        found (.Rcreate q iounit)).room)
      (fun v => .Rcreate v.fst v.snd.fst) ?_ (fun _ => rfl) (fun _ => ?_) (fun _ => ?_) ?_
    · exact fun | .Rcreate q iounit, _ => ⟨(q, iounit, ()), rfl⟩
    · simp [Body.bytes]
    · simp [Body.Fits, Body.strings]
    · rintro m p _ v ⟨_, rfl, rfl⟩
      exact .Rcreate
  case Tread =>
    refine body_codes (number_codes GBIT32_codes fun fid => number_codes GBIT64_codes fun offset =>
        number_codes GBIT32_codes fun count => found (.Tread fid offset count)).room
      (fun v => .Tread v.fst v.snd.fst v.snd.snd.fst) ?_ (fun _ => rfl) (fun _ => ?_) (fun _ => ?_) ?_
    · exact fun | .Tread fid offset count, _ => ⟨(fid, offset, count, ()), rfl⟩
    · simp [Body.bytes]
    · simp [Body.Fits, Body.strings]
    · rintro m p _ v rfl
      exact .Tread
  case Rread =>
    refine body_codes (data_codes GBIT32_codes lt_iff_32 fun d => found (.Rread d)).room
      (fun v => .Rread v.fst) ?_ (fun _ => rfl) (fun _ => ?_) (fun _ => ?_) ?_
    · exact fun | .Rread d, _ => ⟨(d, ()), rfl⟩
    · simp [Body.bytes]
    · simp [Body.Fits, Body.strings]
    · rintro m p _ v ⟨d, hd, rfl⟩
      exact .Rread hd
  case Twrite =>
    refine body_codes (number_codes GBIT32_codes fun fid => number_codes GBIT64_codes fun offset =>
        data_codes GBIT32_codes lt_iff_32 fun d => found (.Twrite fid offset d)).room
      (fun v => .Twrite v.fst v.snd.fst v.snd.snd.fst) ?_ (fun _ => rfl) (fun _ => ?_) (fun _ => ?_) ?_
    · exact fun | .Twrite fid offset d, _ => ⟨(fid, offset, d, ()), rfl⟩
    · simp [Body.bytes]
    · simp [Body.Fits, Body.strings]
    · rintro m p _ v ⟨d, hd, rfl⟩
      exact .Twrite hd
  case Rwrite =>
    refine body_codes (number_codes GBIT32_codes fun count => found (.Rwrite count)).room
      (fun v => .Rwrite v.fst) ?_ (fun _ => rfl) (fun _ => ?_) (fun _ => ?_) ?_
    · exact fun | .Rwrite count, _ => ⟨(count, ()), rfl⟩
    · simp [Body.bytes]
    · simp [Body.Fits, Body.strings]
    · rintro m p _ v rfl
      exact .Rwrite
  case Tclunk =>
    refine body_codes (number_codes GBIT32_codes fun fid => found (.Tclunk fid)).room
      (fun v => .Tclunk v.fst) ?_ (fun _ => rfl) (fun _ => ?_) (fun _ => ?_) ?_
    · exact fun | .Tclunk fid, _ => ⟨(fid, ()), rfl⟩
    · simp [Body.bytes]
    · simp [Body.Fits, Body.strings]
    · rintro m p _ v rfl
      exact .Tclunk
  case Rclunk =>
    refine body_codes (found .Rclunk)
      (fun _ => .Rclunk) ?_ (fun _ => rfl) (fun _ => ?_) (fun _ => ?_) ?_
    · exact fun | .Rclunk, _ => ⟨(), rfl⟩
    · simp [Body.bytes]
    · simp [Body.Fits, Body.strings]
    · rintro m p _ v rfl
      exact .Rclunk
  case Tremove =>
    refine body_codes (number_codes GBIT32_codes fun fid => found (.Tremove fid)).room
      (fun v => .Tremove v.fst) ?_ (fun _ => rfl) (fun _ => ?_) (fun _ => ?_) ?_
    · exact fun | .Tremove fid, _ => ⟨(fid, ()), rfl⟩
    · simp [Body.bytes]
    · simp [Body.Fits, Body.strings]
    · rintro m p _ v rfl
      exact .Tremove
  case Rremove =>
    refine body_codes (found .Rremove)
      (fun _ => .Rremove) ?_ (fun _ => rfl) (fun _ => ?_) (fun _ => ?_) ?_
    · exact fun | .Rremove, _ => ⟨(), rfl⟩
    · simp [Body.bytes]
    · simp [Body.Fits, Body.strings]
    · rintro m p _ v rfl
      exact .Rremove
  case Tstat =>
    refine body_codes (number_codes GBIT32_codes fun fid => found (.Tstat fid)).room
      (fun v => .Tstat v.fst) ?_ (fun _ => rfl) (fun _ => ?_) (fun _ => ?_) ?_
    · exact fun | .Tstat fid, _ => ⟨(fid, ()), rfl⟩
    · simp [Body.bytes]
    · simp [Body.Fits, Body.strings]
    · rintro m p _ v rfl
      exact .Tstat
  case Rstat =>
    refine body_codes (data_codes GBIT16_codes lt_iff_16 fun d => found (.Rstat d)).room
      (fun v => .Rstat v.fst) ?_ (fun _ => rfl) (fun _ => ?_) (fun _ => ?_) ?_
    · exact fun | .Rstat d, _ => ⟨(d, ()), rfl⟩
    · simp [Body.bytes]
    · simp [Body.Fits, Body.strings]
    · rintro m p _ v ⟨d, hd, rfl⟩
      exact .Rstat hd
  case Twstat =>
    refine body_codes (number_codes GBIT32_codes fun fid => data_codes GBIT16_codes lt_iff_16 fun d =>
        found (.Twstat fid d)).room
      (fun v => .Twstat v.fst v.snd.fst) ?_ (fun _ => rfl) (fun _ => ?_) (fun _ => ?_) ?_
    · exact fun | .Twstat fid d, _ => ⟨(fid, d, ()), rfl⟩
    · simp [Body.bytes]
    · simp [Body.Fits, Body.strings]
    · rintro m p _ v ⟨d, hd, rfl⟩
      exact .Twstat hd
  case Rwstat =>
    refine body_codes (found .Rwstat)
      (fun _ => .Rwstat) ?_ (fun _ => rfl) (fun _ => ?_) (fun _ => ?_) ?_
    · exact fun | .Rwstat, _ => ⟨(), rfl⟩
    · simp [Body.bytes]
    · simp [Body.Fits, Body.strings]
    · rintro m p _ v rfl
      exact .Rwstat

end Libc
