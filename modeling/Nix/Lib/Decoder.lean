import Mathlib.Data.List.Forall2
import Nix.Lib.Except
import Nix.Lib.Memory

-- What reads a buffer from a place on, may change what it has read, and ends without a result or with one and the
-- place behind it.
def Decoder (α : Type) :=
  Buf → Memory → Nat → Except Buf.Fault (Memory × Option (Nat × α))

namespace Decoder

instance : Monad Decoder where
  pure a := fun _ m p => .ok (m, some (p, a))
  bind g k := fun b m p =>
    match g b m p with
    | .error e            => .error e
    | .ok (m, none)       => .ok (m, none)
    | .ok (m, some (p, a)) => k a b m p

variable {α β γ : Type} {g : Decoder α} {k : α → Decoder β} {b : Buf} {m m' : Memory} {p p' n w : Nat} {a : α}

def fail : Decoder α :=
  fun _ m _ => .ok (m, none)

-- Ends unless there are `n` bytes.
def room (n : Nat) : Decoder Unit :=
  fun b m p => if p + n > b.stop then .ok (m, none) else .ok (m, some (p, ()))

def take (w : Nat) : Decoder (List UInt8) :=
  fun b m p => do
    let xs ← b.read m p w
    .ok (m, some (p + w, xs))

@[simp]
theorem pure_apply (a : α) : (pure a : Decoder α) b m p = .ok (m, some (p, a)) :=
  rfl

@[simp]
theorem fail_apply : (fail : Decoder α) b m p = .ok (m, none) :=
  rfl

theorem bind_of_none (h : g b m p = .ok (m', none)) : (g >>= k) b m p = .ok (m', none) := by
  simp only [Bind.bind, h]

theorem bind_of_some (h : g b m p = .ok (m', some (p', a))) : (g >>= k) b m p = k a b m' p' := by
  simp only [Bind.bind, h]

theorem room_none (h : b.stop < p + n) : room n b m p = .ok (m, none) :=
  if_pos h

theorem room_some (h : p + n ≤ b.stop) : room n b m p = .ok (m, some (p, ())) :=
  if_neg <| Nat.not_lt.mpr h

theorem take_eq (hl : b.base ≤ p) (hr : p + w ≤ b.stop) : take w b m p = .ok (m, some (p + w, m.bytes p w)) := by
  rw [take, Buf.read_eq m hl hr, Except.ok_bind]

-- Steps over `n` bytes. The result is where they are.
def skip (n : Nat) : Decoder Nat :=
  fun _ m p => .ok (m, some (p + n, p))

def times (g : Decoder α) : Nat → Decoder (List α)
  | 0     => pure []
  | n + 1 => do
    let a ← g
    let as ← times g n
    return a :: as

-- A decoder and what it decodes. Where `need` bytes are left it reads the encoding `enc` of a value that is `ok`, or
-- ends without a result, and it has a result where there is such an encoding. By `rep` a result stands for a value,
-- in the memory below a place.
structure Codes (g : Decoder α) (need : Nat) (enc : β → List UInt8) (ok : β → Prop)
    (rep : Memory → Nat → α → β → Prop) : Prop where
  keeps   : ∀ {m m' p p' a v}, rep m p a v → p ≤ p' → (∀ i < p, m' i = m i) → rep m' p' a v
  need_le : ∀ v, ok v → need ≤ (enc v).length
  decodes : ∀ {b : Buf} {m : Memory} {p : Nat}, b.base ≤ p → p + need ≤ b.stop →
    (∃ m', g b m p = .ok (m', none) ∧ m.Within m' p b.stop) ∨
      ∃ m' a v, g b m p = .ok (m', some (p + (enc v).length, a)) ∧ ok v ∧ m.At p (enc v) ∧
        p + (enc v).length ≤ b.stop ∧ m.Within m' p (p + (enc v).length) ∧ rep m' (p + (enc v).length) a v
  accepts : ∀ {b : Buf} {m : Memory} {p : Nat} {v}, b.base ≤ p → p + (enc v).length ≤ b.stop → ok v →
    m.At p (enc v) → ∃ m' a, g b m p = .ok (m', some (p + (enc v).length, a)) ∧
      m.Within m' p (p + (enc v).length) ∧ rep m' (p + (enc v).length) a v

namespace Codes

variable {n₁ n₂ : Nat} {β₁ β₂ : Type} {enc₁ : β₁ → List UInt8} {enc₂ : β₂ → List UInt8} {ok₁ : β₁ → Prop}
variable {ok₂ : β₁ → β₂ → Prop} {rep₁ : Memory → Nat → α → β₁ → Prop} {rep₂ : α → Memory → Nat → β → β₂ → Prop}

theorem result (a : α) : Codes (pure a) 0 (fun _ : Unit => []) (fun _ => True) fun _ _ a' _ => a' = a where
  keeps h _ _     := h
  need_le _ _     := Nat.zero_le _
  decodes _ hp    := .inr ⟨_, a, (), rfl, trivial, rfl, hp, fun _ _ => rfl, rfl⟩
  accepts _ _ _ _ := ⟨_, a, rfl, fun _ _ => rfl, rfl⟩

theorem exists_rep (h : Codes g n enc₁ ok₁ rep₁) {v : β₁} (hv : ok₁ v) : ∃ m p a, rep₁ m p a v := by
  have hat := Memory.at_write (fun _ => 0) 0 (enc₁ v)
  obtain ⟨m', a, -, -, hr⟩ := h.accepts (b := ⟨0, (enc₁ v).length⟩) (Nat.zero_le 0) (Nat.le_refl _) hv hat
  exact ⟨m', _, a, hr⟩

theorem bind_of (h₁ : Codes g n₁ enc₁ ok₁ rep₁)
    (h₂ : ∀ {m p a v}, rep₁ m p a v → Codes (k a) n₂ enc₂ (ok₂ v) (rep₂ a)) (hn : n₁ ≤ n)
    (hd : ∀ v, ok₁ v → n ≤ (enc₁ v).length + n₂) (hr : n₂ = 0 ∨ ∀ v, (enc₁ v).length + n₂ ≤ n) :
    Codes (g >>= k) n (fun v : β₁ × β₂ => enc₁ v.fst ++ enc₂ v.snd) (fun v => ok₁ v.fst ∧ ok₂ v.fst v.snd)
      fun m p c v => ∃ a, rep₁ m p a v.fst ∧ rep₂ a m p c v.snd where
  keeps := by
    rintro m m' p p' c v ⟨a, hr₁, hr₂⟩ hp hm
    exact ⟨a, h₁.keeps hr₁ hp hm, (h₂ hr₁).keeps hr₂ hp hm⟩
  need_le := by
    rintro ⟨v, u⟩ ⟨hv, hu⟩
    obtain ⟨m, p, a, hr⟩ := h₁.exists_rep hv
    have := (h₂ hr).need_le u hu
    have := hd v hv
    simp only [List.length_append]
    omega
  decodes := by
    intro b m p hl hp
    rcases h₁.decodes hl (by omega) with ⟨m', hg, hw⟩ | ⟨m₁, a, v, hg, hv, hat, hle, hw, hrep⟩
    · exact .inl ⟨m', bind_of_none hg, hw⟩
    · have hneed : p + (enc₁ v).length + n₂ ≤ b.stop := by
        rcases hr with h0 | hr
        · omega
        · have := hr v
          omega
      rcases (h₂ hrep).decodes (m := m₁) (Nat.le_trans hl (Nat.le_add_right ..)) hneed with
        ⟨m', hk, hw'⟩ | ⟨m', c, u, hk, hu, hat', hle', hw', hrep'⟩
      · exact .inl ⟨m', (bind_of_some hg).trans hk,
          (hw.mono (Nat.le_refl _) hle).trans (hw'.mono (Nat.le_add_right ..) (Nat.le_refl _))⟩
      · have hlen : p + (enc₁ v ++ enc₂ u).length = p + (enc₁ v).length + (enc₂ u).length := by
          rw [List.length_append, Nat.add_assoc]
        refine .inr ⟨m', c, (v, u), ?_⟩
        rw [hlen]
        refine ⟨(bind_of_some hg).trans hk, ⟨hv, hu⟩, ?_, hle', ?_, a, ?_, hrep'⟩
        · exact Memory.at_append.mpr ⟨hat, hat'.congr fun i hi _ => (hw i <| .inr hi).symm⟩
        · exact (hw.mono (Nat.le_refl _) (Nat.le_add_right ..)).trans (hw'.mono (Nat.le_add_right ..) (Nat.le_refl _))
        · exact h₁.keeps hrep (Nat.le_add_right ..) fun i hi => hw' i <| .inl hi
  accepts := by
    rintro b m p ⟨v, u⟩ hl hr' ⟨hv, hu⟩ hat
    obtain ⟨hat₁, hat₂⟩ := Memory.at_append.mp hat
    have hlen : p + (enc₁ v ++ enc₂ u).length = p + (enc₁ v).length + (enc₂ u).length := by
      rw [List.length_append, Nat.add_assoc]
    dsimp only at hr' ⊢
    rw [hlen] at hr' ⊢
    obtain ⟨m₁, a, hg, hw, hrep⟩ := h₁.accepts hl (Nat.le_trans (Nat.le_add_right ..) hr') hv hat₁
    have hat₂ : m₁.At _ _ := hat₂.congr fun i hi _ => hw i <| .inr hi
    obtain ⟨m', c, hk, hw', hrep'⟩ := (h₂ hrep).accepts (Nat.le_trans hl (Nat.le_add_right ..)) hr' hu hat₂
    refine ⟨m', c, (bind_of_some hg).trans hk, ?_, a, ?_, hrep'⟩
    · exact (hw.mono (Nat.le_refl _) (Nat.le_add_right ..)).trans (hw'.mono (Nat.le_add_right ..) (Nat.le_refl _))
    · exact h₁.keeps hrep (Nat.le_add_right ..) fun i hi => hw' i <| .inl hi

theorem bind {ok₂ : β₂ → Prop} (h₁ : Codes g n enc₁ ok₁ rep₁) (h₂ : ∀ a, Codes (k a) 0 enc₂ ok₂ (rep₂ a)) :
    Codes (g >>= k) n (fun v : β₁ × β₂ => enc₁ v.fst ++ enc₂ v.snd) (fun v => ok₁ v.fst ∧ ok₂ v.snd)
      fun m p c v => ∃ a, rep₁ m p a v.fst ∧ rep₂ a m p c v.snd :=
  h₁.bind_of (fun {_ _ a _} _ => h₂ a) (Nat.le_refl _) h₁.need_le (.inl rfl)

theorem bind_fixed {ok : α → Prop} {enc : α → List UInt8} {ok₂ : α → β₂ → Prop} (h₁ : Codes g n₁ enc ok fun _ _ a v => a = v)
    (h₂ : ∀ a, Codes (k a) n₂ enc₂ (ok₂ a) (rep₂ a)) (hw : ∀ a, (enc a).length = n₁) :
    Codes (g >>= k) (n₁ + n₂) (fun v : α × β₂ => enc v.fst ++ enc₂ v.snd) (fun v => ok v.fst ∧ ok₂ v.fst v.snd)
      fun m p c v => rep₂ v.fst m p c v.snd := by
  have hk {a v : α} (hr : a = v) : Codes (k a) n₂ enc₂ (ok₂ v) (rep₂ a) := hr ▸ h₂ a
  have := h₁.bind_of (n := n₁ + n₂) (fun hr => hk hr) (Nat.le_add_right ..)
    (fun v _ => Nat.le_of_eq <| by rw [hw]) (.inr fun v => Nat.le_of_eq <| by rw [hw])
  simpa only [exists_eq_left] using this

-- With a check that there are as many bytes as it needs a decoder needs none.
theorem room (h : Codes g n enc₁ ok₁ rep₁) : Codes (Decoder.room n >>= fun _ => g) 0 enc₁ ok₁ rep₁ where
  keeps       := h.keeps
  need_le _ _ := Nat.zero_le _
  decodes     := by
    intro b m p hl hp
    rcases Nat.lt_or_ge b.stop (p + n) with hn | hn
    · exact .inl ⟨m, bind_of_none (room_none hn), fun _ _ => rfl⟩
    · rw [bind_of_some (room_some hn)]
      exact h.decodes hl hn
  accepts     := by
    intro b m p v hl hp hv hat
    rw [bind_of_some (room_some (Nat.le_trans (Nat.add_le_add_left (h.need_le v hv) p) hp))]
    exact h.accepts hl hp hv hat

theorem none {need : Nat} {enc : β₁ → List UInt8} {rep : Memory → Nat → α → β₁ → Prop}
    (hk : ∀ {m m' p p' a v}, rep m p a v → p ≤ p' → (∀ i < p, m' i = m i) → rep m' p' a v) :
    Codes fail need enc (fun _ => False) rep where
  keeps       := hk
  need_le     := nofun
  decodes _ _ := .inl ⟨_, rfl, fun _ _ => rfl⟩
  accepts     := nofun

theorem guard {c : Prop} [Decidable c] (h : Codes g n enc₁ ok₁ rep₁) :
    Codes (if c then fail else g) n enc₁ (fun v => ¬c ∧ ok₁ v) rep₁ := by
  split
  case isTrue hc =>
    have hnone : Codes fail n enc₁ (fun _ => False) rep₁ := .none h.keeps
    simpa only [hc, not_true, false_and] using hnone
  case isFalse hc => simpa only [hc, not_false_eq_true, true_and] using h

theorem take {f : List UInt8 → α} {enc : α → List UInt8} (hl : ∀ a, (enc a).length = w) (hf : ∀ a, f (enc a) = a)
    (he : ∀ xs : List UInt8, xs.length = w → enc (f xs) = xs) :
    Codes (Decoder.take w >>= fun xs => pure (f xs)) w enc (fun _ => True) fun _ _ a v => a = v where
  keeps h _ _ := h
  need_le v _ := Nat.le_of_eq (hl v).symm
  decodes     := by
    intro b m p hb hp
    have hat : m.At p (enc (f (m.bytes p w))) := by
      rw [he _ (Memory.bytes_length ..)]
      exact m.at_bytes p w
    refine .inr ⟨m, f (m.bytes p w), f (m.bytes p w), ?_⟩
    rw [hl]
    exact ⟨bind_of_some (take_eq hb hp), trivial, hat, hp, fun _ _ => rfl, rfl⟩
  accepts     := by
    intro b m p v hb hp _ hat
    rw [Memory.At, hl] at hat
    rw [hl] at hp ⊢
    refine ⟨m, v, (bind_of_some (take_eq hb hp)).trans ?_, fun _ _ => rfl, rfl⟩
    rw [hat, hf]
    rfl

theorem skip (n : Nat) : Codes (Decoder.skip n) n id (fun xs : List UInt8 => xs.length = n)
    fun m p a xs => m.At a xs ∧ a + xs.length ≤ p where
  keeps   := by
    rintro m m' p p' a xs ⟨hat, hle⟩ hp hm
    exact ⟨hat.congr fun i _ hi => hm i (by omega), by omega⟩
  need_le := fun xs hxs => Nat.le_of_eq hxs.symm
  decodes := by
    intro b m p hl hp
    have hlen : p + (id (m.bytes p n)).length = p + n := congrArg (p + ·) <| Memory.bytes_length ..
    refine .inr ⟨m, p, m.bytes p n, ?_⟩
    rw [hlen]
    exact ⟨rfl, Memory.bytes_length .., m.at_bytes .., hp, fun _ _ => rfl, m.at_bytes .., Nat.le_of_eq hlen⟩
  accepts := by
    rintro b m p xs hl hp rfl hat
    exact ⟨m, p, rfl, fun _ _ => rfl, hat, Nat.le_refl _⟩

theorem conv {γ : Type} {enc : γ → List UInt8} {ok : γ → Prop} {rep : Memory → Nat → α → γ → Prop}
    (h : Codes g n enc₁ ok₁ rep₁) (f : β₁ → γ) (he : ∀ v, ok₁ v → enc (f v) = enc₁ v) (hok : ∀ u, ok u ↔ ∃ v, f v = u ∧ ok₁ v)
    (hk : ∀ {m m' p p' a u}, rep m p a u → p ≤ p' → (∀ i < p, m' i = m i) → rep m' p' a u)
    (hr : ∀ {m p a v}, ok₁ v → rep₁ m p a v → rep m p a (f v)) : Codes g n enc ok rep where
  keeps   := hk
  need_le := by
    intro u hu
    obtain ⟨v, rfl, hv⟩ := (hok u).mp hu
    exact he v hv ▸ h.need_le v hv
  decodes := by
    intro b m p hl hp
    refine (h.decodes hl hp).imp_right fun ⟨m', a, v, hg, hv, hat, hle, hw, hrep⟩ => ⟨m', a, f v, ?_⟩
    rw [he v hv]
    exact ⟨hg, (hok _).mpr ⟨v, rfl, hv⟩, hat, hle, hw, hr hv hrep⟩
  accepts := by
    intro b m p u hl hp hu hat
    obtain ⟨v, rfl, hv⟩ := (hok u).mp hu
    rw [he v hv] at hp hat ⊢
    obtain ⟨m', a, hg, hw, hrep⟩ := h.accepts hl hp hv hat
    exact ⟨m', a, hg, hw, hr hv hrep⟩

theorem times (h : Codes g 0 enc₁ ok₁ rep₁) (n : Nat) :
    Codes (Decoder.times g n) 0 (fun vs => vs.flatMap enc₁) (fun vs => vs.length = n ∧ ∀ v ∈ vs, ok₁ v)
      fun m p => List.Forall₂ (rep₁ m p) := by
  have hkeeps {m m' : Memory} {p p' : Nat} {as : List α} {vs : List β₁} (hr : List.Forall₂ (rep₁ m p) as vs)
      (hp : p ≤ p') (hm : ∀ i < p, m' i = m i) : List.Forall₂ (rep₁ m' p') as vs :=
    hr.imp fun _ _ hr => h.keeps hr hp hm
  induction n
  case zero =>
    refine (result []).conv (fun _ => []) (fun _ _ => rfl) (fun vs => ?_) hkeeps fun _ ha => ?_
    · rw [List.length_eq_zero_iff]
      constructor
      · rintro ⟨rfl, -⟩
        exact ⟨(), rfl, trivial⟩
      · rintro ⟨-, rfl, -⟩
        exact ⟨rfl, nofun⟩
    · exact ha ▸ .nil
  case succ n ih =>
    have hg := h.bind fun a => ih.bind fun as => result (a :: as)
    refine hg.conv (fun v => v.fst :: v.snd.fst) (fun v _ => ?_) (fun vs => ?_) hkeeps ?_
    · simp
    · constructor
      · rintro ⟨hlen, hok⟩
        obtain ⟨v, vs, rfl⟩ := List.exists_cons_of_length_eq_add_one hlen
        obtain ⟨hv, hok⟩ := List.forall_mem_cons.mp hok
        exact ⟨(v, vs, ()), rfl, hv, ⟨Nat.succ.inj hlen, hok⟩, trivial⟩
      · rintro ⟨⟨v, vs, _⟩, rfl, hv, ⟨hlen, hok⟩, -⟩
        exact ⟨congrArg (· + 1) hlen, List.forall_mem_cons.mpr ⟨hv, hok⟩⟩
    · rintro m p _ ⟨v, vs, _⟩ - ⟨a, ha, as, has, rfl⟩
      exact .cons ha has

end Codes

end Decoder
