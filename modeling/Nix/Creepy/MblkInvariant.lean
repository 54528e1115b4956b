import Nix.Creepy.Mblk

namespace Creepy.Mblk

variable {Blk Pid : Type*} {B : Blocks Blk} {s s' : State Blk Pid} {place place' : Blk → Option ListId}

-- The block that a process has taken off its list, or is about to, and that it has to itself.
def Proc.moves : Proc Blk → Option Blk
  | .unlink b _ _ | .link b _ _ _ | .mark b | .wr b => some b
  | _ => none

def State.hashed (s : State Blk Pid) (B : Blocks Blk) (b : Blk) : Prop :=
  b ∈ s.hash (B.bucket b)

instance [DecidableEq Blk] (b : Blk) : Decidable (s.hashed B b) :=
  inferInstanceAs (Decidable (b ∈ s.hash (B.bucket b)))

-- `b` is in the hash, and nobody is moving it.
def State.still (s : State Blk Pid) (B : Blocks Blk) (b : Blk) : Prop :=
  s.hashed B b ∧ ∀ q, (s.proc q).moves ≠ some b

-- The blocks that a list is for.
def State.fits (s : State Blk Pid) (B : Blocks Blk) (b : Blk) : ListId → Prop
  | .lru          => B.moves b ∧ ¬s.dirty b
  | .mdirty | .dl => B.moves b ∧ s.dirty b
  | .refs         => B.type b = .ref

-- No two blocks of a bucket have the same address.
def HashOk (B : Blocks Blk) (hash : Nat → List Blk) : Prop :=
  ∀ v, (hash v).Pairwise (B.addr · ≠ B.addr ·) ∧ ∀ b ∈ hash v, B.bucket b = v

-- What holds of the block, the list and the locks that a process is at work with.
def Ok (B : Blocks Blk) (s : State Blk Pid) (place : Blk → Option ListId) (p : Pid) : Proc Blk → Prop
  | .unlink b l (.relink _) | .unlink b l .mark => place b = some l ∧ l = .lru
  | .unlink b l .unhash => place b = some l ∧ (l = .lru ∨ l = .mdirty) ∧ ¬s.hashed B b
  | .unlink b l (.reclaim bprev) =>
    place b = some l ∧ l = .lru ∧ ¬s.hashed B b ∧ s.lk .lru = some p ∧
    ∀ a ∈ bprev, a ≠ b ∧ place a = some .lru
  | .mark b => place b = none ∧ s.fits B b .lru
  | .wr b => place b = none ∧ s.fits B b .dl ∧ s.lk .dl = some p
  | .link b l _ k =>
    place b = none ∧ l ≠ .dl ∧ s.fits B b l ∧ k ≠ .failed ∧ (k = .written → s.lk .dl = some p)
  | .chg b => ¬B.fake b
  | .filter cur =>
    s.lk .mdirty = some p ∧ s.lk .dl = some p ∧ ∀ b ∈ cur, place b = some .mdirty
  | .write => s.lk .dl = some p
  | .scan cur => s.lk .lru = some p ∧ ∀ b ∈ cur, place b = some .lru
  | _ => True

variable [DecidableEq Blk] [DecidableEq Pid]

-- `place` tells the list that a block is on.
structure Inv (B : Blocks Blk) (s : State Blk Pid) (place : Blk → Option ListId) : Prop where
  listing : ∃ l, Listing s.links s.ends place l
  fits    : ∀ b l, place b = some l → s.fits B b l
  home    : ∀ b, s.still B b → ¬B.fake b → B.type b ≠ .super → place b ≠ none
  used    : ∀ b, place b ≠ none ∨ s.hashed B b ∨ (∃ q, (s.proc q).moves = some b) → s.used b
  alone   : ∀ p q b, (s.proc p).moves = some b → (s.proc q).moves = some b → p = q
  ok      : ∀ p, Ok B s place p (s.proc p)
  nodl    : s.lk .dl = none → ∀ b, place b ≠ some .dl
  hash    : HashOk B s.hash

-- A step of `p`, that goes on to `c`. It is at no block but the one in `o`, if any, which no other
-- process has.
structure Local (B : Blocks Blk) (s s' : State Blk Pid) (at₀ at₁ : Blk → Option ListId) (p : Pid)
    (o : Option Blk) (c : Proc Blk) : Prop where
  proc   : s'.proc = Function.update s.proc p c
  place  : ∀ a, a ∉ o → at₁ a = at₀ a
  dirty  : ∀ a, a ∉ o → B.moves a → s'.dirty a = s.dirty a
  hashed : ∀ a, a ∉ o → s'.hashed B a → s.hashed B a
  used   : ∀ a, s.used a → s'.used a
  before : ∀ a ∈ (s.proc p).moves, a ∈ o
  after  : ∀ a ∈ c.moves, a ∈ o
  others : ∀ q, q ≠ p → ∀ a ∈ o, a ∉ (s.proc q).moves
  lk     : ∀ l q, q ≠ p → s.lk l = some q → s'.lk l = some q
  -- The block stays on a list that another process has locked.
  keep   : ∀ l q, q ≠ p → s.lk l = some q → ∀ a ∈ o, at₀ a = some l → at₁ a = some l

omit [DecidableEq Blk] [DecidableEq Pid] in
theorem fits_congr (h : B.moves b → s'.dirty b = s.dirty b) (hf : s.fits B b l) : s'.fits B b l := by
  cases l
  case refs => exact hf
  all_goals exact ⟨hf.left, h hf.left ▸ hf.right⟩

namespace Inv

variable {p : Pid} {b : Blk} {o : Option Blk} {c : Proc Blk}

omit [DecidableEq Blk]

theorem ok_of_local (h : Inv B s place) (f : Local B s s' place place' p o c) (q : Pid) (hq : q ≠ p) :
    Ok B s' place' q (s.proc q) := by
  have hok := h.ok q
  have hlock {l a} (hl : s.lk l = some q) (ha : place a = some l) : place' a = some l := by
    by_cases he : a ∈ o
    case pos => exact f.keep l q hq hl a he ha
    case neg => rwa [f.place a he]
  have hmine {a} (ha : a ∈ (s.proc q).moves) : a ∉ o := fun he => f.others q hq a he ha
  cases hc : s.proc q <;> rw [hc] at hok hmine
  case unlink a l k =>
    have hne : a ∉ o := hmine rfl
    cases k
    case relink | mark => exact ⟨f.place a hne ▸ hok.left, hok.right⟩
    case unhash =>
      exact ⟨f.place a hne ▸ hok.left, hok.right.left, fun hh => hok.right.right (f.hashed a hne hh)⟩
    case reclaim bprev =>
      have ⟨ha, hl, hh, hk, hprev⟩ := hok
      exact ⟨f.place a hne ▸ ha, hl, fun h' => hh (f.hashed a hne h'), f.lk _ q hq hk,
        fun d hd => ⟨(hprev d hd).left, hlock hk (hprev d hd).right⟩⟩
  case mark a =>
    have hne : a ∉ o := hmine rfl
    exact ⟨f.place a hne ▸ hok.left, fits_congr (f.dirty a hne) hok.right⟩
  case wr a =>
    have hne : a ∉ o := hmine rfl
    exact ⟨f.place a hne ▸ hok.left, fits_congr (f.dirty a hne) hok.right.left,
      f.lk _ q hq hok.right.right⟩
  case link a l last k =>
    have hne : a ∉ o := hmine rfl
    have ⟨ha, hl, hf, hn, hk⟩ := hok
    exact ⟨f.place a hne ▸ ha, hl, fits_congr (f.dirty a hne) hf, hn, fun hw => f.lk _ q hq (hk hw)⟩
  case chg => exact hok
  case filter cur =>
    have ⟨hm, hd, hcur⟩ := hok
    exact ⟨f.lk _ q hq hm, f.lk _ q hq hd, fun a ha => hlock hm (hcur a ha)⟩
  case write => exact f.lk _ q hq hok
  case scan cur => exact ⟨f.lk _ q hq hok.left, fun a ha => hlock hok.left (hok.right a ha)⟩
  all_goals trivial

theorem of_local (h : Inv B s place) (f : Local B s s' place place' p o c)
    (hl : ∃ l, Listing s'.links s'.ends place' l) (hok : Ok B s' place' p c)
    (hash : HashOk B s'.hash) (nodl : s'.lk .dl = none → ∀ a, place' a ≠ some .dl)
    (hfits : ∀ b ∈ o, ∀ l, place' b = some l → s'.fits B b l) (hused : ∀ b ∈ o, s'.used b)
    (home : ∀ b ∈ o, s'.hashed B b → c.moves = none → ¬B.fake b → B.type b ≠ .super →
      place' b ≠ none) : Inv B s' place' where
  listing := hl
  hash    := hash
  nodl    := nodl
  fits a l ha := by
    by_cases he : a ∈ o
    case pos => exact hfits a he l ha
    case neg => exact fits_congr (f.dirty a he) (h.fits a l (f.place a he ▸ ha))
  home a hs hf ht := by
    have ⟨hh, hm⟩ := hs
    by_cases he : a ∈ o
    case pos =>
      refine home a he hh (Option.eq_none_iff_forall_ne_some.mpr fun d hd => ?_) hf ht
      obtain rfl : d = a := Option.some.inj <| (f.after d hd).symm.trans he
      exact hm p (by rw [f.proc, Function.update_self]; exact hd)
    case neg =>
      have hstill : s.still B a := by
        refine ⟨f.hashed a he hh, fun q hq => ?_⟩
        by_cases hqp : q = p
        case pos => exact he (f.before a (hqp ▸ hq))
        case neg => exact hm q (by rwa [f.proc, Function.update_of_ne hqp])
      exact f.place a he ▸ h.home a hstill hf ht
  used a ha := by
    by_cases he : a ∈ o
    case pos => exact hused a he
    case neg =>
      refine f.used a <| h.used a ?_
      rw [f.place a he] at ha
      refine ha.imp id fun ha => ha.imp (f.hashed a he) fun ⟨q, hq⟩ => ⟨q, ?_⟩
      by_cases hqp : q = p
      case pos =>
        subst hqp
        rw [f.proc, Function.update_self] at hq
        exact absurd (f.after a hq) he
      case neg => rwa [f.proc, Function.update_of_ne hqp] at hq
  alone q r a hq hr := by
    rw [f.proc] at hq hr
    by_cases hqp : q = p
    case pos =>
      rw [hqp, Function.update_self] at hq
      by_cases hrp : r = p
      case pos => exact hqp.trans hrp.symm
      case neg =>
        rw [Function.update_of_ne hrp] at hr
        exact absurd hr (f.others r hrp a (f.after a hq))
    case neg =>
      rw [Function.update_of_ne hqp] at hq
      by_cases hrp : r = p
      case pos =>
        rw [hrp, Function.update_self] at hr
        exact absurd hq (f.others q hqp a (f.after a hr))
      case neg =>
        rw [Function.update_of_ne hrp] at hr
        exact h.alone q r a hq hr
  ok q := by
    rw [f.proc]
    by_cases hqp : q = p
    case pos =>
      rw [hqp, Function.update_self]
      exact hok
    case neg =>
      rw [Function.update_of_ne hqp]
      exact h.ok_of_local f q hqp

theorem goto (h : Inv B s place) (hp : (s.proc p).moves = none) (hc : c.moves = none)
    {dirty : Blk → Bool} {lk : ListId → Option Pid} {hlk : Nat → Option Pid}
    {dirtylk : Blk → Option Pid} (hdirty : ∀ a, B.moves a → dirty a = s.dirty a)
    (hlk' : ∀ l q, q ≠ p → s.lk l = some q → lk l = some q)
    (nodl : lk .dl = none → ∀ a, place a ≠ some .dl)
    (hok : Ok B { s.goto p c with dirty, lk, hlk, dirtylk } place p c) :
    Inv B { s.goto p c with dirty, lk, hlk, dirtylk } place := by
  have f : Local B s { s.goto p c with dirty, lk, hlk, dirtylk } place place p none c :=
    { proc   := rfl
      dirty  := fun a _ => hdirty a
      before := by simp [hp]
      after  := by simp [hc]
      others := nofun
      lk     := hlk'
      place  := fun _ _ => rfl
      hashed := fun _ _ h => h
      used   := fun _ h => h
      keep   := fun _ _ _ _ _ _ h => h }
  exact h.of_local f h.listing hok h.hash nodl nofun nofun nofun

theorem start (h : Inv B s place) (hp : (s.proc p).moves = none) (hc : c.moves = some b)
    (hs : s.still B b) {hlk : Nat → Option Pid} {dirtylk : Blk → Option Pid}
    (hok : Ok B { s.goto p c with hlk, dirtylk } place p c) :
    Inv B { s.goto p c with hlk, dirtylk } place := by
  have f : Local B s { s.goto p c with hlk, dirtylk } place place p (some b) c :=
    { proc   := rfl
      before := by simp [hp]
      after  := by simp [hc]
      others := fun q _ a ha => Option.some.inj ha ▸ hs.right q
      place  := fun _ _ => rfl
      dirty  := fun _ _ _ => rfl
      hashed := fun _ _ h => h
      used   := fun _ h => h
      lk     := fun _ _ _ h => h
      keep   := fun _ _ _ _ _ _ h => h }
  refine h.of_local f h.listing hok h.hash h.nodl (fun a _ => h.fits a) ?_ ?_
  · exact fun a ha => h.used a (.inr (.inl (Option.some.inj ha ▸ hs.left)))
  · simp [hc]

omit [DecidableEq Pid] in
theorem others (h : Inv B s place) (hp : (s.proc p).moves = some b) (q : Pid) (hq : q ≠ p) (a : Blk)
    (ha : a ∈ some b) : a ∉ (s.proc q).moves :=
  fun hm => hq <| h.alone q p b (Option.some.inj ha ▸ hm) hp

variable [DecidableEq Blk]

theorem unlinked (h : Inv B s place) (hp : ∀ a ∈ (s.proc p).moves, a ∈ some b)
    (hq : ∀ q, q ≠ p → ∀ a ∈ some b, a ∉ (s.proc q).moves) (hb : place b = some l)
    (hfree : ∀ q, q ≠ p → s.lk l ≠ some q) (hc : c.moves = some b ∨ c.moves = none ∧ ¬s.hashed B b)
    {hlk : Nat → Option Pid}
    (hok : Ok B { (s.munlink b l).goto p c with hlk } (Function.update place b none) p c) :
    Inv B { (s.munlink b l).goto p c with hlk } (Function.update place b none) := by
  have f : Local B s { (s.munlink b l).goto p c with hlk } place (Function.update place b none) p
      (some b) c :=
    { proc   := rfl
      place  := fun a ha => Function.update_of_ne (fun he => ha (congrArg some he.symm)) ..
      before := hp
      after  := fun a ha => by
        rcases hc with hc | hc
        · exact hc.symm.trans ha
        · simp [hc.left] at ha
      others := hq
      keep   := fun i q hq hi a ha hpl => by
        obtain rfl := Option.some.inj ha
        obtain rfl := Option.some.inj (hb.symm.trans hpl)
        exact absurd hi (hfree q hq)
      dirty  := fun _ _ _ => rfl
      hashed := fun _ _ h => h
      used   := fun _ h => h
      lk     := fun _ _ _ h => h }
  have ⟨_, hl⟩ := h.listing
  refine h.of_local f ⟨_, hl.unlink hb⟩ hok h.hash ?_ ?_ ?_ ?_
  · intro hd a ha
    by_cases he : a = b
    case pos => simp [he] at ha
    case neg => exact h.nodl hd a (by rwa [Function.update_of_ne he] at ha)
  · intro a ha i hi
    simp [Option.some.inj ha] at hi
  · exact fun a ha => h.used a (.inl (Option.some.inj ha ▸ by simp [hb]))
  · intro a ha hh hn
    obtain rfl := Option.some.inj ha
    rcases hc with hc | hc
    · simp [hc] at hn
    · exact absurd hh hc.right

theorem linked {t : State Blk Pid} (h : Inv B s place) (ht : t = s.mlink b l ∨ t = s.mlinklast b l)
    (hp : (s.proc p).moves = some b) (hb : place b = none) (hl : l ≠ .dl) (hf : s.fits B b l)
    (hc : c.moves = none) {lk : ListId → Option Pid} {hlk : Nat → Option Pid}
    {dirtylk : Blk → Option Pid} (hlk' : ∀ l q, q ≠ p → s.lk l = some q → lk l = some q)
    (nodl : lk .dl = none → ∀ a, place a ≠ some .dl)
    (hok : Ok B { t.goto p c with lk, hlk, dirtylk } (Function.update place b (some l)) p c) :
    Inv B { t.goto p c with lk, hlk, dirtylk } (Function.update place b (some l)) := by
  have ⟨_, hlist⟩ := h.listing
  have hlisting : ∃ L, Listing t.links t.ends (Function.update place b (some l)) L := by
    rcases ht with rfl | rfl
    · exact ⟨_, hlist.link hb l⟩
    · exact ⟨_, hlist.linklast hb l⟩
  have hsame : t.proc = s.proc ∧ t.dirty = s.dirty ∧ t.hash = s.hash ∧ t.used = s.used := by
    rcases ht with rfl | rfl <;> exact ⟨rfl, rfl, rfl, rfl⟩
  have ⟨hproc, hdirty, hhash, hused⟩ := hsame
  have f : Local B s { t.goto p c with lk, hlk, dirtylk } place (Function.update place b (some l)) p
      (some b) c :=
    { proc   := by rw [← hproc]; rfl
      place  := fun a ha => Function.update_of_ne (fun he => ha (congrArg some he.symm)) ..
      dirty  := fun a _ _ => congrFun hdirty a
      hashed := fun a _ ha => by rwa [State.hashed, ← hhash]
      used   := fun a ha => by rw [← hused] at ha; exact ha
      before := fun a ha => hp.symm.trans ha
      after  := by simp [hc]
      others := h.others hp
      lk     := hlk'
      keep   := fun i q hq hi a ha hpl => by
        obtain rfl := Option.some.inj ha
        simp [hb] at hpl }
  refine h.of_local f hlisting hok (show HashOk B t.hash from hhash ▸ h.hash) ?_ ?_ ?_ ?_
  · intro hd a ha
    by_cases he : a = b
    case pos =>
      rw [he, Function.update_self] at ha
      exact hl (Option.some.inj ha)
    case neg => exact nodl hd a (by rwa [Function.update_of_ne he] at ha)
  · intro a ha i hi
    obtain rfl := Option.some.inj ha
    rw [Function.update_self] at hi
    exact fits_congr (fun _ => congrFun hdirty b) (Option.some.inj hi ▸ hf)
  · intro a ha
    obtain rfl := Option.some.inj ha
    have := h.used b (.inr (.inr ⟨p, hp⟩))
    rwa [← hused] at this
  · intro a ha _ _ _ _
    rw [← Option.some.inj ha, Function.update_self]
    nofun

theorem marked (h : Inv B s place) (hp : (s.proc p).moves = some b) (hb : place b = none)
    (hc : c.moves = some b) {v : Bool}
    (hok : Ok B { s.goto p c with dirty := Function.update s.dirty b v } place p c) :
    Inv B { s.goto p c with dirty := Function.update s.dirty b v } place := by
  have f : Local B s { s.goto p c with dirty := Function.update s.dirty b v } place place p (some b) c :=
    { proc   := rfl
      dirty  := fun a ha _ => Function.update_of_ne (fun he => ha (congrArg some he.symm)) ..
      before := fun a ha => hp.symm.trans ha
      after  := fun a ha => hc.symm.trans ha
      others := h.others hp
      place  := fun _ _ => rfl
      hashed := fun _ _ h => h
      used   := fun _ h => h
      lk     := fun _ _ _ h => h
      keep   := fun _ _ _ _ _ _ h => h }
  refine h.of_local f h.listing hok h.hash h.nodl ?_ ?_ ?_
  · intro a ha i hi
    simp [← Option.some.inj ha, hb] at hi
  · exact fun a ha => h.used a (.inr (.inr ⟨p, Option.some.inj ha ▸ hp⟩))
  · simp [hc]

theorem pulled (h : Inv B s place) (hp : (s.proc p).moves = none) (hb : place b = some .mdirty)
    (hq : ∀ q, (s.proc q).moves ≠ some b) (hlk : s.lk .mdirty = some p) (hdl : s.lk .dl = some p)
    (hc : c.moves = none)
    (hok : Ok B (((s.munlink b .mdirty).mlinklast b .dl).goto p c)
      (Function.update place b (some .dl)) p c) :
    Inv B (((s.munlink b .mdirty).mlinklast b .dl).goto p c) (Function.update place b (some .dl)) := by
  have f : Local B s (((s.munlink b .mdirty).mlinklast b .dl).goto p c) place
      (Function.update place b (some .dl)) p (some b) c :=
    { proc   := rfl
      place  := fun a ha => Function.update_of_ne (fun he => ha (congrArg some he.symm)) ..
      before := by simp [hp]
      after  := by simp [hc]
      others := fun q _ a ha => Option.some.inj ha ▸ hq q
      keep   := fun i q hqp hi a ha hpl => by
        obtain rfl := Option.some.inj ha
        obtain rfl := Option.some.inj (hb.symm.trans hpl)
        exact absurd (Option.some.inj (hlk.symm.trans hi)).symm hqp
      dirty  := fun _ _ _ => rfl
      hashed := fun _ _ h => h
      used   := fun _ h => h
      lk     := fun _ _ _ h => h }
  have ⟨_, hl⟩ := h.listing
  have hl := (hl.unlink hb).linklast (Function.update_self ..) ListId.dl
  rw [Function.update_idem] at hl
  refine h.of_local f ⟨_, hl⟩ hok h.hash ?_ ?_ ?_ ?_
  · intro hd
    exact absurd (hdl.symm.trans hd) nofun
  · intro a ha i hi
    obtain rfl := Option.some.inj ha
    rw [Function.update_self] at hi
    exact Option.some.inj hi ▸ h.fits b _ hb
  · exact fun a ha => h.used a (.inl (Option.some.inj ha ▸ by simp [hb]))
  · intro a ha _ _ _ _
    rw [← Option.some.inj ha, Function.update_self]
    nofun

end Inv

end Creepy.Mblk
