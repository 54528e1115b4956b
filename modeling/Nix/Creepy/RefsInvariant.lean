import Nix.Lib.Snapshot
import Nix.Creepy.Refs

namespace Creepy.Refs

theorem Disk.pwrite_of_ne {d : Disk} {ref : Counters} (hk : k ≠ g) : (d.pwrite odd g ref).ref c k = d.ref c k := by
  by_cases hc : c = odd
  case pos => simp [pwrite, hc, hk]
  case neg => simp [pwrite, hc]

theorem Disk.pwrite_self {d : Disk} {ref : Counters} :
    (fun c => (d.pwrite odd g ref).ref c g) = Function.update (fun c => d.ref c g) odd ref := by
  funext c
  by_cases hc : c = odd
  case pos => simp [pwrite, hc]
  case neg => simp [pwrite, hc]

namespace State

variable {s : State} {rb : Ref}

theorem meltedref_of_not_frozen (hf : ¬rb.frozen) : s.meltedref g rb ok = s.put g rb := by
  obtain ⟨ref, dirty, frozen, changed, loading⟩ := rb
  simp_all [meltedref, Ref.melted, Ref.writes]

theorem meltedref_of_not_dirty (hd : ¬rb.dirty) :
    s.meltedref g rb ok = s.put g { rb with frozen := false } := by
  obtain ⟨ref, dirty, frozen, changed, loading⟩ := rb
  simp_all [meltedref, Ref.melted, Ref.writes]

theorem meltedref_of_dirty (hf : rb.frozen) (hd : rb.dirty) :
    s.meltedref g rb true =
      { s.put g { rb with dirty := false, frozen := false } with
        disk := s.disk.pwrite (s.fzsuper.any (·.oddrefs)) g rb.ref } := by
  simp [meltedref, Ref.melted, Ref.writes, hf, hd, put]

theorem meltedref_fails (hw : rb.writes) :
    s.meltedref g rb false = s.put g { rb with dirty := false } := by
  have ⟨hf, hd⟩ : rb.frozen ∧ rb.dirty := by simpa [Ref.writes] using hw
  simp [meltedref, Ref.melted, Ref.writes, hf, hd]

@[simp]
theorem meltedref_super : (s.meltedref g rb ok).super = s.super := by
  rw [meltedref]
  split <;> rfl

@[simp]
theorem meltedref_fzsuper : (s.meltedref g rb ok).fzsuper = s.fzsuper := by
  rw [meltedref]
  split <;> rfl

@[simp]
theorem meltedref_mem : (s.meltedref g rb ok).mem = Function.update s.mem g (some (rb.melted ok)) := by
  rw [meltedref]
  split <;> rfl

@[simp]
theorem meltedref_phase : (s.meltedref g rb ok).phase = s.phase := by
  rw [meltedref]
  split <;> rfl

@[simp]
theorem meltedref_freeing : (s.meltedref g rb ok).freeing = s.freeing := by
  rw [meltedref]
  split <;> rfl

theorem dbaddref_eq :
    s.dbaddref g rb j delta v true =
      (s.meltedref g rb true).put g ((rb.melted true).add j delta v) := by
  simp [dbaddref, Ref.melted]

theorem dbaddref_mem :
    (s.dbaddref g rb j delta v true).mem g = some ((rb.melted true).add j delta v) := by
  rw [dbaddref_eq, put]
  exact Function.update_self ..

theorem dbaddref_freeing : (s.dbaddref g rb j delta v true).freeing = s.freeing := by
  rw [dbaddref_eq, put, meltedref_freeing]

end State

-- What a super block and the reference blocks hold, wherever they are kept.
structure Image where
  free  : UInt64
  eaddr : Nat
  ref   : Nat → Counters

namespace Image

variable (i : Image) (g : Nat)

def super (odd : Bool) : Super where
  free    := i.free
  eaddr   := i.eaddr
  oddrefs := odd

def has : Prop :=
  blkaddr (g * Nblkgrpsz + 2) < i.eaddr

instance : Decidable (i.has g) :=
  inferInstanceAs (Decidable (_ < _))

-- The counters of a group, if there is one.
def group : Option Counters :=
  if i.has g then some (i.ref g) else none

def set (j : Nat) (v : UInt64) : Image :=
  { i with ref := Function.update i.ref g <| Function.update (i.ref g) j v }

-- No group is there in part.
def Whole : Prop :=
  ∃ n, i.eaddr = blkaddr n ∧ n % Nblkgrpsz ≠ 1 ∧ n % Nblkgrpsz ≠ 2

end Image

-- What an action is for, on the counters and the free list.
def note (_ : State) : Act → Snapshot Image → Snapshot Image
  | .dbclear _, a =>
    a.update fun i => { i with
      eaddr := i.eaddr + Dblksz
      ref   := Function.update i.ref (groupof i.eaddr) 0 }
  | .dbclearodd true, a => a.update fun i => { i with eaddr := i.eaddr + 2 * Dblksz }
  | .extend, a => a.update fun i => { i with eaddr := i.eaddr + Dblksz }
  | .takefree naddr, a => a.update fun i => { i with free := naddr }
  | .dbaddref g j delta set true, a =>
    a.update fun i => i.set g j (if set ≠ 0 then set else i.ref g j + delta)
  | .dbput g j true, a => a.update fun i => i.set g j (i.ref g j - 1)
  | .link g j, a =>
    a.update fun i => { i.set g j i.free with free := .ofNat (addrofref (groupaddr g) j) }
  | .freezesuperrefs, a => a.freeze
  | .writezsuper true, a => a.save
  | .crash, a => a.crash
  | _, a => a

section
variable (a : Snapshot Image)

theorem note_dbclear : note s (.dbclear ok) a = a.update fun i => { i with
    eaddr := i.eaddr + Dblksz
    ref   := Function.update i.ref (groupof i.eaddr) 0 } := rfl

theorem note_dbclearodd :
    note s (.dbclearodd true) a = a.update fun i => { i with eaddr := i.eaddr + 2 * Dblksz } := rfl

theorem note_extend : note s .extend a = a.update fun i => { i with eaddr := i.eaddr + Dblksz } := rfl

theorem note_link (g j : Nat) : note s (.link g j) a = a.update fun i =>
    { i.set g j i.free with free := .ofNat (addrofref (groupaddr g) j) } := rfl

theorem note_freezesuperrefs : note s .freezesuperrefs a = a.freeze := rfl

theorem note_crash : note s .crash a = a.crash := rfl

end

-- As after `fsfmt`, the counters are those that are found on disk.
def tracked (limit : Nat) : Machine (State × Snapshot Image) Act :=
  (machine limit).track (Snapshot Image)
    (fun s => { now := { free := s.super.free, eaddr := s.super.eaddr, ref := s.disk.ref false }
                frozen := none, saved := none })
    note

-- The copy that the super block on disk selects, and the one that the next one to be written will.
def Phase.cur (ph : Phase) (odd : Bool) : Bool :=
  if ph = .written then !odd else odd

def Phase.sel (ph : Phase) (odd fz : Bool) : Bool :=
  if fz then !odd else ph.cur odd

-- What there is of a group.
structure View where
  disk   : Bool → Counters
  mem    : Option Ref
  now    : Option Counters
  frozen : Option Counters
  saved  : Option Counters

def view (s : State) (a : Snapshot Image) (g : Nat) : View where
  disk c := s.disk.ref c g
  mem    := s.mem g
  now    := a.now.group g
  frozen := a.frozen.bind (·.group g)
  saved  := a.saved.bind (·.group g)

-- The blocks that may be frozen, and those that may be changed.
def Phase.MayFreeze (ph : Phase) (g : Nat) : Prop :=
  match ph with
  | .idle | .frozen => True
  | .writerefs l    => g ∈ l
  | _               => False

def Phase.MayChange (ph : Phase) (fz : Bool) (g : Nat) : Prop :=
  match ph with
  | .written    => True
  | .syncrefs l => g ∈ l
  | _           => fz

-- `fz` tells that there is a frozen super block. It will be written unless there was an error.
structure GroupOk (ph : Phase) (odd fz : Bool) (g : Nat) (v : View) : Prop where
  rest    : v.now = none → v.mem = none ∧ v.frozen = none ∧ v.saved = none
  saved   : ∀ x ∈ v.saved, v.disk (ph.cur odd) = x
  same    : v.now ≠ none → (∀ rb ∈ v.mem, rb.changed → rb.frozen) → v.disk true = v.disk false
  away    : ∀ x ∈ v.now, (∀ rb ∈ v.mem, rb.loading ≠ none) → v.disk odd = x
  loading : ∀ rb ∈ v.mem, rb.loading ≠ none → ¬rb.dirty ∧ ¬rb.frozen ∧ ¬rb.changed
  loaded  : ∀ rb ∈ v.mem, rb.loading = none → v.now = some rb.ref
  clean   : (ph = .idle → ¬fz) → ∀ rb ∈ v.mem, rb.loading = none → ¬rb.dirty →
    v.disk (ph.sel odd fz) = rb.ref
  froze   : ∀ rb ∈ v.mem, rb.frozen → fz ∧ (rb.dirty → rb.changed) ∧ ph.MayFreeze g
  change  : ∀ rb ∈ v.mem, rb.changed → ph.MayChange fz g
  frozen  : (ph = .idle → ¬fz) → ∀ x ∈ v.frozen, (∀ rb ∈ v.mem, ¬rb.frozen) → v.disk (!odd) = x
  frozenmem : (ph = .idle → ¬fz) → ∀ x ∈ v.frozen, ∀ rb ∈ v.mem, rb.frozen → rb.ref = x

def Phase.Ok (ph : Phase) (fz : Bool) : Prop :=
  match ph with
  | .idle                  => True
  | .written | .syncrefs _ => ¬fz
  | _                      => fz

structure Inv (s : State) (a : Snapshot Image) : Prop where
  super   : s.super.free = a.now.free ∧ s.super.eaddr = a.now.eaddr
  fzsuper : s.fzsuper = a.frozen.map (·.super !s.super.oddrefs)
  saved   : s.disk.super = a.saved.map (·.super <| s.phase.cur s.super.oddrefs)
  refs    : ∀ g, s.mem g ≠ none → g ∈ s.refs
  phase   : s.phase.Ok s.fzsuper.isSome
  freeing : ∀ p ∈ s.freeing, ∃ rb ∈ s.mem p.fst, rb.loading = none ∧ rb.dirty ∧ ¬rb.frozen
  group   : ∀ g, GroupOk s.phase s.super.oddrefs s.fzsuper.isSome g (view s a g)
  whole   : s.clearing = none → a.now.Whole
  clearing : ∀ g ∈ s.clearing,
    a.now.eaddr = blkaddr (g * Nblkgrpsz + 1) ∧ s.disk.ref false g = 0 ∧ a.now.ref g = 0
  past    : a.Past Image.Whole

namespace GroupOk

variable {ph ph' : Phase} {odd fz : Bool} {v : View} {rb : Ref}

theorem not_frozen (h : GroupOk ph odd fz g v) (hp : ¬ph.MayFreeze g) : ∀ rb ∈ v.mem, ¬rb.frozen :=
  fun rb hrb hf => hp (h.froze rb hrb hf).right.right

theorem copies_eq (h : GroupOk ph odd fz g v) (hn : v.now ≠ none)
    (hc : ∀ rb ∈ v.mem, rb.changed → rb.frozen) (c c' : Bool) : v.disk c = v.disk c' := by
  have hs := h.same hn hc
  cases c <;> cases c' <;> simp [hs]

theorem away_eq (h : GroupOk ph odd fz g v) (hx : v.now = some x)
    (hl : ∀ rb ∈ v.mem, rb.loading ≠ none) (c : Bool) : v.disk c = x := by
  rw [h.copies_eq (by simp [hx]) (fun rb hrb hc => absurd hc (h.loading rb hrb (hl rb hrb)).right.right) c odd]
  exact h.away x hx hl

theorem dbget (h : GroupOk ph odd fz g v) (hm : v.mem = none) (hn : v.now ≠ none)
    (hrb : rb = { ref := 0, dirty := false, frozen := false, changed := false, loading := some c }) :
    GroupOk ph odd fz g { v with mem := some rb } := by
  subst hrb
  have hx x (hx : v.now = some x) (c : Bool) := h.away_eq hx (by simp [hm]) c
  exact
    { rest      := fun hn' => absurd hn' hn
      saved     := h.saved
      same      := fun _ _ => h.copies_eq hn (by simp [hm]) ..
      away      := fun x hx' _ => hx x hx' odd
      loading   := by simp
      loaded    := by simp
      clean     := by simp
      froze     := by simp
      change    := by simp
      frozen    := fun hl x hx _ => h.frozen hl x hx (by simp [hm])
      frozenmem := by simp }

theorem dbread (h : GroupOk ph odd fz g v) (hm : v.mem = some rb) (hl : rb.loading ≠ none) (c : Bool) :
    GroupOk ph odd fz g { v with mem := some { rb with ref := v.disk c, loading := none } } := by
  have ⟨_, hf, hc⟩ := h.loading rb hm hl
  have hn : v.now ≠ none := fun hn => by simp [(h.rest hn).left] at hm
  obtain ⟨x, hx⟩ := Option.ne_none_iff_exists'.mp hn
  have hd := h.away_eq hx (by simp [hm, hl])
  exact
    { rest      := fun hn' => absurd hn' hn
      saved     := h.saved
      same      := fun _ _ => (hd _).trans (hd _).symm
      away      := by simp
      loading   := by simp
      loaded    := by simp [hx, hd]
      clean     := by simp [hd]
      froze     := by simp [hf]
      change    := by simp [hc]
      frozen    := fun hlive x hx _ => h.frozen hlive x hx (by simp [hm, hf])
      frozenmem := by simp [hf] }

theorem thawed (h : GroupOk ph odd fz g v) (hm : v.mem = some rb) (hl : rb.loading = none)
    (hw : ¬(rb.frozen ∧ rb.dirty)) :
    GroupOk ph odd fz g { v with mem := some { rb with frozen := false } } := by
  have hx := h.loaded rb hm hl
  have hn : v.now ≠ none := by simp [hx]
  exact
    { rest      := fun hn' => absurd hn' hn
      saved     := h.saved
      same      := fun _ hc => by
        have hc : ¬rb.changed := by simpa using hc
        exact h.copies_eq hn (by simp [hm, hc]) ..
      away      := by simp [hl]
      loading   := by simp [hl]
      loaded    := by simpa using fun _ => hx
      clean     := by simpa [hl] using fun hlive => h.clean hlive rb hm hl
      froze     := by simp
      change    := by simpa using h.change rb hm
      frozen    := fun hlive x hx _ => by
        by_cases hf : rb.frozen
        case neg => exact h.frozen hlive x hx (by simp [hm, hf])
        case pos =>
          -- It is clean, so that the copies are equal.
          have hd := h.clean hlive rb hm hl fun hd => hw ⟨hf, hd⟩
          rw [Phase.sel, if_pos (h.froze rb hm hf).left] at hd
          exact hd.trans (h.frozenmem hlive x hx rb hm hf)
      frozenmem := by simp }

theorem cur_eq (h : GroupOk ph odd fz g v) (hm : v.mem = some rb) (hf : rb.frozen) :
    ph.cur odd = odd := by
  have hp := (h.froze rb hm hf).right.right
  cases ph <;> simp_all [Phase.MayFreeze, Phase.cur]

theorem written (h : GroupOk ph odd fz g v) (hm : v.mem = some rb) (hl : rb.loading = none)
    (hf : rb.frozen) (hd : rb.dirty) :
    GroupOk ph odd fz g { v with
      mem  := some { rb with dirty := false, frozen := false }
      disk := Function.update v.disk (!odd) rb.ref } := by
  have hx := h.loaded rb hm hl
  have ⟨hfz, hc, _⟩ := h.froze rb hm hf
  exact
    { rest      := fun hn => by simp [hx] at hn
      saved     := fun x hx => by
        have hs := h.saved x hx
        rw [h.cur_eq hm hf] at hs ⊢
        simpa using hs
      same      := by simp [hc hd]
      away      := by simp [hl]
      loading   := by simp [hl]
      loaded    := by simpa using fun _ => hx
      clean     := by simp [Phase.sel, hfz]
      froze     := by simp
      change    := by simpa using h.change rb hm
      frozen    := fun hlive x hx _ => by simpa using h.frozenmem hlive x hx rb hm hf
      frozenmem := by simp }

-- `meltedref` could not write the block. The frozen super block will not be written.
theorem spoiled (h : GroupOk ph odd true g v) (hm : v.mem = some rb) (hl : rb.loading = none)
    (hp : ph.cur odd = odd) : GroupOk .idle odd true g { v with mem := some { rb with dirty := false } } where
  rest hn := by simp [h.loaded rb hm hl] at hn
  saved x hx := hp ▸ h.saved x hx
  same hn hc := h.copies_eq hn (by simpa [hm] using hc) ..
  away := by simp [hl]
  loading := by simp [hl]
  loaded := by simpa using h.loaded rb hm
  clean hlive := absurd rfl (hlive rfl)
  froze := by simp [Phase.MayFreeze]
  change := by simp [Phase.MayChange]
  frozen hlive := absurd rfl (hlive rfl)
  frozenmem hlive := absurd rfl (hlive rfl)

theorem update (h : GroupOk ph odd fz g v) (hm : v.mem = some rb) (hl : rb.loading = none)
    (hf : ¬rb.frozen) (ref : Counters) :
    GroupOk ph odd fz g { v with mem := some { rb with ref := ref, dirty := true }, now := some ref } where
  rest := nofun
  saved := h.saved
  same _ hc := h.copies_eq (by simp [h.loaded rb hm hl]) (by simpa [hm] using hc) ..
  away := by simp [hl]
  loading := by simp [hl]
  loaded := by simp
  clean := by simp
  froze := by simp [hf]
  change := by simpa using h.change rb hm
  frozen hlive x hx _ := h.frozen hlive x hx (by simp [hm, hf])
  frozenmem := by simp [hf]

theorem freeze (h : GroupOk .idle odd false g v) (hl : ∀ rb ∈ v.mem, rb.loading = none) :
    GroupOk .frozen odd true g { v with mem := v.mem.map Ref.freeze, frozen := v.now } := by
  have hc : ∀ rb ∈ v.mem, rb.changed → rb.frozen := fun rb hrb hc => absurd (h.change rb hrb hc) nofun
  have hmem {P : Ref → Prop} (hP : ∀ rb ∈ v.mem, P rb.freeze) : ∀ rb ∈ v.mem.map Ref.freeze, P rb := by
    simpa using hP
  exact
    { rest      := fun hn => by
        have hn : v.now = none := hn
        simp [h.rest hn, hn]
      saved     := h.saved
      same      := fun hn _ => h.copies_eq hn hc ..
      away      := fun x hx hno => h.away x hx fun rb hrb =>
        absurd (hl rb hrb) <| hno rb.freeze (Option.mem_map_of_mem Ref.freeze hrb)
      loading   := hmem fun rb hrb hno => absurd (hl rb hrb) hno
      loaded    := hmem fun rb hrb _ => h.loaded rb hrb (hl rb hrb)
      clean     := fun _ => hmem fun rb hrb _ hd => by
        rw [h.copies_eq (by simp [h.loaded rb hrb (hl rb hrb)]) hc _ (Phase.idle.sel odd false)]
        exact h.clean (by simp) rb hrb (hl rb hrb) hd
      froze     := hmem fun rb _ _ => ⟨rfl, id, trivial⟩
      change    := hmem fun _ _ _ => rfl
      frozen    := fun _ x hx hno => by
        have hm : v.mem = none := by
          by_contra hm
          obtain ⟨rb, hrb⟩ := Option.ne_none_iff_exists'.mp hm
          exact hno _ (Option.mem_map_of_mem _ hrb) rfl
        exact h.away_eq hx (by simp [hm]) _
      frozenmem := fun _ x hx => hmem fun rb hrb _ =>
        Option.some.inj <| (h.loaded rb hrb (hl rb hrb)).symm.trans hx }

theorem goto (h : GroupOk ph odd fz g v) (hcur : ph'.cur odd = ph.cur odd)
    (hlive : (ph' = .idle → ¬fz) → ph = .idle → ¬fz)
    (hf : ∀ rb ∈ v.mem, rb.frozen → ph'.MayFreeze g)
    (hc : ∀ rb ∈ v.mem, rb.changed → ph'.MayChange fz g) : GroupOk ph' odd fz g v where
  rest := h.rest
  saved x hx := hcur ▸ h.saved x hx
  same := h.same
  away := h.away
  loading := h.loading
  loaded := h.loaded
  clean hl rb hrb hload hd := by
    have hsel : ph'.sel odd fz = ph.sel odd fz := by rw [Phase.sel, Phase.sel, hcur]
    exact hsel ▸ h.clean (hlive hl) rb hrb hload hd
  froze rb hrb hfr := ⟨(h.froze rb hrb hfr).left, (h.froze rb hrb hfr).right.left, hf rb hrb hfr⟩
  change := hc
  frozen hl := h.frozen (hlive hl)
  frozenmem hl := h.frozenmem (hlive hl)

theorem writezsuper (h : GroupOk .writedata odd true g v) :
    GroupOk .written odd false g { v with frozen := none, saved := v.frozen } := by
  have hf := h.not_frozen (by simp [Phase.MayFreeze])
  exact
    { rest      := fun hn => ⟨(h.rest hn).left, rfl, (h.rest hn).right.left⟩
      saved     := fun x hx => h.frozen nofun x hx hf
      same      := h.same
      away      := h.away
      loading   := h.loading
      loaded    := h.loaded
      clean     := fun _ => h.clean nofun
      froze     := fun rb hrb hfr => absurd hfr (hf rb hrb)
      change    := fun _ _ _ => trivial
      frozen    := nofun
      frozenmem := nofun }

theorem syncrefs (h : GroupOk .written odd false g v) (hz : v.frozen = none) (hm : v.mem ≠ none → g ∈ l) :
    GroupOk (.syncrefs l) (!odd) false g v where
  rest := h.rest
  saved := h.saved
  same := h.same
  away x hx hl := h.away_eq hx hl _
  loading := h.loading
  loaded := h.loaded
  clean _ := h.clean nofun
  froze rb hrb hf := absurd (h.froze rb hrb hf).left nofun
  change rb hrb _ := hm (by simp [Option.mem_def.mp hrb])
  frozen := by simp [hz]
  frozenmem := by simp [hz]

-- The other copy is made equal.
theorem synced (h : GroupOk (.syncrefs l) odd false g v) (hz : v.frozen = none) (hm : v.mem = some rb)
    (hc : rb.changed) (l' : List Nat) :
    GroupOk (.syncrefs l') odd false g { v with
      mem  := some { rb with changed := false }
      disk := Function.update v.disk (!odd) (v.disk odd) } := by
  have hl : rb.loading = none := by
    by_contra hl
    exact (h.loading rb hm hl).right.right hc
  have hf : rb.frozen = false := by
    by_contra hf
    exact absurd (h.froze rb hm (by simpa using hf)).left nofun
  have hd c : Function.update v.disk (!odd) (v.disk odd) c = v.disk odd := by
    by_cases he : c = !odd
    case pos => rw [he, Function.update_self]
    case neg => rw [Function.update_of_ne he, Bool.not_eq_not.mp he]
  exact
    { rest      := fun hn => by simp [h.loaded rb hm hl] at hn
      saved     := fun x hx => (hd _).trans (h.saved x hx)
      same      := fun _ _ => (hd _).trans (hd _).symm
      away      := by simp [hl]
      loading   := by simp [hl]
      loaded    := by simpa using h.loaded rb hm
      clean     := by simpa [hd, Phase.sel, Phase.cur] using h.clean nofun rb hm
      froze     := by simp [hf]
      change    := by simp
      frozen    := by simp [hz]
      frozenmem := by simp [hz] }

theorem crash (h : GroupOk ph odd fz g v) (hc : ∀ rb ∈ v.mem, rb.changed → rb.frozen) :
    GroupOk .idle (ph.cur odd) false g { v with mem := none, now := v.saved, frozen := none } where
  rest hn := ⟨rfl, rfl, hn⟩
  saved := h.saved
  same hn _ := h.copies_eq (fun hn' => hn (h.rest hn').right.right) hc ..
  away x hx _ := h.saved x hx
  loading := nofun
  loaded := nofun
  clean := nofun
  froze := nofun
  change := nofun
  frozen := nofun
  frozenmem := nofun

theorem absent (hn : v.now = none) (hm : v.mem = none) (hf : v.frozen = none) (hs : v.saved = none) :
    GroupOk ph odd fz g v := by
  constructor <;> simp [hn, hm, hf, hs]

theorem created (hn : v.now = some 0) (hd : ∀ c, v.disk c = 0) (hm : v.mem = none)
    (hf : v.frozen = none) (hs : v.saved = none) : GroupOk ph odd fz g v := by
  constructor <;> simp [hn, hm, hf, hs, hd]

end GroupOk

end Creepy.Refs
