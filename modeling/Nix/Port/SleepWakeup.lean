import Nix.Port.Sleep
import Nix.Lib.Parties

namespace Port.Sleep

variable {W N : Type*}

def SleepPc.HasLock : SleepPc → Prop
  | .lockp | .test | .note | .commit | .backout | .unlockp _ | .unlockr _ => True
  | _ => False

def SleepPc.HasRlock : SleepPc → Prop
  | .test | .note | .commit | .backout | .unlockp _ => True
  | _ => False

def WakePc.HasLock : WakePc → Prop
  | .locked | .both | .unlockp | .unlockr => True
  | _ => False

def WakePc.HasRlock : WakePc → Prop
  | .both | .unlockp => True
  | _ => False

def NotePc.HasLock : NotePc → Prop
  | .both => True
  | _ => False

def NotePc.HasRlock : NotePc → Prop
  | .locked | .both | .unlockp => True
  | _ => False

-- It has set `r->p`, and has not made up its mind yet.
def SleepPc.Entered : SleepPc → Prop
  | .test | .note | .commit | .backout => True
  | _ => False

def SleepPc.Slept : SleepPc → Prop
  | .unlockp slept | .unlockr slept => slept = true
  | _ => False

namespace State

variable (s : State W N)

def HasLock : Agent W N → Prop
  | .up       => s.pc.HasLock
  | .waker w  => (s.wpc w).HasLock
  | .poster n => (s.npc n).HasLock

def HasRlock : Agent W N → Prop
  | .up       => s.pc.HasRlock
  | .waker w  => (s.wpc w).HasRlock
  | .poster n => (s.npc n).HasRlock

end State

structure Owns (s : State W N) : Prop where
  lock  : ∀ a, s.lock = some a ↔ s.HasLock a
  rlock : ∀ a, s.rlock = some a ↔ s.HasRlock a

-- What the pointers and the state of the process are, where it is in `sleep`.
structure Linked (s : State W N) : Prop where
  rp    : s.rp = true ↔ s.pc.Entered ∨ s.state = .wakeme
  pr    : s.pr = true ↔ s.state = .wakeme
  slept : s.pc.Slept → s.state = .wakeme
  sched : s.pc = .asleep → s.state ≠ .running
  runs  : ¬s.pc.Slept → s.pc ≠ .asleep → s.state = .running
  waker  : ∀ w, s.wpc w = .both → s.state = .wakeme
  poster : ∀ n, s.npc n = .both → s.state = .wakeme
  panic : s.panic = none

-- It has not come to where it wakes the process up.
def WakePc.Wakes : WakePc → Prop
  | .called | .locked | .both => True
  | _ => False

def NotePc.Wakes : NotePc → Prop
  | .posted | .locked | .both => True
  | _ => False

-- The process has found that it is to wait, or waits.
def State.Commits (s : State W N) : Prop :=
  s.state = .wakeme ∨ s.pc = .commit

-- Whoever has made the condition true, or has posted a note, after the process looked is still to wake it up.
structure Awaited (s : State W N) : Prop where
  cond : s.Commits ∨ s.pc = .note → s.cond → ∃ w, (s.wpc w).Wakes
  note : s.Commits → s.notepending → ∃ n, (s.npc n).Wakes

theorem exists_update {α β : Type*} [DecidableEq α] {f : α → β} {p : β → Prop} {a : α} {b : β} (h : ∃ x, p (f x))
    (hb : p (f a) → p b) : ∃ x, p (Function.update f a b x) := by
  obtain ⟨x, hx⟩ := h
  by_cases hxa : x = a
  · exact ⟨a, by rw [Function.update_self]; exact hb (hxa ▸ hx)⟩
  · exact ⟨x, by rwa [Function.update_of_ne hxa]⟩

variable {s s' : State W N} {w : W} {n : N}

namespace Owns

theorem up (h : Owns s) (hw : s'.wpc = s.wpc) (hn : s'.npc = s.npc)
    (hlock : Passes s.lock s'.lock .up s.pc.HasLock s'.pc.HasLock)
    (hrlock : Passes s.rlock s'.rlock .up s.pc.HasRlock s'.pc.HasRlock) : Owns s' where
  lock  := Passes.owner s'.HasLock hlock h.lock fun a ha => by
    cases a <;> simp_all [State.HasLock]
  rlock := Passes.owner s'.HasRlock hrlock h.rlock fun a ha => by
    cases a <;> simp_all [State.HasRlock]

theorem waker {c : WakePc} [DecidableEq W] (h : Owns s) (hpc : s'.pc = s.pc) (hw : s'.wpc = Function.update s.wpc w c)
    (hn : s'.npc = s.npc) (hlock : Passes s.lock s'.lock (.waker w) (s.wpc w).HasLock c.HasLock)
    (hrlock : Passes s.rlock s'.rlock (.waker w) (s.wpc w).HasRlock c.HasRlock) : Owns s' where
  lock := by
    refine Passes.owner s'.HasLock (a := .waker w) (by simpa [State.HasLock, hw]) h.lock fun a ha => ?_
    cases a <;> simp_all [State.HasLock]
  rlock := by
    refine Passes.owner s'.HasRlock (a := .waker w) (by simpa [State.HasRlock, hw]) h.rlock fun a ha => ?_
    cases a <;> simp_all [State.HasRlock]

theorem poster {c : NotePc} [DecidableEq N] (h : Owns s) (hpc : s'.pc = s.pc) (hw : s'.wpc = s.wpc)
    (hn : s'.npc = Function.update s.npc n c) (hlock : Passes s.lock s'.lock (.poster n) (s.npc n).HasLock c.HasLock)
    (hrlock : Passes s.rlock s'.rlock (.poster n) (s.npc n).HasRlock c.HasRlock) : Owns s' where
  lock := by
    refine Passes.owner s'.HasLock (a := .poster n) (by simpa [State.HasLock, hn]) h.lock fun a ha => ?_
    cases a <;> simp_all [State.HasLock]
  rlock := by
    refine Passes.owner s'.HasRlock (a := .poster n) (by simpa [State.HasRlock, hn]) h.rlock fun a ha => ?_
    cases a <;> simp_all [State.HasRlock]

theorem sleep (h : Owns s) (hs : s.sleep = some s') : Owns s' := by
  rw [State.sleep] at hs
  split at hs <;> (try split at hs) <;> cases hs <;> refine h.up rfl rfl ?_ ?_ <;>
    simp_all [Passes, SleepPc.HasLock, SleepPc.HasRlock]

theorem wakeup [DecidableEq W] (h : Owns s) (hs : s.wakeup w = some s') : Owns s' := by
  rw [State.wakeup] at hs
  split at hs <;> (try split at hs) <;> (try split at hs) <;> cases hs <;>
    first
      | exact ⟨h.lock, h.rlock⟩
      | refine h.waker rfl rfl rfl ?_ ?_ <;> simp_all [Passes, WakePc.HasLock, WakePc.HasRlock, State.wgoto, State.part]

theorem postnote [DecidableEq N] (h : Owns s) (hs : s.postnote n = some s') : Owns s' := by
  rw [State.postnote] at hs
  split at hs <;> (try split at hs) <;> (try split at hs) <;> cases hs <;>
    first
      | exact ⟨h.lock, h.rlock⟩
      | refine h.poster rfl rfl rfl ?_ ?_ <;> simp_all [Passes, NotePc.HasLock, NotePc.HasRlock, State.ngoto, State.part]

end Owns

theorem Owns.waker_both (ho : Owns s) (hw : s.wpc w = .both) : s.lock = some (.waker w) :=
  (ho.lock (.waker w)).mpr (by simp [State.HasLock, hw, WakePc.HasLock])

theorem Owns.poster_both (ho : Owns s) (hn : s.npc n = .both) : s.lock = some (.poster n) :=
  (ho.lock (.poster n)).mpr (by simp [State.HasLock, hn, NotePc.HasLock])

namespace Linked

theorem sleep (h : Linked s) (hs : s.sleep = some s') : Linked s' := by
  obtain ⟨hrp, hpr, hslept, hsched, hruns, hwaker, hposter, hpanic⟩ := h
  rw [State.sleep] at hs
  split at hs <;> (try split at hs) <;> cases hs <;> constructor <;>
    grind [SleepPc.Entered, SleepPc.Slept]

-- Where a waker or a poster has the lock of the Rendez, the process is not in `sleep`.
theorem asleep (h : Linked s) (ho : Owns s) (hlock : s.lock = some a) (ha : a ≠ .up) (hs : s.state = .wakeme) :
    s.pc = .asleep := by
  have hup : ¬s.pc.HasLock := fun hp => ha (Option.some.inj (hlock.symm.trans ((ho.lock .up).mpr hp)))
  by_contra hpc
  by_cases hslept : s.pc.Slept
  · cases hp : s.pc <;> simp_all [SleepPc.HasLock, SleepPc.Slept]
  · cases hs.symm.trans (h.runs hslept hpc)

theorem wakeme (h : Linked s) (ho : Owns s) (hlock : s.lock = some a) (ha : a ≠ .up) (hrp : s.rp = true) :
    s.state = .wakeme := by
  refine (h.rp.mp hrp).resolve_left fun hp => ha ?_
  have hup : s.pc.HasLock := by cases hpc : s.pc <;> simp_all [SleepPc.HasLock, SleepPc.Entered]
  exact Option.some.inj (hlock.symm.trans ((ho.lock .up).mpr hup))

theorem wgoto {c : WakePc} [DecidableEq W] (h : Linked s) (hw : s'.wpc = Function.update s.wpc w c) (hn : s'.npc = s.npc)
    (hpc : s'.pc = s.pc) (hstate : s'.state = s.state) (hrp : s'.rp = s.rp) (hpr : s'.pr = s.pr)
    (hpanic : s'.panic = s.panic) (hc : c = .both → s.state = .wakeme) : Linked s' where
  rp     := by rw [hrp, hpc, hstate]; exact h.rp
  pr     := by rw [hpr, hstate]; exact h.pr
  slept  := by rw [hpc, hstate]; exact h.slept
  sched  := by rw [hpc, hstate]; exact h.sched
  runs   := by rw [hpc, hstate]; exact h.runs
  waker x hx := by
    rw [hw, Function.update_apply] at hx
    rw [hstate]
    split at hx
    case isTrue => exact hc hx
    case isFalse => exact h.waker x hx
  poster := by rw [hn, hstate]; exact h.poster
  panic  := hpanic.trans h.panic

theorem ngoto {c : NotePc} [DecidableEq N] (h : Linked s) (hn : s'.npc = Function.update s.npc n c) (hw : s'.wpc = s.wpc)
    (hpc : s'.pc = s.pc) (hstate : s'.state = s.state) (hrp : s'.rp = s.rp) (hpr : s'.pr = s.pr)
    (hpanic : s'.panic = s.panic) (hc : c = .both → s.state = .wakeme) : Linked s' where
  rp     := by rw [hrp, hpc, hstate]; exact h.rp
  pr     := by rw [hpr, hstate]; exact h.pr
  slept  := by rw [hpc, hstate]; exact h.slept
  sched  := by rw [hpc, hstate]; exact h.sched
  runs   := by rw [hpc, hstate]; exact h.runs
  waker  := by rw [hw, hstate]; exact h.waker
  poster x hx := by
    rw [hn, Function.update_apply] at hx
    rw [hstate]
    split at hx
    case isTrue => exact hc hx
    case isFalse => exact h.poster x hx
  panic  := hpanic.trans h.panic

theorem part (h : Linked s) (ha : s.pc = .asleep) (hpc : s'.pc = s.pc) (hpart : s'.rp = false ∧ s'.pr = false ∧ s'.state = .ready)
    (hw : ∀ w, s'.wpc w ≠ .both) (hn : ∀ n, s'.npc n ≠ .both) (hpanic : s'.panic = s.panic) : Linked s' := by
  obtain ⟨hrp, hpr, hstate⟩ := hpart
  rw [ha] at hpc
  constructor
  case rp => simp [hrp, hpc, hstate, SleepPc.Entered]
  case pr => simp [hpr, hstate]
  case slept => simp [hpc, SleepPc.Slept]
  case sched => simp [hstate]
  case runs => exact fun _ hne => (hne hpc).elim
  case waker => exact fun w hb => (hw w hb).elim
  case poster => exact fun n hb => (hn n hb).elim
  case panic => exact hpanic.trans h.panic

theorem wakeup [DecidableEq W] (h : Linked s) (ho : Owns s) (hs : s.wakeup w = some s') : Linked s' := by
  rw [State.wakeup] at hs
  split at hs
  case h_1 => cases hs
  case h_2 =>
    split at hs <;> cases hs
    exact h.wgoto rfl rfl rfl rfl rfl rfl rfl nofun
  case h_3 hpc =>
    have hlock := (ho.lock (.waker w)).mpr (by simp [State.HasLock, hpc, WakePc.HasLock])
    split at hs
    case isTrue =>
      cases hs
      exact h.wgoto rfl rfl rfl rfl rfl rfl rfl nofun
    case isFalse hrp =>
      split at hs <;> cases hs
      exact h.wgoto rfl rfl rfl rfl rfl rfl rfl fun _ => h.wakeme ho hlock nofun (by simpa using hrp)
  case h_4 hpc =>
    have hlock := ho.waker_both hpc
    have hwakeme := h.waker w hpc
    have hpr := h.pr.mpr hwakeme
    rw [if_neg (by simp [hwakeme, hpr])] at hs
    cases hs
    refine h.part (h.asleep ho hlock nofun hwakeme) rfl ⟨rfl, rfl, rfl⟩ (fun x hx => ?_) (fun n hn => ?_) rfl
    · change Function.update s.wpc w .unlockp x = .both at hx
      rw [Function.update_apply] at hx
      split at hx
      case isTrue => cases hx
      case isFalse hne => exact hne (Agent.waker.inj (Option.some.inj ((ho.waker_both hx).symm.trans hlock)))
    · cases (ho.poster_both hn).symm.trans hlock
  case h_5 =>
    cases hs
    exact h.wgoto rfl rfl rfl rfl rfl rfl rfl nofun
  case h_6 =>
    cases hs
    exact h.wgoto rfl rfl rfl rfl rfl rfl rfl nofun

theorem postnote [DecidableEq N] (h : Linked s) (ho : Owns s) (hs : s.postnote n = some s') : Linked s' := by
  rw [State.postnote] at hs
  split at hs
  case h_1 => cases hs
  case h_2 =>
    split at hs <;> cases hs
    exact h.ngoto rfl rfl rfl rfl rfl rfl rfl nofun
  case h_3 =>
    split at hs
    case isTrue =>
      cases hs
      exact h.ngoto rfl rfl rfl rfl rfl rfl rfl nofun
    case isFalse hpr =>
      split at hs <;> cases hs
      case isTrue => exact h.ngoto rfl rfl rfl rfl rfl rfl rfl fun _ => h.pr.mp (by simpa using hpr)
      case isFalse => exact h.ngoto rfl rfl rfl rfl rfl rfl rfl nofun
  case h_4 hpc =>
    have hlock := ho.poster_both hpc
    have hwakeme := h.poster n hpc
    have hrp := h.rp.mpr (.inr hwakeme)
    rw [if_neg (by simp [hwakeme, hrp])] at hs
    cases hs
    refine h.part (h.asleep ho hlock nofun hwakeme) rfl ⟨rfl, rfl, rfl⟩ (fun w hw => ?_) (fun x hx => ?_) rfl
    · cases (ho.waker_both hw).symm.trans hlock
    · change Function.update s.npc n .unlockp x = .both at hx
      rw [Function.update_apply] at hx
      split at hx
      case isTrue => cases hx
      case isFalse hne => exact hne (Agent.poster.inj (Option.some.inj ((ho.poster_both hx).symm.trans hlock)))
  case h_5 =>
    cases hs
    exact h.ngoto rfl rfl rfl rfl rfl rfl rfl nofun

end Linked

-- One that has the lock of the Rendez finds the process before it looks, or after it has gone to sleep.
theorem Owns.not_commit (ho : Owns s) (hlock : s.lock = some a) (ha : a ≠ .up) : s.pc ≠ .commit ∧ s.pc ≠ .note := by
  have hup : ¬s.pc.HasLock := fun hp => ha (Option.some.inj (hlock.symm.trans ((ho.lock .up).mpr hp)))
  constructor <;> exact fun hpc => hup (by simp [hpc, SleepPc.HasLock])

theorem Owns.not_commit_of_rlock (ho : Owns s) (hrlock : s.rlock = some a) (ha : a ≠ .up) : s.pc ≠ .commit := by
  have hup : ¬s.pc.HasRlock := fun hp => ha (Option.some.inj (hrlock.symm.trans ((ho.rlock .up).mpr hp)))
  exact fun hpc => hup (by simp [hpc, SleepPc.HasRlock])

namespace Awaited

theorem sleep (h : Awaited s) (hl : Linked s) (hs : s.sleep = some s') : Awaited s' := by
  obtain ⟨hcond, hnote⟩ := h
  have hruns := hl.runs
  rw [State.sleep] at hs
  split at hs <;> (try split at hs) <;> cases hs <;> constructor <;> grind [SleepPc.Slept, State.Commits]

theorem waker {c : WakePc} [DecidableEq W] (h : Awaited s) (hw : s'.wpc = Function.update s.wpc w c) (hn : s'.npc = s.npc)
    (hpc : s'.pc = s.pc) (hstate : s'.state = .wakeme → s.state = .wakeme) (hc : s'.cond = s.cond)
    (hnp : s'.notepending = s.notepending) (hwakes : s'.Commits ∨ s'.pc = .note → (s.wpc w).Wakes → c.Wakes) :
    Awaited s' where
  cond hs hcond := by
    have hold : s.Commits ∨ s.pc = .note := by
      rw [State.Commits, hpc] at hs
      exact hs.imp_left (Or.imp_left hstate)
    rw [hw]
    exact exists_update (h.cond hold (hc ▸ hcond)) (hwakes hs)
  note hs hnote := by
    rw [State.Commits, hpc] at hs
    exact hn ▸ h.note (hs.imp_left hstate) (hnp ▸ hnote)

theorem poster {c : NotePc} [DecidableEq N] (h : Awaited s) (hn : s'.npc = Function.update s.npc n c) (hw : s'.wpc = s.wpc)
    (hpc : s'.pc = s.pc) (hstate : s'.state = .wakeme → s.state = .wakeme) (hc : s'.cond = s.cond)
    (hnp : s'.notepending = s.notepending) (hwakes : s'.Commits → (s.npc n).Wakes → c.Wakes) : Awaited s' where
  cond hs hcond := by
    rw [State.Commits, hpc] at hs
    exact hw ▸ h.cond (hs.imp_left (Or.imp_left hstate)) (hc ▸ hcond)
  note hs hnote := by
    have hold : s.Commits := by
      rw [State.Commits, hpc] at hs
      exact hs.imp_left hstate
    rw [hn]
    exact exists_update (h.note hold (hnp ▸ hnote)) (hwakes hs)

theorem wakeup [DecidableEq W] (h : Awaited s) (hl : Linked s) (ho : Owns s) (hs : s.wakeup w = some s') :
    Awaited s' := by
  rw [State.wakeup] at hs
  split at hs
  case h_1 => cases hs
  case h_2 hpc =>
    split at hs <;> cases hs
    exact h.waker rfl rfl rfl id rfl rfl fun _ _ => trivial
  case h_3 hpc =>
    split at hs
    case isTrue hrp =>
      cases hs
      refine h.waker rfl rfl rfl id rfl rfl fun hc _ => ?_
      have := hl.rp.not.mp (by simp [hrp])
      grind [State.Commits, State.wgoto, SleepPc.Entered]
    case isFalse =>
      split at hs <;> cases hs
      exact h.waker rfl rfl rfl id rfl rfl fun _ _ => trivial
  case h_4 hpc =>
    split at hs <;> cases hs
    case isTrue => exact ⟨h.cond, h.note⟩
    case isFalse =>
      refine h.waker rfl rfl rfl nofun rfl rfl fun hc _ => ?_
      have := ho.not_commit (ho.waker_both hpc) nofun
      grind [State.Commits, State.wgoto, State.part]
  case h_5 hpc =>
    cases hs
    exact h.waker rfl rfl rfl id rfl rfl fun _ hw => by simp [hpc, WakePc.Wakes] at hw
  case h_6 hpc =>
    cases hs
    exact h.waker rfl rfl rfl id rfl rfl fun _ hw => by simp [hpc, WakePc.Wakes] at hw

theorem postnote [DecidableEq N] (h : Awaited s) (hl : Linked s) (ho : Owns s) (hs : s.postnote n = some s') :
    Awaited s' := by
  have hrlock := ho.rlock (.poster n)
  rw [State.postnote] at hs
  split at hs
  case h_1 => cases hs
  case h_2 hpc =>
    split at hs <;> cases hs
    exact h.poster rfl rfl rfl id rfl rfl fun _ _ => trivial
  case h_3 hpc =>
    split at hs
    case isTrue hpr =>
      cases hs
      refine h.poster rfl rfl rfl id rfl rfl fun hc _ => ?_
      have := ho.not_commit_of_rlock (hrlock.mpr (by simp [State.HasRlock, hpc, NotePc.HasRlock])) nofun
      have := hl.pr.not.mp (by simp [hpr])
      grind [State.Commits, State.ngoto]
    case isFalse =>
      split at hs <;> cases hs <;> exact h.poster rfl rfl rfl id rfl rfl fun _ _ => trivial
  case h_4 hpc =>
    split at hs <;> cases hs
    case isTrue => exact ⟨h.cond, h.note⟩
    case isFalse =>
      refine h.poster rfl rfl rfl nofun rfl rfl fun hc _ => ?_
      have := ho.not_commit (ho.poster_both hpc) nofun
      grind [State.Commits, State.ngoto, State.part]
  case h_5 hpc =>
    cases hs
    exact h.poster rfl rfl rfl id rfl rfl fun _ hn => by simp [hpc, NotePc.Wakes] at hn

end Awaited

structure Inv (s : State W N) : Prop where
  owns    : Owns s
  linked  : Linked s
  awaited : Awaited s

theorem Begins.inv (h : Begins s) : Inv s where
  owns := by
    constructor <;> rintro (_ | _ | _) <;>
      simp [h.lock, h.rlock, h.pc, h.wpc, h.npc, State.HasLock, State.HasRlock, SleepPc.HasLock, SleepPc.HasRlock,
        WakePc.HasLock, WakePc.HasRlock, NotePc.HasLock, NotePc.HasRlock]
  linked := by
    constructor <;> simp [h.rp, h.pr, h.state, h.pc, h.wpc, h.npc, h.panic, SleepPc.Entered, SleepPc.Slept]
  awaited := by
    constructor <;> simp [State.Commits, h.state, h.pc]

namespace Inv

theorem clearnote (h : Inv s) : Inv { s with notepending := false } where
  owns    := ⟨h.owns.lock, h.owns.rlock⟩
  linked  := { h.linked with }
  awaited := ⟨h.awaited.cond, nofun⟩

theorem unmake (h : Inv s) : Inv { s with cond := false } where
  owns    := ⟨h.owns.lock, h.owns.rlock⟩
  linked  := { h.linked with }
  awaited := ⟨nofun, h.awaited.note⟩

theorem wakeup [DecidableEq W] (h : Inv s) (hw : s.wpc w = .idle) (make : Bool) :
    Inv ({ s with cond := s.cond || make }.wgoto w .called) where
  owns := h.owns.waker rfl rfl rfl (.inl ⟨rfl, by simp [hw, WakePc.HasLock]⟩) (.inl ⟨rfl, by simp [hw, WakePc.HasRlock]⟩)
  linked :=
    { h.linked with
      waker w' hb := by
        have hne : w' ≠ w := fun he => by simp [State.wgoto, he] at hb
        exact h.linked.waker w' (by simpa [State.wgoto, hne] using hb) }
  awaited := ⟨fun _ _ => ⟨w, by simp [State.wgoto, WakePc.Wakes]⟩, h.awaited.note⟩

theorem postnote [DecidableEq N] (h : Inv s) (hn : s.npc n = .idle) :
    Inv ({ s with notepending := true }.ngoto n .posted) where
  owns := h.owns.poster rfl rfl rfl (.inl ⟨rfl, by simp [hn, NotePc.HasLock]⟩) (.inl ⟨rfl, by simp [hn, NotePc.HasRlock]⟩)
  linked :=
    { h.linked with
      poster n' hb := by
        have hne : n' ≠ n := fun he => by simp [State.ngoto, he] at hb
        exact h.linked.poster n' (by simpa [State.ngoto, hne] using hb) }
  awaited := ⟨h.awaited.cond, fun _ _ => ⟨n, by simp [State.ngoto, NotePc.Wakes]⟩⟩

theorem rendezvous (h : Inv s) : Rendezvous s where
  woken hq hs := by
    constructor <;> by_contra hne <;> rw [Bool.not_eq_false] at hne
    · obtain ⟨w, hw⟩ := h.awaited.cond (.inl (.inl hs)) hne
      simp [hq.wpc, WakePc.Wakes] at hw
    · obtain ⟨n, hn⟩ := h.awaited.note (.inl hs) hne
      simp [hq.npc, NotePc.Wakes] at hn
  linked hlock _ := by
    have hup : ¬s.pc.Entered := fun he => by
      have : s.pc.HasLock := by cases hpc : s.pc <;> simp_all [SleepPc.HasLock, SleepPc.Entered]
      cases hlock.symm.trans ((h.owns.lock .up).mpr this)
    rw [Bool.eq_iff_iff, h.linked.rp, h.linked.pr, or_iff_right hup]
  panic := h.linked.panic

end Inv

variable [DecidableEq W] [DecidableEq N]

theorem invariant : (machine W N).Invariant (fun _ _ => True) Inv where
  init h := h.inv
  step {s a s'} h _ hs := by
    cases a <;> simp only [machine, State.step, Option.ite_none_right_eq_some, Option.some.injEq] at hs
    case up => exact ⟨h.owns.sleep hs, h.linked.sleep hs, h.awaited.sleep h.linked hs⟩
    case clearnote => exact hs ▸ h.clearnote
    case unmake => exact hs ▸ h.unmake
    case wakeup w make => exact hs.right ▸ h.wakeup hs.left make
    case waker w => exact ⟨h.owns.wakeup hs, h.linked.wakeup h.owns hs, h.awaited.wakeup h.linked h.owns hs⟩
    case postnote n => exact hs.right ▸ h.postnote hs.left
    case poster n => exact ⟨h.owns.postnote hs, h.linked.postnote h.owns hs, h.awaited.postnote h.linked h.owns hs⟩

def fresh : State Unit Unit where
  lock        := none
  rlock       := none
  rp          := false
  pr          := false
  state       := .running
  cond        := false
  notepending := false
  pc          := .run
  wpc _       := .idle
  npc _       := .idle
  panic       := none

-- A note comes after the process has looked for one, and has to wait for the process' lock.
def noted : State Unit Unit :=
  ((machine Unit Unit).exec fresh (List.replicate 5 .up ++ [.postnote (), .up, .up, .poster (), .poster (), .up, .poster (),
    .poster (), .poster (), .poster (), .up, .up])).get (by decide +kernel)

end Port.Sleep
