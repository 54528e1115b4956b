import Nix.Lib.Parties
import Nix.Port.ChanNames

namespace Port.Chan

open Libc (CStr Elem slash dot hash)
open Slashes

variable {A C H : Type} [DecidableEq A] [DecidableEq H]

-- The names that the variables are to have, as they are given by what was done with them.
abbrev Names (C H : Type) := H → Option (Name C)

def note : Act A C H → Names C H → Names C H
  | .newpath h _ name, f  => Function.update f h (some ⟨name.bytes, none, []⟩)
  | .incref h h', f       => Function.update f h' (f h)
  | .pathclose h, f       => Function.update f h none
  | .addelem h _ e c, f   => Function.update f h ((f h).map (·.add e.bytes c))
  | .domount h _ c, f     => Function.update f h ((f h).map (·.cross (some c)))
  | .updir h _, f         => Function.update f h ((f h).map fun n => n.up.cross none)

-- The names begin with such roots, and such elements without a slash are added.
def Given (root elem : List UInt8 → Prop) : Act A C H → Prop
  | .newpath _ _ name => root name.bytes
  | .addelem _ _ e _  => slash ∉ e.bytes ∧ elem e.bytes
  | _                 => True

-- A device with any name.
def Device (root : List UInt8) : Prop :=
  root = [slash] ∨ root.head? = some hash ∧ 2 ≤ root.length

def Nonempty (e : List UInt8) : Prop :=
  e ≠ []

def Any (_ : List UInt8) : Prop :=
  True

namespace State

variable (s : State A C H)

-- A variable that has a path, or has none where one is to be put, and a place for a new path.
def Ready : Act A C H → Prop
  | .newpath h new _   => s.hold h = none ∧ s.path new = none
  | .incref h h'       => s.hold h' = none ∧ s.hold h ≠ none
  | .pathclose h       => s.hold h ≠ none
  | .addelem h new _ _ => s.path new = none ∧ s.hold h ≠ none
  | .domount h new _   => s.path new = none ∧ s.hold h ≠ none
  | .updir h new       => s.path new = none ∧ s.hold h ≠ none

end State

def holds (a : A) (o : Option A) : Int :=
  if o = some a then 1 else 0

def entries [DecidableEq C] (c : C) (o : Option (Path C)) : Int :=
  o.elim 0 fun p => p.mtpts.count c

variable [Fintype A] [Fintype H] [DecidableEq C]

structure Sound (s : State A C H) (names : Names C H) : Prop where
  path   : ∀ {h a}, s.hold h = some a → ∃ p n, s.path a = some p ∧ names h = some n ∧ n.Canonical ∧ p.Names n
  refs   : ∀ {a p}, s.path a = some p → (p.ref : Int) = tally (holds a) s.hold ∧ 0 < p.ref
  ledger : ∀ c, (s.taken.count c : Int) = s.closed.count c + s.given.count c + tally (entries c) s.path

-- The paths that are shared are as they were, other than for the references to them.
def Kept (s t : State A C H) : Prop :=
  ∀ a p, s.path a = some p → 1 < p.ref → ∃ r, t.path a = some { p with ref := r }

variable {s t : State A C H} {m : Mem A C} {names : Names C H} {h h' : H} {a b new : A} {p q : Path C} {n n' : Name C}

omit [Fintype A] [DecidableEq H] [DecidableEq C] in
theorem holds_nonneg (a : A) (o : Option A) : 0 ≤ holds a o := by
  rw [holds]
  split <;> decide

omit [Fintype A] [Fintype H] [DecidableEq H] [DecidableEq C] in
theorem holds_self : holds a (some a) = 1 :=
  if_pos rfl

omit [Fintype A] [Fintype H] [DecidableEq H] [DecidableEq C] in
theorem holds_ne {o : Option A} (h : o ≠ some a) : holds a o = 0 :=
  if_neg h

namespace Sound

variable (hs : Sound s names)

include hs

omit [DecidableEq H] in
theorem free (hnew : s.path new = none) (h : H) : s.hold h ≠ some new := by
  intro hh
  obtain ⟨p, n, hp, -, -, -⟩ := hs.path hh
  rw [hnew] at hp
  cases hp

theorem sole (hh : s.hold h = some a) (hp : s.path a = some p) (href : p.ref = 1) (hh' : s.hold h' = some a) : h' = h := by
  refine not_not.mp fun hne => ?_
  have htally := (hs.refs hp).left
  have hrest := tally_update (holds a) s.hold h none
  have hle := le_tally (holds_nonneg a) (Function.update s.hold h none) h'
  rw [Function.update_of_ne hne, hh', holds_self] at hle
  rw [hh, holds_self, holds_ne (Option.some_ne_none a).symm, ← htally, href] at hrest
  omega

theorem edit (hh : s.hold h = some a) (hp : s.path a = some p) (href : p.ref = 1) (hq : q.ref = 1) (hn : q.Names n)
    (hcan : n.Canonical) {taken closed given : List C}
    (hsum : ∀ c, p.mtpts.count c + taken.count c = q.mtpts.count c + closed.count c + given.count c) :
    Sound
      { path   := Function.update s.path a (some q)
        taken  := s.taken ++ taken
        closed := s.closed ++ closed
        given  := s.given ++ given
        hold   := s.hold }
      (Function.update names h (some n)) := by
  constructor
  case path =>
    intro h' b hh'
    by_cases hb : b = a
    case pos =>
      subst hb
      rw [hs.sole hh hp href hh']
      exact ⟨q, n, Function.update_self .., Function.update_self .., hcan, hn⟩
    case neg =>
      have hne : h' ≠ h := by
        rintro rfl
        exact hb (Option.some.inj (hh'.symm.trans hh))
      obtain ⟨p', n', hp', hn', hrest⟩ := hs.path hh'
      exact ⟨p', n', (Function.update_of_ne hb _ _).trans hp', (Function.update_of_ne hne _ _).trans hn', hrest⟩
  case refs =>
    intro b p' (hb : Function.update s.path a (some q) b = some p')
    by_cases he : b = a
    case pos =>
      subst he
      rw [Function.update_self] at hb
      cases hb
      have := (hs.refs hp).left
      rw [href] at this
      rw [hq]
      exact ⟨this, Nat.one_pos⟩
    case neg =>
      rw [Function.update_of_ne he] at hb
      exact hs.refs hb
  case ledger =>
    intro c
    have hold := hs.ledger c
    have hc := hsum c
    have hp' : entries c (s.path a) = p.mtpts.count c := by rw [hp]; rfl
    have hq' : entries c (some q) = q.mtpts.count c := rfl
    rw [List.count_append, List.count_append, List.count_append, tally_update, hp', hq']
    push_cast
    omega

theorem unique (hh : s.hold h = some a) (hnew : s.path new = none) :
    ∃ m' a' p n, s.toMem.uniquepath a new = some (m', a') ∧ Sound (s.become h (m', a')) names ∧ m'.path a' = some p ∧
      p.ref = 1 ∧ names h = some n ∧ p.Names n ∧ n.Canonical ∧
      ∀ b q, s.path b = some q → 1 < q.ref → b ≠ a' ∧ ∃ r, m'.path b = some { q with ref := r } := by
  obtain ⟨p, n, hp, hn, hcan, hnames⟩ := hs.path hh
  have ⟨href, hpos⟩ := hs.refs hp
  by_cases hshared : 1 < p.ref
  case neg =>
    have hone : p.ref = 1 := by omega
    refine ⟨s.toMem, a, p, n, ?_, ?_, hp, hone, hn, hnames, hcan, ?_⟩
    · rw [Mem.uniquepath, hp, Option.bind_eq_bind, Option.bind_some, if_neg hshared]
    · rw [State.become, ← hh, Function.update_eq_self]
      exact hs
    · intro b q hb hq
      refine ⟨?_, q.ref, hb⟩
      rintro rfl
      rw [hp] at hb
      cases hb
      exact hshared hq
  case pos =>
    obtain ⟨pp, hcopy, hppref, hppnames, hmtpts⟩ := copypath_names hnames
    have hne : a ≠ new := by
      rintro rfl
      rw [hnew] at hp
      cases hp
    have hpa : Function.update s.path new (some pp) a = some p := (Function.update_of_ne hne _ _).trans hp
    have hmore : p.ref - 1 ≠ 0 := by omega
    let path := Function.update (Function.update s.path new (some pp)) a (some { p with ref := p.ref - 1 })
    have hcopied : s.toMem.uniquepath a new = some ({ s.toMem with path, taken := s.taken ++ pp.mtpts }, new) := by
      simp only [Mem.uniquepath, Mem.pathclose, Mem.set, hp, hcopy, hpa, Option.bind_eq_bind, Option.bind_some,
        if_pos hshared, if_pos hmore]
      rfl
    have hnewpath : path new = some pp :=
      (Function.update_of_ne (Ne.symm hne) _ _).trans (Function.update_self ..)
    have hother {b : A} (hb : b ≠ new) (hba : b ≠ a) : path b = s.path b :=
      (Function.update_of_ne hba _ _).trans (Function.update_of_ne hb _ _)
    have hbecome : Sound (s.become h ({ s.toMem with path, taken := s.taken ++ pp.mtpts }, new)) names := by
      constructor
      case path =>
        intro h' b (hh' : Function.update s.hold h (some new) h' = some b)
        by_cases he : h' = h
        case pos =>
          subst he
          rw [Function.update_self] at hh'
          cases hh'
          exact ⟨pp, n, hnewpath, hn, hcan, hppnames⟩
        case neg =>
          rw [Function.update_of_ne he] at hh'
          obtain ⟨q, n', hq, hn', hcan', hnames'⟩ := hs.path hh'
          by_cases hba : b = a
          case pos =>
            subst hba
            rw [hp] at hq
            cases hq
            exact ⟨_, n', Function.update_self .., hn', hcan', hnames'.text, hnames'.points⟩
          case neg =>
            have hb : b ≠ new := by
              rintro rfl
              exact hs.free hnew h' hh'
            exact ⟨q, n', (hother hb hba).trans hq, hn', hcan', hnames'⟩
      case refs =>
        intro b q (hb : path b = some q)
        change (q.ref : Int) = tally (holds b) (Function.update s.hold h (some new)) ∧ _
        rw [tally_update, hh]
        by_cases hbn : b = new
        case pos =>
          subst hbn
          rw [hnewpath] at hb
          cases hb
          have hzero : tally (holds b) s.hold = 0 := tally_eq_zero fun h' => holds_ne (hs.free hnew h')
          rw [hzero, holds_self, holds_ne fun he => hne (Option.some.inj he), hppref]
          exact ⟨rfl, Nat.one_pos⟩
        case neg =>
          rw [holds_ne fun he => hbn (Option.some.inj he).symm]
          by_cases hba : b = a
          case pos =>
            subst hba
            have hq : path b = some { p with ref := p.ref - 1 } := Function.update_self ..
            rw [hq] at hb
            cases hb
            rw [holds_self, ← href]
            dsimp only
            omega
          case neg =>
            rw [hother hbn hba] at hb
            have hold := hs.refs hb
            rw [holds_ne fun he => hba (Option.some.inj he).symm]
            omega
      case ledger =>
        intro c
        have hold := hs.ledger c
        have hzero : entries c (s.path new) = 0 := by rw [hnew]; rfl
        have hpp : entries c (some pp) = p.mtpts.count c := by rw [← hmtpts]; rfl
        have hsame : entries c (some { p with ref := p.ref - 1 }) = p.mtpts.count c := rfl
        have hpath : entries c (Function.update s.path new (some pp) a) = p.mtpts.count c := by rw [hpa]; rfl
        change ((s.taken ++ pp.mtpts).count c : Int) = s.closed.count c + s.given.count c + tally (entries c) path
        rw [tally_update, tally_update, hzero, hpp, hsame, hpath, List.count_append, hmtpts]
        push_cast
        omega
    refine ⟨_, new, pp, n, hcopied, hbecome, hnewpath, hppref, hn, hppnames, hcan, fun b q hb hq => ?_⟩
    have hbn : b ≠ new := by
      rintro rfl
      rw [hnew] at hb
      cases hb
    by_cases hba : b = a
    case pos =>
      subst hba
      rw [hp] at hb
      cases hb
      exact ⟨hbn, _, Function.update_self ..⟩
    case neg => exact ⟨hbn, q.ref, (hother hbn hba).trans hb⟩

-- What there is after the path of a variable was changed, where it was or in the copy.
theorem change (hh : s.hold h = some a) (hnew : s.path new = none) :
    ∃ m' a' p n, s.toMem.uniquepath a new = some (m', a') ∧ m'.path a' = some p ∧ p.ref = 1 ∧ names h = some n ∧
      p.Names n ∧ n.Canonical ∧
      ∀ (q : Path C) (n' : Name C) (taken closed given : List C), q.ref = 1 → q.Names n' → n'.Canonical →
        (∀ c, p.mtpts.count c + taken.count c = q.mtpts.count c + closed.count c + given.count c) →
        let t : State A C H :=
          { path   := Function.update m'.path a' (some q)
            taken  := m'.taken ++ taken
            closed := m'.closed ++ closed
            given  := m'.given ++ given
            hold   := Function.update s.hold h (some a') }
        Sound t (Function.update names h (some n')) ∧ Kept s t := by
  obtain ⟨m', a', p, n, hunique, hs', hp, href, hn, hnames, hcan, hkept⟩ := hs.unique hh hnew
  refine ⟨m', a', p, n, hunique, hp, href, hn, hnames, hcan, fun q n' taken closed given hq hnames' hcan' hsum => ⟨?_, ?_⟩⟩
  · exact hs'.edit (Function.update_self ..) hp href hq hnames' hcan' hsum
  · intro b r hb hr
    have ⟨hne, k, hk⟩ := hkept b r hb hr
    exact ⟨k, (Function.update_of_ne hne _ _).trans hk⟩

theorem newpath {name : CStr} (hroot : Root name.bytes) (hh : s.hold h = none) (hnew : s.path new = none) :
    ∃ t, s.step (.newpath h new name) = some t ∧ Sound t (note (.newpath h new name) names) ∧ Kept s t := by
  obtain ⟨p, hp, href, hnames⟩ := newpath_names (C := C) name
  have hmtpts : p.mtpts = [] := mtpts_points hnames.points
  have hne (b : A) (q : Path C) (hb : s.path b = some q) : b ≠ new := by
    rintro rfl
    rw [hnew] at hb
    cases hb
  refine ⟨s.become h (s.toMem.set new p, new), ?_, ?_, ?_⟩
  · simp [State.step, hh, hnew, hp]
  · constructor
    case path =>
      intro h' b (hh' : Function.update s.hold h (some new) h' = some b)
      change ∃ p' n, Function.update s.path new (some p) b = some p' ∧
        Function.update names h (some ⟨name.bytes, none, []⟩) h' = some n ∧ _
      by_cases he : h' = h
      case pos =>
        subst he
        rw [Function.update_self] at hh'
        cases hh'
        exact ⟨p, _, Function.update_self .., Function.update_self .., ⟨hroot, name.nulfree, nofun⟩, hnames⟩
      case neg =>
        rw [Function.update_of_ne he] at hh'
        obtain ⟨q, n, hq, hn, hrest⟩ := hs.path hh'
        exact ⟨q, n, (Function.update_of_ne (hne b q hq) _ _).trans hq, (Function.update_of_ne he _ _).trans hn, hrest⟩
    case refs =>
      intro b q (hb : Function.update s.path new (some p) b = some q)
      change (q.ref : Int) = tally (holds b) (Function.update s.hold h (some new)) ∧ _
      rw [tally_update, hh, holds_ne (Option.some_ne_none b).symm]
      by_cases he : b = new
      case pos =>
        subst he
        rw [Function.update_self] at hb
        cases hb
        have hzero : tally (holds b) s.hold = 0 := tally_eq_zero fun h' => holds_ne (hs.free hnew h')
        rw [hzero, holds_self, href]
        exact ⟨rfl, Nat.one_pos⟩
      case neg =>
        rw [Function.update_of_ne he] at hb
        rw [holds_ne fun h' => he (Option.some.inj h').symm]
        have hold := hs.refs hb
        omega
    case ledger =>
      intro c
      have hzero : entries c (s.path new) = 0 := by rw [hnew]; rfl
      have hp' : entries c (some p) = 0 := by
        change ((p.mtpts.count c : Nat) : Int) = 0
        rw [hmtpts]
        rfl
      change (s.taken.count c : Int) = s.closed.count c + s.given.count c +
        tally (entries c) (Function.update s.path new (some p))
      rw [tally_update, hzero, hp', hs.ledger c]
      omega
  · intro b q hb _
    exact ⟨q.ref, (Function.update_of_ne (hne b q hb) _ _).trans hb⟩

theorem incref (hh : s.hold h = some a) (hh' : s.hold h' = none) :
    ∃ t, s.step (.incref h h') = some t ∧ Sound t (note (.incref h h' : Act A C H) names) ∧
      Kept s t := by
  obtain ⟨p, n, hp, hn, hcan, hnames⟩ := hs.path hh
  refine ⟨s.become h' (s.toMem.set a { p with ref := p.ref + 1 }, a), ?_, ?_, ?_⟩
  · simp [State.step, hh, hh', hp]
  · constructor
    case path =>
      intro k b (hk : Function.update s.hold h' (some a) k = some b)
      change ∃ p' n, Function.update s.path a (some { p with ref := p.ref + 1 }) b = some p' ∧
        Function.update names h' (names h) k = some n ∧ _
      have hpath {q : Path C} (hq : s.path b = some q) :
          ∃ r, Function.update s.path a (some { p with ref := p.ref + 1 }) b = some { q with ref := r } := by
        by_cases he : b = a
        case pos =>
          subst he
          rw [hp] at hq
          cases hq
          exact ⟨_, Function.update_self ..⟩
        case neg => exact ⟨q.ref, (Function.update_of_ne he _ _).trans hq⟩
      by_cases he : k = h'
      case pos =>
        subst he
        rw [Function.update_self] at hk
        cases hk
        have ⟨r, hr⟩ := hpath hp
        exact ⟨_, n, hr, (Function.update_self ..).trans hn, hcan, hnames.text, hnames.points⟩
      case neg =>
        rw [Function.update_of_ne he] at hk
        obtain ⟨q, n', hq, hn', hcan', hnames'⟩ := hs.path hk
        have ⟨r, hr⟩ := hpath hq
        exact ⟨_, n', hr, (Function.update_of_ne he _ _).trans hn', hcan', hnames'.text, hnames'.points⟩
    case refs =>
      intro b q (hb : Function.update s.path a (some { p with ref := p.ref + 1 }) b = some q)
      change (q.ref : Int) = tally (holds b) (Function.update s.hold h' (some a)) ∧ _
      rw [tally_update, hh', holds_ne (Option.some_ne_none b).symm]
      by_cases he : b = a
      case pos =>
        subst he
        rw [Function.update_self] at hb
        cases hb
        rw [← (hs.refs hp).left, holds_self]
        dsimp only
        omega
      case neg =>
        rw [Function.update_of_ne he] at hb
        rw [holds_ne fun h' => he (Option.some.inj h').symm]
        have hold := hs.refs hb
        omega
    case ledger =>
      intro c
      have hsame : entries c (some { p with ref := p.ref + 1 }) = entries c (s.path a) := by rw [hp]; rfl
      change (s.taken.count c : Int) = s.closed.count c + s.given.count c +
        tally (entries c) (Function.update s.path a (some { p with ref := p.ref + 1 }))
      rw [tally_update, hsame, hs.ledger c]
      omega
  · intro b q hb _
    by_cases he : b = a
    case pos =>
      subst he
      rw [hp] at hb
      cases hb
      exact ⟨_, Function.update_self ..⟩
    case neg => exact ⟨q.ref, (Function.update_of_ne he _ _).trans hb⟩

theorem pathclose (hh : s.hold h = some a) :
    ∃ t, s.step (.pathclose h) = some t ∧ Sound t (note (.pathclose h : Act A C H) names) ∧ Kept s t := by
  obtain ⟨p, n, hp, hn, hcan, hnames⟩ := hs.path hh
  have ⟨href, hpos⟩ := hs.refs hp
  have hrefs (b : A) : tally (holds b) (Function.update s.hold h none) = tally (holds b) s.hold - holds b (some a) := by
    rw [tally_update, hh, holds_ne (Option.some_ne_none b).symm]
    omega
  by_cases hlast : p.ref - 1 ≠ 0
  case pos =>
    refine ⟨{ s.toMem.set a { p with ref := p.ref - 1 } with hold := Function.update s.hold h none }, ?_, ?_, ?_⟩
    · simp [State.step, Mem.pathclose, hh, hp, hlast]
    · constructor
      case path =>
        intro k b (hk : Function.update s.hold h none k = some b)
        change ∃ p' n, Function.update s.path a (some { p with ref := p.ref - 1 }) b = some p' ∧
          Function.update names h none k = some n ∧ _
        by_cases he : k = h
        case pos =>
          subst he
          rw [Function.update_self] at hk
          cases hk
        case neg =>
          rw [Function.update_of_ne he] at hk
          obtain ⟨q, n', hq, hn', hcan', hnames'⟩ := hs.path hk
          rw [Function.update_of_ne he]
          by_cases hb : b = a
          case pos =>
            subst hb
            rw [hp] at hq
            cases hq
            exact ⟨_, n', Function.update_self .., hn', hcan', hnames'.text, hnames'.points⟩
          case neg => exact ⟨q, n', (Function.update_of_ne hb _ _).trans hq, hn', hcan', hnames'⟩
      case refs =>
        intro b q (hb : Function.update s.path a (some { p with ref := p.ref - 1 }) b = some q)
        change (q.ref : Int) = tally (holds b) (Function.update s.hold h none) ∧ _
        rw [hrefs]
        by_cases he : b = a
        case pos =>
          subst he
          rw [Function.update_self] at hb
          cases hb
          rw [← href, holds_self]
          dsimp only
          omega
        case neg =>
          rw [Function.update_of_ne he] at hb
          rw [holds_ne fun h' => he (Option.some.inj h').symm]
          have hold := hs.refs hb
          omega
      case ledger =>
        intro c
        have hsame : entries c (some { p with ref := p.ref - 1 }) = entries c (s.path a) := by rw [hp]; rfl
        change (s.taken.count c : Int) = s.closed.count c + s.given.count c +
          tally (entries c) (Function.update s.path a (some { p with ref := p.ref - 1 }))
        rw [tally_update, hsame, hs.ledger c]
        omega
    · intro b q hb _
      by_cases he : b = a
      case pos =>
        subst he
        rw [hp] at hb
        cases hb
        exact ⟨_, Function.update_self ..⟩
      case neg => exact ⟨q.ref, (Function.update_of_ne he _ _).trans hb⟩
  case neg =>
    have hone : p.ref = 1 := by omega
    refine ⟨⟨{ s.toMem with path := Function.update s.path a none, closed := s.closed ++ p.mtpts },
      Function.update s.hold h none⟩, ?_, ?_, ?_⟩
    · simp [State.step, Mem.pathclose, hh, hp, hone]
    · constructor
      case path =>
        intro k b (hk : Function.update s.hold h none k = some b)
        change ∃ p' n, Function.update s.path a none b = some p' ∧ Function.update names h none k = some n ∧ _
        have hne : k ≠ h := by
          rintro rfl
          rw [Function.update_self] at hk
          cases hk
        rw [Function.update_of_ne hne] at hk
        have hb : b ≠ a := by
          rintro rfl
          exact hne (hs.sole hh hp hone hk)
        obtain ⟨q, n', hq, hn', hrest⟩ := hs.path hk
        exact ⟨q, n', (Function.update_of_ne hb _ _).trans hq, (Function.update_of_ne hne _ _).trans hn', hrest⟩
      case refs =>
        intro b q (hb : Function.update s.path a none b = some q)
        change (q.ref : Int) = tally (holds b) (Function.update s.hold h none) ∧ _
        have he : b ≠ a := by
          rintro rfl
          rw [Function.update_self] at hb
          cases hb
        rw [Function.update_of_ne he] at hb
        rw [hrefs, holds_ne fun h' => he (Option.some.inj h').symm]
        have hold := hs.refs hb
        omega
      case ledger =>
        intro c
        have hzero : entries c (none : Option (Path C)) = 0 := rfl
        have hp' : entries c (s.path a) = p.mtpts.count c := by rw [hp]; rfl
        have hold := hs.ledger c
        change (s.taken.count c : Int) = ((s.closed ++ p.mtpts).count c : Nat) + s.given.count c +
          tally (entries c) (Function.update s.path a none)
        rw [tally_update, hzero, hp', List.count_append]
        push_cast
        omega
    · intro b q hb hq
      have he : b ≠ a := by
        rintro rfl
        rw [hp] at hb
        cases hb
        omega
      exact ⟨q.ref, (Function.update_of_ne he _ _).trans hb⟩

theorem addelem {e : CStr} {c : Option C} (he : Elem e.bytes) (hne : e.bytes ≠ []) (hh : s.hold h = some a)
    (hnew : s.path new = none) :
    ∃ t, s.step (.addelem h new e c) = some t ∧ Sound t (note (.addelem h new e c) names) ∧ Kept s t := by
  by_cases hself : e.bytes = [dot]
  case pos =>
    obtain ⟨p, n, hp, hn, hcan, hnames⟩ := hs.path hh
    refine ⟨s, ?_, ?_, fun b q hb _ => ⟨q.ref, hb⟩⟩
    · have hsame : s.become h (s.toMem, a) = s := by
        rw [State.become, ← hh, Function.update_eq_self]
      simp [State.step, Mem.addelem, hh, hnew, hself, hsame]
    · have hnote : note (.addelem h new e c) names = names := by
        rw [note, hn, Option.map_some, Name.add, if_pos hself, ← hn, Function.update_eq_self]
      rw [hnote]
      exact hs
  case neg =>
    obtain ⟨m, a', p, n, hunique, hp, href, hn, hnames, hcan, hchange⟩ := hs.change hh hnew
    have hmtpts := mtpts_points hnames.points
    by_cases hdots : e.bytes = [dot, dot]
    case pos =>
      obtain rfl : e = State.dotdot := by
        cases e
        cases hdots
        rfl
      obtain ⟨q, r, x, hq, hr, hrref, hrnames, hsum⟩ := hnames.up hcan
      obtain ⟨q', hq', hfix⟩ := Option.bind_eq_some_iff.mp hq
      have hcount : ∀ c, p.mtpts.count c + [].count c = r.mtpts.count c + x.toList.count c + [].count c := by
        intro c
        rw [hmtpts, mtpts_points hrnames.points, hsum, List.count_append]
      have hup : isdotdot State.dotdot := rfl
      have ⟨hsound, hkept⟩ := hchange r n.up [] x.toList [] (hrref.trans href) hrnames hcan.up hcount
      rw [List.append_nil, List.append_nil] at hsound hkept
      refine ⟨_, ?_, ?_, hkept⟩
      · simp [State.step, Mem.addelem, hh, hnew, hself, hunique, hp, hq', hfix, hr, hup]
        rfl
      · rw [note, hn, Option.map_some, Name.add, if_neg hself, if_pos hdots]
        exact hsound
    case neg =>
      obtain ⟨q, r, hq, hr, hrref, hrnames, hsum⟩ := hnames.push hcan he c
      have hplain : Plain slash dot e.bytes := ⟨hne, he.slash, hself, hdots⟩
      have hcount : ∀ x, p.mtpts.count x + c.toList.count x = r.mtpts.count x + [].count x + [].count x := by
        intro x
        rw [hmtpts, mtpts_points hrnames.points, hsum, List.count_append]
        rfl
      have ⟨hsound, hkept⟩ := hchange r _ c.toList [] [] (hrref.trans href) hrnames (hcan.push hplain he.nul c) hcount
      rw [List.append_nil, List.append_nil] at hsound hkept
      refine ⟨_, ?_, ?_, hkept⟩
      · simp [State.step, Mem.addelem, hh, hnew, hself, hunique, hp, hq, hr, isdotdot, hdots]
        rfl
      · rw [note, hn, Option.map_some, Name.add, if_neg hself, if_neg hdots]
        exact hsound

theorem domount {mfrom : C} (hh : s.hold h = some a) (hnew : s.path new = none) :
    ∃ t, s.step (.domount h new mfrom) = some t ∧ Sound t (note (.domount h new mfrom) names) ∧ Kept s t := by
  obtain ⟨m, a', p, n, hunique, hp, href, hn, hnames, hcan, hchange⟩ := hs.change hh hnew
  obtain ⟨x, hx, hcross, hsum, hsum'⟩ := hnames.cross (some mfrom)
  have hmlen : p.mlen ≠ 0 := by
    rw [hnames.points.mlen]
    exact Nat.succ_ne_zero _
  have hcount : ∀ c, p.mtpts.count c + [mfrom].count c =
      (Path.mtpts { p with mtpt := p.mtpt.set (p.mlen - 1) (some mfrom) }).count c + x.toList.count c + [].count c := by
    intro c
    rw [mtpts_points hnames.points, mtpts_points hcross.points, hsum, hsum', List.count_append, List.count_append]
    change _ = (n.points.dropLast.filterMap id).count c + [mfrom].count c + x.toList.count c + 0
    omega
  have ⟨hsound, hkept⟩ := hchange { p with mtpt := p.mtpt.set (p.mlen - 1) (some mfrom) } _ [mfrom] x.toList [] href hcross (hcan.cross _) hcount
  rw [List.append_nil] at hsound hkept
  refine ⟨_, ?_, ?_, hkept⟩
  · simp [State.step, Mem.domount, hh, hnew, hunique, hp, hmlen, hx]
    rfl
  · rw [note, hn, Option.map_some]
    exact hsound

theorem updir (hh : s.hold h = some a) (hnew : s.path new = none) :
    ∃ t, s.step (.updir h new) = some t ∧ Sound t (note (.updir h new : Act A C H) names) ∧ Kept s t := by
  obtain ⟨m, a', p, n, hunique, hp, href, hn, hnames, hcan, hchange⟩ := hs.change hh hnew
  obtain ⟨q, r, x, hq, hr, hrref, hrnames, hsum⟩ := hnames.up hcan
  obtain ⟨q', hq', hfix⟩ := Option.bind_eq_some_iff.mp hq
  obtain ⟨y, hy, hcross, hysum, hysum'⟩ := hrnames.cross none
  have hmlen : r.mlen ≠ 0 := by
    rw [hrnames.points.mlen]
    exact Nat.succ_ne_zero _
  have hself : State.dotdot.bytes ≠ [dot] := by decide
  have hdots : isdotdot State.dotdot := rfl
  have hcount : ∀ c, p.mtpts.count c + [].count c =
      (Path.mtpts { r with mtpt := r.mtpt.set (r.mlen - 1) none }).count c + x.toList.count c + y.toList.count c := by
    intro c
    rw [mtpts_points hnames.points, mtpts_points hcross.points, hsum, hysum, hysum', List.count_append, List.count_append,
      List.count_append]
    change _ + 0 = (n.up.points.dropLast.filterMap id).count c + 0 + x.toList.count c + y.toList.count c
    omega
  have ⟨hsound, hkept⟩ := hchange { r with mtpt := r.mtpt.set (r.mlen - 1) none } _ [] x.toList y.toList
    (hrref.trans href) hcross (hcan.up.cross none) hcount
  rw [List.append_nil] at hsound hkept
  refine ⟨_, ?_, ?_, hkept⟩
  · cases y
    case none =>
      have hnil : r.mtpt.set (r.mlen - 1) none = r.mtpt := by
        obtain ⟨hlt, hy⟩ := List.getElem?_eq_some_iff.mp hy
        rw [← hy, List.set_getElem_self]
      simp [State.step, Mem.addelem, Mem.undomount, Mem.set, hh, hnew, hself, hdots, hunique, hp, hq', hfix, hr, hmlen, hy,
        State.become, hnil]
    case some c =>
      simp [State.step, Mem.addelem, Mem.undomount, Mem.set, hh, hnew, hself, hdots, hunique, hp, hq', hfix, hr, hmlen, hy,
        State.become]
  · rw [note, hn, Option.map_some]
    exact hsound

end Sound

omit [Fintype A] [Fintype H] [DecidableEq C] in
theorem ready_of_step {x : Act A C H} (h : s.step x = some t) : s.Ready x := by
  cases x
  all_goals
    simp only [State.step, guard, Option.bind_eq_bind, Option.bind_eq_some_iff, Option.failure_eq_none,
      Option.isNone_iff_eq_none] at h
  case newpath =>
    obtain ⟨_, hg, -⟩ := h
    exact (Option.ite_none_right_eq_some.mp hg).left
  case incref =>
    obtain ⟨_, hg, a, ha, -⟩ := h
    exact ⟨(Option.ite_none_right_eq_some.mp hg).left, ha ▸ Option.some_ne_none a⟩
  case pathclose =>
    obtain ⟨a, ha, -⟩ := h
    rw [State.Ready, ha]
    exact Option.some_ne_none a
  case addelem =>
    obtain ⟨_, hg, a, ha, -⟩ := h
    exact ⟨(Option.ite_none_right_eq_some.mp hg).left, ha ▸ Option.some_ne_none a⟩
  case domount =>
    obtain ⟨_, hg, a, ha, -⟩ := h
    exact ⟨(Option.ite_none_right_eq_some.mp hg).left, ha ▸ Option.some_ne_none a⟩
  case updir =>
    obtain ⟨_, hg, a, ha, -⟩ := h
    exact ⟨(Option.ite_none_right_eq_some.mp hg).left, ha ▸ Option.some_ne_none a⟩

theorem Sound.step {x : Act A C H} (hs : Sound s names) (hx : Given Root Nonempty x) (hr : s.Ready x) :
    ∃ t, s.step x = some t ∧ Sound t (note x names) ∧ Kept s t := by
  cases x
  case newpath => exact hs.newpath hx hr.left hr.right
  case incref =>
    obtain ⟨a, ha⟩ := Option.ne_none_iff_exists'.mp hr.right
    exact hs.incref ha hr.left
  case pathclose =>
    obtain ⟨a, ha⟩ := Option.ne_none_iff_exists'.mp hr
    exact hs.pathclose ha
  case addelem e c =>
    obtain ⟨a, ha⟩ := Option.ne_none_iff_exists'.mp hr.right
    exact hs.addelem ⟨hx.left, e.nulfree⟩ hx.right ha hr.left
  case domount =>
    obtain ⟨a, ha⟩ := Option.ne_none_iff_exists'.mp hr.right
    exact hs.domount ha hr.left
  case updir =>
    obtain ⟨a, ha⟩ := Option.ne_none_iff_exists'.mp hr.right
    exact hs.updir ha hr.left

-- The bookkeeping of paths is right: each string, its length and the mount points are those of the name, the references
-- to channels add up, no step fails, and none changes a path that is shared.
structure Book (allowed : Act A C H → Prop) (s : State A C H) (names : Names C H) : Prop where
  path   : ∀ h a, s.hold h = some a → ∃ p n, s.path a = some p ∧ names h = some n ∧ n.Canonical ∧
    str p.s = n.bytes ∧ p.len = n.bytes.length ∧ p.mlen = n.elems.length + 1 ∧ p.mtpt.take p.mlen = n.points
  ledger : ∀ c, (s.taken.count c : Int) = s.closed.count c + s.given.count c + tally (entries c) s.path
  step   : ∀ x, allowed x → s.Ready x → ∃ t, s.step x = some t ∧ Kept s t

def named (A C H : Type) [DecidableEq A] [DecidableEq H] : Machine (State A C H × Names C H) (Act A C H) :=
  (chan A C H).track (Names C H) (fun _ _ => none) fun _ => note

def Bookkept (A C H : Type) [Fintype A] [DecidableEq A] [Fintype H] [DecidableEq H] [DecidableEq C]
    (allowed : Act A C H → Prop) : Prop :=
  ∀ x, (named A C H).Reachable (fun _ => allowed) x → Book allowed x.fst x.snd

theorem invariant_sound : (named A C H).Invariant (fun _ => Given Root Nonempty) fun x => Sound x.fst x.snd := by
  constructor
  case init =>
    intro x ⟨⟨hpath, hhold, htaken, hclosed, hgiven⟩, _⟩
    constructor
    case path => exact fun {h a} hh => by rw [hhold] at hh; cases hh
    case refs => exact fun {a p} hp => by rw [hpath] at hp; cases hp
    case ledger =>
      intro c
      have hzero : tally (entries c) x.fst.path = 0 := tally_eq_zero fun a => by rw [hpath]; rfl
      rw [hzero, htaken, hclosed, hgiven]
      rfl
  case step =>
    intro x a y hs hallowed hstep
    obtain ⟨hstep, hnames⟩ := Machine.track_step_eq.mp hstep
    obtain ⟨t, ht, hsound, -⟩ := hs.step hallowed (ready_of_step hstep)
    cases hstep.symm.trans ht
    exact hnames ▸ hsound

-- In every run that begins names with a root and adds elements that are not empty.
theorem paths_bookkept : Bookkept A C H (Given Root Nonempty) := by
  intro x hr
  have hs := invariant_sound.holds hr
  constructor
  case path =>
    intro h a hh
    obtain ⟨p, n, hp, hn, hcan, hnames⟩ := hs.path hh
    refine ⟨p, n, hp, hn, hcan, hnames.text.str, hnames.text.len, ?_, ?_⟩
    · rw [hnames.points.mlen, Name.points, List.length_cons, List.length_map]
    · rw [hnames.points.mlen, ← List.prefix_iff_eq_take.mp hnames.points.holds]
  case ledger => exact hs.ledger
  case step =>
    intro a hallowed hready
    obtain ⟨t, ht, -, hkept⟩ := hs.step hallowed hready
    exact ⟨t, ht, hkept⟩

instance : DecidablePred Device :=
  fun _ => inferInstanceAs (Decidable (_ ∨ _))

instance : DecidablePred Nonempty :=
  fun _ => inferInstanceAs (Decidable (¬_))

instance : DecidablePred Any :=
  fun _ => inferInstanceAs (Decidable True)

instance {root elem : List UInt8 → Prop} [DecidablePred root] [DecidablePred elem] :
    DecidablePred (Given root elem : Act A C H → Prop)
  | .newpath .. => inferInstanceAs (Decidable (root _))
  | .addelem .. => inferInstanceAs (Decidable (_ ∧ _))
  | .incref .. | .pathclose _ | .domount .. | .updir .. => inferInstanceAs (Decidable True)

-- The name of the root device with a file in it.
def boot : CStr :=
  ⟨[hash, slash, 'b'.toUInt8], by decide⟩

def rootname : CStr :=
  ⟨[slash], by decide⟩

def nothing : CStr :=
  ⟨[], Libc.nulfree_nil⟩

def blank : State Bool Unit Unit where
  path _ := none
  taken  := []
  closed := []
  given  := []
  hold _ := none

theorem blank_init : (named Bool Unit Unit).init (blank, fun _ => none) :=
  ⟨⟨fun _ => rfl, fun _ => rfl, rfl, rfl, rfl⟩, rfl⟩

theorem not_bookkept_boot {elem : List UInt8 → Prop} [DecidablePred elem]
    (h : (((named Bool Unit Unit).guarded fun _ => Given Device elem).exec (blank, fun _ => none)
      [.newpath () false boot, .addelem () true State.dotdot none]).any (fun x =>
        x.fst.hold () = some false ∧ x.snd () = some ⟨boot.bytes, none, []⟩ ∧
          (x.fst.path false).any (str ·.s = [hash, slash])) = true) : ¬Bookkept Bool Unit Unit (Given Device elem) := by
  intro hall
  obtain ⟨x, hr, hx⟩ := Machine.exists_reachable blank_init h
  obtain ⟨hhold, hname, hstr⟩ := of_decide_eq_true hx
  obtain ⟨p, n, hp, hn, -, hbytes, -⟩ := (hall x hr).path () false hhold
  cases hname.symm.trans hn
  rw [hp, Option.any_some, decide_eq_true_iff, hbytes] at hstr
  exact absurd hstr (by decide)

theorem not_bookkept_nothing : ¬Bookkept Bool Unit Unit (Given Root Any) := by
  intro hall
  have h : (((named Bool Unit Unit).guarded fun _ => Given Root Any).exec (blank, fun _ => none)
      [.newpath () false rootname, .addelem () true nothing none]).any (fun x =>
        x.fst.hold () = some false ∧ x.snd () = some ⟨rootname.bytes, none, [([], none)]⟩) = true := by decide +kernel
  obtain ⟨x, hr, hx⟩ := Machine.exists_reachable blank_init h
  obtain ⟨hhold, hname⟩ := of_decide_eq_true hx
  obtain ⟨p, n, -, hn, hcan, -⟩ := (hall x hr).path () false hhold
  cases hname.symm.trans hn
  exact (hcan.plain _ (List.mem_singleton_self _)).left.nonempty rfl

-- So it is not enough that the elements have no slash, also where either is excluded.
theorem not_bookkept : ¬Bookkept Bool Unit Unit (Given Device Any) ∧ ¬Bookkept Bool Unit Unit (Given Device Nonempty) ∧
    ¬Bookkept Bool Unit Unit (Given Root Any) :=
  ⟨not_bookkept_boot (by decide +kernel), not_bookkept_boot (by decide +kernel), not_bookkept_nothing⟩

end Port.Chan
