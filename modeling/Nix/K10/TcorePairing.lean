import Nix.Lib.Parties
import Nix.K10.Tcore

namespace K10.Tcore

variable {P C : Type} [DecidableEq P] [DecidableEq C] {s s' : State P C} {p q r t : P} {mp : C} {k : For P} {pc : Pc P C}

-- Where `nixaclock` is held.
def Pc.Locked : Pc P C → Prop
  | .scan _ | .found .. | .unlock .. | .stopac .. | .stopproc .. | .stopunlock _ => True
  | _                                                                            => False

-- A new process that this is about.
def Pc.Refers (q : P) : Pc P C → Prop
  | .getac k | .scan k | .found k _ | .unlock k _ | .assign k _ => k = .child q
  | .forked q'                                                  => q' = q
  | _                                                           => False

-- Where `p` does what makes `t` and the core agree again.
def Pc.Holds (p t : P) (mp : C) : Pc P C → Prop
  | .unlock k (some mp') | .assign k mp' => k.target p = t ∧ mp' = mp
  | .stopproc _ mp'                      => p = t ∧ mp' = mp
  | _                                    => False

-- A core can be assigned to the one `getac` is called for.
structure State.Free (s : State P C) (p : P) (k : For P) : Prop where
  child : ∀ q, k = .child q → (s.proc q).pc = .embryo p
  ac    : (s.proc (k.target p)).ac = none

def State.At (s : State P C) (p : P) : Pc P C → Prop
  | .dead | .lost | .stopunlock _        => (s.proc p).ac = none
  | .getac k | .scan k                   => ∀ q, k = .child q → (s.proc q).pc = .embryo p
  | .found k mp                          => s.Free p k ∧ (s.mach mp).proc = none
  | .unlock k none                       => ∀ q, k = .child q → (s.proc q).pc = .embryo p
  | .unlock k (some mp) | .assign k mp   => s.Free p k ∧ (s.mach mp).proc = some (k.target p)
  | .forked q                            => (s.proc q).pc = .embryo p
  | .failing flags                       => flags ≠ EXAC → (s.proc p).ac = none
  | .clearac                             => ∀ mp, (s.mach mp).proc ≠ some p
  | .stoplock _ mp | .stopac _ mp        => (s.proc p).ac = some mp
  | .stopproc _ mp                       => (s.mach mp).proc = some p ∧ (s.proc p).ac = none
  | .store _ mp | .sched _ mp            => (s.proc p).ac = some mp
  | _                                    => True

structure Paired (s : State P C) : Prop where
  lock : ∀ p, s.lock = some p ↔ (s.proc p).pc.Locked
  own  : ∀ p mp, (s.proc p).ac = some mp → (s.proc p).pc ≠ .clearac → (s.mach mp).proc = some p
  busy : ∀ p mp, (s.mach mp).proc = some p → (s.proc p).ac = some mp ∨ ∃ r, (s.proc r).pc.Holds r p mp
  lies : ∀ p, s.At p (s.proc p).pc

omit [DecidableEq P] [DecidableEq C] in
theorem State.At.child (h : s.At p pc) (hr : pc.Refers q) : (s.proc q).pc = .embryo p := by
  cases pc
  case getac | scan => exact h q hr
  case found | assign => exact h.left.child q hr
  case forked => exact hr ▸ h
  case unlock k mp =>
    cases mp
    case none => exact h q hr
    case some => exact h.left.child q hr
  all_goals exact hr.elim

omit [DecidableEq P] [DecidableEq C] in
theorem Paired.not_refers (h : Paired s) (hq : ∀ p, (s.proc q).pc ≠ .embryo p) (r : P) : ¬ (s.proc r).pc.Refers q :=
  fun hr => hq r <| (h.lies r).child hr

omit [DecidableEq P] [DecidableEq C] in
-- Who makes a core agree with a process has it assigned, and the process has none.
theorem State.At.holds (h : s.At p pc) (hh : pc.Holds p t mp) :
    (s.mach mp).proc = some t ∧ (s.proc t).ac = none ∧ (t = p ∨ (s.proc t).pc = .embryo p) := by
  have hfree {k : For P} (h : s.Free p k) : (k.target p) = p ∨ (s.proc (k.target p)).pc = .embryo p := by
    cases k
    case child q => exact .inr <| h.child q rfl
    case self | execac => exact .inl rfl
  cases pc
  case assign k mp' =>
    obtain ⟨rfl, rfl⟩ := hh
    exact ⟨h.right, h.left.ac, hfree h.left⟩
  case stopproc k mp' =>
    obtain ⟨rfl, rfl⟩ := hh
    exact ⟨h.left, h.right, .inl rfl⟩
  case unlock k mp' =>
    cases mp'
    case none => exact hh.elim
    case some mp' =>
      obtain ⟨rfl, rfl⟩ := hh
      exact ⟨h.right, h.left.ac, hfree h.left⟩
  all_goals exact hh.elim

-- What of the cores a place depends on.
def Pc.Minds (p : P) (mp : C) (v : Option P) : Pc P C → Prop
  | .found _ mp'                         => mp' = mp
  | .unlock _ (some mp') | .assign _ mp' => mp' = mp
  | .clearac                             => v = some p
  | .stopproc _ mp'                      => mp' = mp
  | _                                    => False

omit [DecidableEq P] [DecidableEq C] in
theorem State.At.congr (h : s.At p pc) (hac : (s'.proc p).ac = (s.proc p).ac)
    (hchild : ∀ q, pc.Refers q → (s'.proc q).pc = (s.proc q).pc ∧ (s'.proc q).ac = (s.proc q).ac)
    (hm : ∀ mp, (s'.mach mp).proc = (s.mach mp).proc ∨ ¬ pc.Minds p mp (s'.mach mp).proc) : s'.At p pc := by
  have hfree {k : For P} (hk : ∀ q, k = .child q → (s'.proc q).pc = (s.proc q).pc ∧ (s'.proc q).ac = (s.proc q).ac)
      (hf : s.Free p k) : s'.Free p k := by
    refine ⟨fun q hq => (hk q hq).left.trans <| hf.child q hq, ?_⟩
    cases k
    case child q => exact (hk q rfl).right.trans hf.ac
    case self | execac => exact hac.trans hf.ac
  have hmach {mp : C} (hp : pc.Minds p mp (s'.mach mp).proc) : (s'.mach mp).proc = (s.mach mp).proc :=
    (hm mp).resolve_right fun hn => hn hp
  cases pc
  case dead | lost | stopunlock => exact hac.trans h
  case getac | scan => exact fun q hq => (hchild q hq).left.trans <| h q hq
  case found => exact ⟨hfree hchild h.left, (hmach rfl).trans h.right⟩
  case unlock k mp =>
    cases mp
    case none => exact fun q hq => (hchild q hq).left.trans <| h q hq
    case some => exact ⟨hfree hchild h.left, (hmach rfl).trans h.right⟩
  case assign => exact ⟨hfree hchild h.left, (hmach rfl).trans h.right⟩
  case forked q => exact (hchild q rfl).left.trans h
  case failing => exact fun hf => hac.trans <| h hf
  case clearac =>
    intro mp hp
    exact h mp <| (hmach hp).symm.trans hp
  case stoplock | stopac | store | sched => exact hac.trans h
  case stopproc => exact ⟨(hmach rfl).trans h.left, hac.trans h.right⟩
  all_goals trivial

omit [DecidableEq P] [DecidableEq C] in
theorem Paired.congr (h : Paired s) (hlock : s'.lock = s.lock) (hpc : ∀ p, (s'.proc p).pc = (s.proc p).pc)
    (hac : ∀ p, (s'.proc p).ac = (s.proc p).ac) (hm : ∀ mp, (s'.mach mp).proc = (s.mach mp).proc) : Paired s' where
  lock p         := by rw [hlock, hpc, h.lock]
  own p mp hp hc := by
    rw [hac] at hp
    rw [hpc] at hc
    exact (hm mp).trans <| h.own p mp hp hc
  busy p mp hp   := by
    rw [hac]
    rw [hm] at hp
    exact (h.busy p mp hp).imp_right fun ⟨r, hr⟩ => ⟨r, (hpc r).symm ▸ hr⟩
  lies p         := by
    rw [hpc]
    exact (h.lies p).congr (hac p) (fun q _ => ⟨hpc q, hac q⟩) fun mp => .inl <| hm mp

omit [DecidableEq P] [DecidableEq C] in
theorem Paired.move (h : Paired s) (p : P) (hpc : ∀ r, r ≠ p → (s'.proc r).pc = (s.proc r).pc)
    (hac : ∀ r, (s'.proc r).ac = (s.proc r).ac) (hm : ∀ mp, (s'.mach mp).proc = (s.mach mp).proc)
    (hlock : Passes s.lock s'.lock p (s.proc p).pc.Locked (s'.proc p).pc.Locked)
    (hrefers : ∀ r, r ≠ p → ¬ (s.proc r).pc.Refers p) (hclear : (s.proc p).pc ≠ .clearac)
    (hholds : ∀ t mp, (s.proc p).pc.Holds p t mp → (s'.proc p).pc.Holds p t mp)
    (hat : s'.At p (s'.proc p).pc) : Paired s' where
  lock         := hlock.owner (fun r => (s'.proc r).pc.Locked) h.lock fun r hr => by rw [hpc r hr]
  own r mp hr hc := by
    rw [hac] at hr
    refine (hm mp).trans <| h.own r mp hr ?_
    by_cases hrp : r = p
    · exact hrp ▸ hclear
    · exact hpc r hrp ▸ hc
  busy t mp ht := by
    rw [hac]
    rw [hm] at ht
    refine (h.busy t mp ht).imp_right fun ⟨r, hr⟩ => ⟨r, ?_⟩
    by_cases hrp : r = p
    · subst hrp
      exact hholds t mp hr
    · exact (hpc r hrp).symm ▸ hr
  lies r       := by
    by_cases hrp : r = p
    · subst hrp
      exact hat
    · rw [hpc r hrp]
      refine (h.lies r).congr (hac r) (fun q hq => ⟨hpc q ?_, hac q⟩) fun mp => .inl <| hm mp
      rintro rfl
      exact hrefers r hrp hq

omit [DecidableEq P] [DecidableEq C] in
theorem Paired.claim (h : Paired s) (hp : (s.proc p).pc = .found k mp) (hp' : (s'.proc p).pc = .unlock k (some mp))
    (hpc : ∀ r, r ≠ p → (s'.proc r).pc = (s.proc r).pc) (hac : ∀ r, (s'.proc r).ac = (s.proc r).ac)
    (hmp : (s'.mach mp).proc = some (k.target p)) (hm : ∀ mp', mp' ≠ mp → (s'.mach mp').proc = (s.mach mp').proc)
    (hlock : s'.lock = s.lock) : Paired s' := by
  have hat := h.lies p
  rw [hp] at hat
  obtain ⟨hfree, hnone⟩ := hat
  have hchild {q : P} (hq : k = .child q) : q ≠ p := by
    rintro rfl
    have := hfree.child q hq
    rw [hp] at this
    contradiction
  constructor
  case lock =>
    refine Passes.owner (a := p) (fun r => (s'.proc r).pc.Locked) (.inl ⟨hlock, ?_⟩) h.lock fun r hr => by rw [hpc r hr]
    rw [hp, hp']
    exact Iff.rfl
  case own =>
    intro r mp' hr hc
    rw [hac] at hr
    have hold := h.own r mp' hr <| by
      by_cases hrp : r = p
      · rw [hrp, hp]
        exact nofun
      · exact hpc r hrp ▸ hc
    by_cases hmm : mp' = mp
    · rw [hmm, hnone] at hold
      contradiction
    · exact (hm mp' hmm).trans hold
  case busy =>
    intro t mp' ht
    rw [hac]
    by_cases hmm : mp' = mp
    · subst hmm
      refine .inr ⟨p, ?_⟩
      rw [hp']
      exact ⟨Option.some.inj <| hmp.symm.trans ht, rfl⟩
    · rw [hm mp' hmm] at ht
      refine (h.busy t mp' ht).imp_right fun ⟨r, hr⟩ => ⟨r, ?_⟩
      by_cases hrp : r = p
      · rw [hrp, hp] at hr
        exact hr.elim
      · exact (hpc r hrp).symm ▸ hr
  case lies =>
    intro r
    by_cases hrp : r = p
    case pos =>
      subst hrp
      rw [hp']
      refine ⟨⟨fun q hq => (hpc q <| hchild hq).trans <| hfree.child q hq, (hac _).trans hfree.ac⟩, hmp⟩
    case neg =>
      rw [hpc r hrp]
      have hlies := h.lies r
      refine hlies.congr (hac r) (fun q hq => ⟨hpc q ?_, hac q⟩) fun mp' => ?_
      · rintro rfl
        exact h.not_refers (fun r => by rw [hp]; exact nofun) r hq
      by_cases hmm : mp' = mp
      case neg => exact .inl <| hm mp' hmm
      case pos =>
        subst hmm
        refine .inr fun hminds => ?_
        rw [hmp] at hminds
        cases hr : (s.proc r).pc <;> rw [hr] at hminds hlies
        case found =>
          have hlr := (h.lock r).mpr <| hr ▸ trivial
          have hlp := (h.lock p).mpr <| hp ▸ trivial
          exact hrp <| Option.some.inj <| hlr.symm.trans hlp
        case unlock k' mp'' =>
          cases mp''
          case none => exact hminds
          case some =>
            subst hminds
            exact nomatch hnone.symm.trans hlies.right
        case assign =>
          subst hminds
          exact nomatch hnone.symm.trans hlies.right
        case stopproc =>
          subst hminds
          exact nomatch hnone.symm.trans hlies.left
        case clearac =>
          have ht : k.target p = r := Option.some.inj hminds
          cases k
          case child q =>
            have := hfree.child q rfl
            rw [show q = r from ht, hr] at this
            contradiction
          case self | execac => exact hrp ht.symm
        all_goals exact hminds

omit [DecidableEq P] [DecidableEq C] in
theorem Paired.release (h : Paired s) (hmp : (s.mach mp).proc = some p) (hembryo : ∀ r, (s.proc p).pc ≠ .embryo r)
    (hclear : (s.proc p).pc ≠ .clearac) (hholds : ∀ t mp', (s.proc p).pc.Holds p t mp' → mp' = mp)
    (hown : (s'.proc p).pc = .clearac ∨ (s.proc p).ac ≠ some mp)
    (hpc : ∀ r, r ≠ p → (s'.proc r).pc = (s.proc r).pc) (hac : ∀ r, (s'.proc r).ac = (s.proc r).ac)
    (hmp' : (s'.mach mp).proc = none) (hm : ∀ mp', mp' ≠ mp → (s'.mach mp').proc = (s.mach mp').proc)
    (hlock : s'.lock = s.lock) (hlocked : (s'.proc p).pc.Locked ↔ (s.proc p).pc.Locked) (hat : s'.At p (s'.proc p).pc) :
    Paired s' := by
  constructor
  case lock =>
    exact Passes.owner (fun r => (s'.proc r).pc.Locked) (.inl ⟨hlock, hlocked⟩) h.lock fun r hr => by rw [hpc r hr]
  case own =>
    intro r mp' hr hc
    rw [hac] at hr
    have hold := h.own r mp' hr <| by
      by_cases hrp : r = p
      · exact hrp ▸ hclear
      · exact hpc r hrp ▸ hc
    by_cases hmm : mp' = mp
    case neg => exact (hm mp' hmm).trans hold
    case pos =>
      subst hmm
      obtain rfl := Option.some.inj <| hold.symm.trans hmp
      rcases hown with hown | hown
      · exact absurd hown hc
      · exact absurd hr hown
  case busy =>
    intro t mp' ht
    rw [hac]
    by_cases hmm : mp' = mp
    case pos =>
      rw [hmm, hmp'] at ht
      contradiction
    case neg =>
      rw [hm mp' hmm] at ht
      refine (h.busy t mp' ht).imp_right fun ⟨r, hr⟩ => ⟨r, ?_⟩
      by_cases hrp : r = p
      · subst hrp
        exact absurd (hholds t mp' hr) hmm
      · exact (hpc r hrp).symm ▸ hr
  case lies =>
    intro r
    by_cases hrp : r = p
    case pos =>
      subst hrp
      exact hat
    case neg =>
      rw [hpc r hrp]
      have hlies := h.lies r
      refine hlies.congr (hac r) (fun q hq => ⟨hpc q ?_, hac q⟩) fun mp' => ?_
      · rintro rfl
        exact h.not_refers hembryo r hq
      by_cases hmm : mp' = mp
      case neg => exact .inl <| hm mp' hmm
      case pos =>
        subst hmm
        refine .inr fun hminds => ?_
        have htarget {t : P} (hh : (s.proc r).pc.Holds r t mp') : False := by
          obtain ⟨ht, -, htr⟩ := hlies.holds hh
          obtain rfl := Option.some.inj <| ht.symm.trans hmp
          rcases htr with htr | htr
          · exact hrp htr.symm
          · exact hembryo r htr
        rw [hmp'] at hminds
        cases hr : (s.proc r).pc <;> rw [hr] at hminds hlies htarget
        case found =>
          subst hminds
          exact nomatch hmp.symm.trans hlies.right
        case unlock k' mp'' =>
          cases mp''
          case none => exact hminds
          case some => exact htarget ⟨rfl, hminds⟩
        case assign => exact htarget ⟨rfl, hminds⟩
        case stopproc => exact htarget ⟨rfl, hminds⟩
        case clearac => exact nomatch hminds
        all_goals exact hminds

omit [DecidableEq P] [DecidableEq C] in
theorem Paired.assigned (h : Paired s) (hp : (s.proc p).pc = .assign k mp)
    (hpc : ∀ r, r ≠ p → (s'.proc r).pc = (s.proc r).pc) (hac : ∀ r, r ≠ k.target p → (s'.proc r).ac = (s.proc r).ac)
    (htarget : (s'.proc (k.target p)).ac = some mp) (hm : ∀ mp', (s'.mach mp').proc = (s.mach mp').proc)
    (hlock : s'.lock = s.lock) (hlocked : ¬ (s'.proc p).pc.Locked) (hat : s'.At p (s'.proc p).pc) : Paired s' := by
  have hfree := h.lies p
  rw [hp] at hfree
  obtain ⟨hfree, hmp⟩ := hfree
  constructor
  case lock =>
    refine Passes.owner (a := p) (fun r => (s'.proc r).pc.Locked) (.inl ⟨hlock, ?_⟩) h.lock fun r hr => by rw [hpc r hr]
    rw [hp]
    exact iff_of_false hlocked id
  case own =>
    intro r mp' hr hc
    rw [hm]
    by_cases hrt : r = k.target p
    case pos =>
      rw [hrt] at hr ⊢
      obtain rfl := Option.some.inj <| htarget.symm.trans hr
      exact hmp
    case neg =>
      refine h.own r mp' (hac r hrt ▸ hr) ?_
      by_cases hrp : r = p
      · rw [hrp, hp]
        exact nofun
      · exact hpc r hrp ▸ hc
  case busy =>
    intro t mp' ht
    rw [hm] at ht
    rcases h.busy t mp' ht with hr | ⟨r, hr⟩
    · refine .inl <| (hac t ?_).trans hr
      rintro rfl
      exact nomatch hfree.ac.symm.trans hr
    · by_cases hrp : r = p
      case pos =>
        rw [hrp, hp] at hr
        obtain ⟨rfl, rfl⟩ := hr
        exact .inl htarget
      case neg => exact .inr ⟨r, (hpc r hrp).symm ▸ hr⟩
  case lies =>
    intro r
    by_cases hrp : r = p
    case pos =>
      subst hrp
      exact hat
    case neg =>
      rw [hpc r hrp]
      by_cases hrt : r = k.target p
      case pos =>
        cases k
        case child q =>
          rw [show r = q from hrt, hfree.child q rfl]
          trivial
        case self | execac => exact absurd hrt hrp
      case neg =>
        refine (h.lies r).congr (hac r hrt) (fun q hq => ?_) fun mp' => .inl <| hm mp'
        have hembryo := (h.lies r).child hq
        have hqp : q ≠ p := by
          rintro rfl
          rw [hp] at hembryo
          contradiction
        refine ⟨hpc q hqp, hac q ?_⟩
        rintro rfl
        cases k
        case child q => exact hrp <| Pc.embryo.inj <| hembryo.symm.trans <| hfree.child q rfl
        case self | execac => exact hqp rfl

omit [DecidableEq P] [DecidableEq C] in
theorem Paired.dropped (h : Paired s) (hembryo : ∀ r, (s.proc p).pc ≠ .embryo r)
    (hholds : ∀ t mp', ¬ (s.proc p).pc.Holds p t mp') (hbusy : ∀ mp', (s.mach mp').proc = some p → (s'.proc p).pc.Holds p p mp')
    (hpc : ∀ r, r ≠ p → (s'.proc r).pc = (s.proc r).pc) (hac : ∀ r, r ≠ p → (s'.proc r).ac = (s.proc r).ac)
    (hnone : (s'.proc p).ac = none) (hm : ∀ mp', (s'.mach mp').proc = (s.mach mp').proc)
    (hlock : s'.lock = s.lock) (hlocked : (s'.proc p).pc.Locked ↔ (s.proc p).pc.Locked) (hat : s'.At p (s'.proc p).pc) :
    Paired s' := by
  constructor
  case lock =>
    exact Passes.owner (fun r => (s'.proc r).pc.Locked) (.inl ⟨hlock, hlocked⟩) h.lock fun r hr => by rw [hpc r hr]
  case own =>
    intro r mp' hr hc
    have hrp : r ≠ p := by
      rintro rfl
      exact nomatch hnone.symm.trans hr
    exact (hm mp').trans <| h.own r mp' (hac r hrp ▸ hr) (hpc r hrp ▸ hc)
  case busy =>
    intro t mp' ht
    rw [hm] at ht
    by_cases htp : t = p
    case pos =>
      subst htp
      exact .inr ⟨t, hbusy mp' ht⟩
    case neg =>
      rw [hac t htp]
      refine (h.busy t mp' ht).imp_right fun ⟨r, hr⟩ => ⟨r, ?_⟩
      by_cases hrp : r = p
      · subst hrp
        exact absurd hr <| hholds t mp'
      · exact (hpc r hrp).symm ▸ hr
  case lies =>
    intro r
    by_cases hrp : r = p
    case pos =>
      subst hrp
      exact hat
    case neg =>
      rw [hpc r hrp]
      refine (h.lies r).congr (hac r hrp) (fun q hq => ?_) fun mp' => .inl <| hm mp'
      have hqp : q ≠ p := by
        rintro rfl
        exact h.not_refers hembryo r hq
      exact ⟨hpc q hqp, hac q hqp⟩

end K10.Tcore
