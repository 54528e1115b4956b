import Nix.Port.Portclock
import Mathlib.Data.List.Nodup
import Mathlib.Data.List.Pairwise

namespace Port.Portclock

variable {P T C : Type*} {s s' : State P T C} {t u : T} {p q : P} {c : C} {when : T → Int} {l : List T}

-- The timer that `timerintr` has taken off a list and is not through with.
def Intr.taken : Intr T → Option T
  | .call t _ | .called t _ => some t
  | _ => none

-- The timer whose function it is about to call.
def Intr.calling : Intr T → Option T
  | .call t _ => some t
  | _ => none

def Intr.now : Intr T → Option Int
  | .look k | .call _ k | .called _ k => some k.now
  | _ => none

-- The timer whose lock a caller has.
def Pc.locked : Pc P T → Option T
  | .look _ _ t | .tdel _ _ t _ | .tadd _ t => some t
  | _ => none

-- The timer that a caller is about to look at, or to take off its list.
def Pc.looks : Pc P T → Option (Op × T)
  | .look op _ t | .tdel op _ t _ => some (op, t)
  | _ => none

-- The timers are on the lists that they refer to.
structure Lists (s : State P T C) : Prop where
  nodup  : ∀ p, (s.head p).Nodup
  mem    : ∀ {p t}, t ∈ s.head p ↔ (s.timer t).tt = some p
  sorted : ∀ p, (s.head p).Pairwise fun t u => s.twhen t ≤ s.twhen u

-- What holds of a timer and of all who are at it.
structure Ok (s : State P T C) (t : T) : Prop where
  locked   : ∀ c, (s.pc c).locked = some t → s.lock t = some c
  -- The lock that `tdel` is called with is the one of the list that the timer is on.
  tdel     : ∀ c op p q, s.pc c = .tdel op p t q → (s.timer t).tt = some q ∨ (s.timer t).tt = none
  tadd     : ∀ c p, s.pc c = .tadd p t → (s.timer t).tt = none
  -- A periodic timer that is off the list is not touched.
  periodic : (s.timer t).tmode = .Tperiodic → ∀ p, (s.intr p).taken = some t →
    (s.timer t).tt = none ∧ (∀ q, (s.intr q).taken = some t → q = p) ∧ (∀ c p, s.pc c ≠ .tadd p t) ∧
      ∀ c op p' q, s.pc c = .tdel op p' t q → q = p
  added    : s.gone t → ∀ c, (s.pc c).locked = some t → ∃ p, s.pc c = .look .timerdel p t ∨ ∃ q, s.pc c = .tdel .timerdel p t q
  gone     : s.gone t → (s.timer t).tt = none ∧ (∀ p, (s.intr p).calling ≠ some t) ∧
    ((s.timer t).tmode = .Tperiodic → ∀ p, (s.intr p).taken ≠ some t)

structure Inv (s : State P T C) : Prop where
  lists : Lists s
  ok    : ∀ t, Ok s t
  panic : s.panic ≠ some "nt->tt == nil" ∧ s.panic ≠ some "t->tt == tt"

namespace State

theorem insert_perm (when : T → Int) (nt : T) (l : List T) : (insert when nt l).Perm (nt :: l) := by
  induction l
  case nil => exact .refl _
  case cons t l ih =>
    rw [insert]
    split
    case isTrue => exact .refl _
    case isFalse => exact (ih.cons t).trans (.swap ..)

theorem insert_sorted (h : l.Pairwise fun t u => when t ≤ when u) (nt : T) :
    (insert when nt l).Pairwise fun t u => when t ≤ when u := by
  induction l
  case nil => exact List.pairwise_singleton ..
  case cons t l ih =>
    have ⟨ht, hl⟩ := List.pairwise_cons.mp h
    rw [insert]
    split
    case isTrue hlt =>
      refine List.pairwise_cons.mpr ⟨fun u hu => ?_, h⟩
      rcases List.mem_cons.mp hu with rfl | hu
      · exact Int.le_of_lt hlt
      · exact Int.le_trans (Int.le_of_lt hlt) (ht u hu)
    case isFalse hlt =>
      refine List.pairwise_cons.mpr ⟨fun u hu => ?_, ih hl⟩
      rcases List.mem_cons.mp ((insert_perm when nt l).mem_iff.mp hu) with rfl | hu
      · exact Int.not_lt.mp hlt
      · exact ht u hu

end State

namespace Lists

theorem same (h : Lists s) (hhead : s'.head = s.head) (htt : ∀ t, (s'.timer t).tt = (s.timer t).tt)
    (hwhen : ∀ t, s'.twhen t = s.twhen t) : Lists s' where
  nodup  := by rw [hhead]; exact h.nodup
  mem    := by simp only [hhead, htt]; exact h.mem
  sorted := by simp only [hhead, hwhen]; exact h.sorted

theorem enlist [DecidableEq P] [DecidableEq T] (h : Lists s) (ht : (s.timer t).tt = none) (p : P) (x : Timer P) :
    Lists (s.enlist p t x).fst := by
  have hnot q : t ∉ s.head q := fun hq => nomatch ht.symm.trans (h.mem.mp hq)
  have hne q u (hu : u ∈ s.head q) : u ≠ t := fun he => hnot q (he ▸ hu)
  have hwhen q u (hu : u ∈ s.head q) : (s.enlist p t x).fst.twhen u = s.twhen u := by
    simp [State.enlist, State.twhen, hne q u hu]
  have hsame q : (s.head q).Pairwise fun a b => (s.enlist p t x).fst.twhen a ≤ (s.enlist p t x).fst.twhen b :=
    (h.sorted q).imp_of_mem fun ha hb hle => by rwa [hwhen q _ ha, hwhen q _ hb]
  have hperm := State.insert_perm (s.enlist p t x).fst.twhen t (s.head p)
  have hhead q : (s.enlist p t x).fst.head q =
      if q = p then State.insert (s.enlist p t x).fst.twhen t (s.head p) else s.head q := Function.update_apply ..
  constructor
  case nodup =>
    intro q
    rw [hhead]
    split
    case isTrue => exact hperm.nodup_iff.mpr (List.nodup_cons.mpr ⟨hnot p, h.nodup p⟩)
    case isFalse => exact h.nodup q
  case mem =>
    intro q u
    have htt : ((s.enlist p t x).fst.timer u).tt = if u = t then some p else (s.timer u).tt := by
      by_cases hu : u = t <;> simp [State.enlist, hu]
    rw [hhead, htt]
    by_cases hq : q = p
    case pos => simp [hq, hperm.mem_iff, h.mem]; grind
    case neg => grind [h.mem (p := q) (t := u)]
  case sorted =>
    intro q
    rw [hhead]
    split
    case isTrue => exact State.insert_sorted (hsame p) t
    case isFalse => exact hsame q

theorem remove [DecidableEq P] [DecidableEq T] (h : Lists s) (ht : (s.timer t).tt = some p)
    (hhead : s'.head = Function.update s.head p ((s.head p).erase t))
    (htimer : s'.timer = Function.update s.timer t { s.timer t with tt := none }) : Lists s' := by
  have hwhen u : s'.twhen u = s.twhen u := by
    by_cases hu : u = t <;> simp [State.twhen, htimer, hu]
  have hq q : (s'.head q).Sublist (s.head q) := by
    rw [hhead, Function.update_apply]
    split
    case isTrue hq => exact hq ▸ List.erase_sublist
    case isFalse => exact .refl _
  constructor
  case nodup => exact fun q => (hq q).nodup (h.nodup q)
  case mem =>
    intro q u
    rw [hhead, htimer]
    have hmem := h.mem (p := q) (t := u)
    by_cases hu : u = t
    case pos =>
      subst hu
      have := (h.nodup p).mem_erase_iff (a := u) (b := u)
      by_cases hqp : q = p <;> simp_all [Function.update_apply, eq_comm]
    case neg =>
      have := (h.nodup p).mem_erase_iff (a := u) (b := t)
      by_cases hqp : q = p <;> simp_all [Function.update_apply]
  case sorted =>
    intro q
    simp only [hwhen]
    exact (h.sorted q).sublist (hq q)

end Lists

section
variable [DecidableEq P] [DecidableEq T]

theorem tdel_spec (h : Lists s) (t : T) :
    Lists (s.tdel t).fst ∧ ((s.tdel t).fst.timer t).tt = none ∧
      (s.tdel t).fst = { s with head := (s.tdel t).fst.head, timer := (s.tdel t).fst.timer } ∧
        (∀ u ≠ t, (s.tdel t).fst.timer u = s.timer u) ∧ ((s.tdel t).fst.timer t).tmode = (s.timer t).tmode := by
  rw [State.tdel]
  split
  case h_1 htt => exact ⟨h, htt, rfl, fun _ _ => rfl, rfl⟩
  case h_2 q htt =>
    rw [if_pos (h.mem.mpr htt)]
    refine ⟨h.remove htt rfl rfl, ?_, rfl, fun u hu => Function.update_of_ne hu .., ?_⟩
    all_goals simp

theorem enlist_spec (s : State P T C) (p : P) (t : T) (x : Timer P) :
    ((s.enlist p t x).fst.timer t).tt = some p ∧
      (s.enlist p t x).fst = { s with head := (s.enlist p t x).fst.head, timer := (s.enlist p t x).fst.timer } ∧
        (∀ u ≠ t, (s.enlist p t x).fst.timer u = s.timer u) ∧ ((s.enlist p t x).fst.timer t).tmode = x.tmode := by
  refine ⟨?_, rfl, fun u hu => Function.update_of_ne hu .., ?_⟩
  all_goals simp [State.enlist]

theorem tadd_spec {w : Int} (h : Lists s) (htt : (s.timer t).tt = none) (hs : s.tadd p t = .ok (s', w)) :
    Lists s' ∧ (s'.timer t).tt = some p ∧ s' = { s with head := s'.head, timer := s'.timer } ∧
      (∀ u ≠ t, s'.timer u = s.timer u) ∧ (s'.timer t).tmode = (s.timer t).tmode := by
  obtain ⟨x, hx, he⟩ : ∃ x, x.tmode = (s.timer t).tmode ∧ s.enlist p t x = (s', w) := by
    rw [State.tadd] at hs
    dsimp only at hs
    rw [if_neg (not_not.mpr htt)] at hs
    split at hs
    case h_1 => cases hs
    case h_2 =>
      refine ⟨_, ?_, Except.ok.inj hs⟩
      rfl
    case h_3 hm =>
      split at hs
      case isTrue => cases hs
      case isFalse =>
        refine ⟨_, ?_, Except.ok.inj hs⟩
        rfl
  have hspec := enlist_spec s p t x
  have hl := h.enlist htt p x
  rw [he] at hspec hl
  exact ⟨hl, hx ▸ hspec⟩

theorem tadd_error {e : String} (htt : (s.timer t).tt = none) (hs : s.tadd p t = .error e) :
    some e ≠ some "nt->tt == nil" ∧ some e ≠ some "t->tt == tt" := by
  rw [State.tadd] at hs
  dsimp only at hs
  rw [if_neg (not_not.mpr htt)] at hs
  split at hs
  case h_1 => cases hs; decide
  case h_2 => cases hs
  case h_3 => split at hs <;> cases hs; decide

end

namespace Ok

theorem other (h : Ok s t) (htt : (s'.timer t).tt = (s.timer t).tt)
    (hmode : (s'.timer t).tmode = .Tperiodic → (s.timer t).tmode = .Tperiodic ∨ ∀ p, (s.intr p).taken ≠ some t)
    (hlock : s'.lock t = s.lock t) (hgone : s'.gone t = s.gone t)
    (hpc : ∀ c, (s'.pc c).locked = some t → s'.pc c = s.pc c)
    (hintr : ∀ p, (s'.intr p).taken = some t → (s.intr p).taken = some t)
    (hcall : ∀ p, (s'.intr p).calling = some t → (s.intr p).calling = some t) : Ok s' t := by
  have hsame c x (hx : x.locked = some t) (hc : s'.pc c = x) : s.pc c = x := by rw [← hpc c (hc ▸ hx), hc]
  constructor
  case locked =>
    intro c hc
    exact hlock.trans <| h.locked c <| (congrArg Pc.locked (hpc c hc)).symm.trans hc
  case tdel => exact fun c op p q hc => htt ▸ h.tdel c op p q (hsame c _ rfl hc)
  case tadd => exact fun c p hc => htt ▸ h.tadd c p (hsame c _ rfl hc)
  case periodic =>
    intro hp p ht
    have ht := hintr p ht
    have ⟨hnone, hq, hadd, hdel⟩ := h.periodic ((hmode hp).resolve_right fun hn => hn p ht) p ht
    exact ⟨htt ▸ hnone, fun q ht => hq q (hintr q ht), fun c p hc => hadd c p (hsame c _ rfl hc),
      fun c op p' q hc => hdel c op p' q (hsame c _ rfl hc)⟩
  case added =>
    intro hg c hc
    have he := hpc c hc
    rw [he] at hc ⊢
    exact h.added (hgone ▸ hg) c hc
  case gone =>
    intro hg
    have ⟨hnone, hc, hp⟩ := h.gone (hgone ▸ hg)
    refine ⟨htt ▸ hnone, fun p hi => hc p (hcall p hi), fun hm p ht => ?_⟩
    exact (hmode hm).elim (fun hm => hp hm p (hintr p ht)) fun hn => hn p (hintr p ht)

theorem only (h : Ok s t) (hc : (s.pc c).locked = some t) {d : C} (hd : (s.pc d).locked = some t) : d = c :=
  Option.some.inj ((h.locked d hd).symm.trans (h.locked c hc))

end Ok

-- The calls keep off a periodic timer while its function is called, and `timerdel` keeps off any timer
-- whose function is about to be.
def Careful (s : State P T C) : Act P T C → Prop
  | .timeradd _ _ t tmode _ _ => tmode = .Tperiodic → ∀ p, (s.intr p).taken ≠ some t
  | .call c => ∀ x ∈ (s.pc c).looks,
    ((s.timer x.snd).tmode = .Tperiodic → ∀ p, (s.intr p).taken ≠ some x.snd) ∧
      (x.fst = .timerdel → ∀ p, (s.intr p).calling ≠ some x.snd)
  | _ => True

namespace Inv

theorem goto_locked [DecidableEq C] {x : Pc P T} (hx : x.locked ≠ some t) {d : C}
    (hd : (Function.update s.pc c x d).locked = some t) : Function.update s.pc c x d = s.pc d := by
  rw [Function.update_apply] at hd ⊢
  split at hd
  case isTrue => exact (hx hd).elim
  case isFalse hne => exact if_neg hne

variable [DecidableEq P] [DecidableEq T] [DecidableEq C]

omit [DecidableEq P] in
theorem timeradd (h : Inv s) (c : C) (p : P) (tmode : Tmode) (tns : Int) (tf : Bool)
    (hcare : tmode = .Tperiodic → ∀ p, (s.intr p).taken ≠ some t) :
    Inv ({ s with timer := Function.update s.timer t { s.timer t with tmode := tmode, tns := tns, tf := tf } }.goto c
      (.lock .timeradd p t)) := by
  let x := { s.timer t with tmode := tmode, tns := tns, tf := tf }
  have htt u : (Function.update s.timer t x u).tt = (s.timer u).tt := by by_cases hu : u = t <;> simp [hu, x]
  refine ⟨h.lists.same rfl htt fun u => ?_, fun u => (h.ok u).other (htt u) ?_ rfl rfl ?_ (fun _ => id) fun _ => id, h.panic⟩
  · change (Function.update s.timer t x u).twhen = _
    by_cases hu : u = t <;> simp [hu, x, State.twhen]
  · change (Function.update s.timer t x u).tmode = _ → _
    by_cases hu : u = t
    case pos =>
      rw [hu, Function.update_self]
      exact fun hm => .inr (hcare hm)
    case neg =>
      rw [Function.update_of_ne hu]
      exact .inl
  · exact fun d => goto_locked (x := .lock .timeradd p t) nofun

-- A step of a caller that is at the timer `t`.
omit [DecidableEq P] [DecidableEq T] in
theorem at_timer (h : Inv s) {x : Pc P T} (hx : ∀ u ≠ t, x.locked ≠ some u) (hpc : s'.pc = Function.update s.pc c x)
    (hintr : s'.intr = s.intr) (htimer : ∀ u ≠ t, s'.timer u = s.timer u) (hlock : ∀ u ≠ t, s'.lock u = s.lock u)
    (hgone : ∀ u ≠ t, s'.gone u = s.gone u) (hpanic : s'.panic = s.panic) (hl : Lists s') (ht : Ok s' t) : Inv s' := by
  refine ⟨hl, fun u => ?_, hpanic ▸ h.panic⟩
  by_cases hu : u = t
  case pos => exact hu ▸ ht
  case neg =>
    have htimer := htimer u hu
    refine (h.ok u).other (htimer ▸ rfl) (fun hm => .inl (htimer ▸ hm)) (hlock u hu) (hgone u hu) (fun d hd => ?_) ?_ ?_
    · rw [hpc] at hd ⊢
      exact goto_locked (hx u hu) hd
    · exact fun p hp => hintr ▸ hp
    · exact fun p hp => hintr ▸ hp

omit [DecidableEq P] [DecidableEq T] in
theorem alone (h : Inv s) {x : Pc P T} (honly : ∀ d, (s.pc d).locked = some t → d = c)
    (hpc : s'.pc = Function.update s.pc c x) (hintr : s'.intr = s.intr) (hpanic : s'.panic = s.panic)
    (hother : ∀ u ≠ t, s'.timer u = s.timer u ∧ s'.lock u = s.lock u ∧ s'.gone u = s.gone u ∧ x.locked ≠ some u)
    (hl : Lists s') (hlock : x.locked = some t → s'.lock t = some c)
    (htdel : ∀ op p q, x = .tdel op p t q → (s'.timer t).tt = some q ∨ (s'.timer t).tt = none)
    (htadd : ∀ p, x = .tadd p t → (s'.timer t).tt = none)
    (hperiodic : (s'.timer t).tmode = .Tperiodic → ∀ p, (s.intr p).taken = some t →
      (s'.timer t).tt = none ∧ (∀ q, (s.intr q).taken = some t → q = p) ∧ (∀ p, x ≠ .tadd p t) ∧
        ∀ op p' q, x = .tdel op p' t q → q = p)
    (hadded : s'.gone t → x.locked = some t → ∃ p, x = .look .timerdel p t ∨ ∃ q, x = .tdel .timerdel p t q)
    (hgone : s'.gone t → (s'.timer t).tt = none ∧ (∀ p, (s.intr p).calling ≠ some t) ∧
      ((s'.timer t).tmode = .Tperiodic → ∀ p, (s.intr p).taken ≠ some t)) : Inv s' := by
  refine h.at_timer (fun u hu => (hother u hu).right.right.right) hpc hintr (fun u hu => (hother u hu).left)
    (fun u hu => (hother u hu).right.left) (fun u hu => (hother u hu).right.right.left) hpanic hl ?_
  have hself : s'.pc c = x := by rw [hpc, Function.update_self]
  have hne d y (hy : y.locked = some t) (hd : s'.pc d = y) : d = c := by
    by_contra hdc
    rw [hpc, Function.update_of_ne hdc] at hd
    exact hdc (honly d (hd ▸ hy))
  constructor
  case locked =>
    intro d hd
    obtain rfl := hne d _ hd rfl
    exact hlock (hself ▸ hd)
  case tdel =>
    intro d op' p' q hd
    obtain rfl := hne d _ rfl hd
    exact htdel op' p' q (hself.symm.trans hd)
  case tadd =>
    intro d p' hd
    obtain rfl := hne d _ rfl hd
    exact htadd p' (hself.symm.trans hd)
  case periodic =>
    intro hm q hq
    rw [hintr] at hq ⊢
    have ⟨htt, hunique, hadd, hdel⟩ := hperiodic hm q hq
    refine ⟨htt, hunique, fun d p' hd => ?_, fun d op' p' q' hd => ?_⟩
    all_goals obtain rfl := hne d _ rfl hd
    · exact hadd p' (hself.symm.trans hd)
    · exact hdel op' p' q' (hself.symm.trans hd)
  case added =>
    intro hg d hd
    obtain rfl := hne d _ hd rfl
    rw [hself] at hd ⊢
    exact hadded hg hd
  case gone => exact hintr ▸ hgone

omit [DecidableEq P] in
theorem lock (h : Inv s) {op : Op} (hl : s.lock t = none) (c : C) (p : P) :
    Inv ({ s with
      lock := Function.update s.lock t (some c)
      gone := Function.update s.gone t (op == Op.timerdel && s.gone t) }.goto c (.look op p t)) := by
  have hg : Function.update s.gone t (op == Op.timerdel && s.gone t) t = true → op = .timerdel ∧ s.gone t = true := by
    rw [Function.update_self, Bool.and_eq_true, beq_iff_eq]
    exact id
  refine h.alone (x := .look op p t) (t := t) (c := c) (fun d hd => ?_) rfl rfl rfl (fun u hu => ?_)
    (h.lists.same rfl (fun _ => rfl) fun _ => rfl) (fun _ => Function.update_self ..) nofun nofun
    (fun hm q hq => ?_) (fun hd _ => ⟨p, .inl ?_⟩) fun hd => (h.ok t).gone (hg hd).right
  · exact nomatch hl.symm.trans ((h.ok t).locked d hd)
  · exact ⟨rfl, Function.update_of_ne hu .., Function.update_of_ne hu .., fun he => hu (Option.some.inj he).symm⟩
  · have ⟨htt, honly, _⟩ := (h.ok t).periodic hm q hq
    exact ⟨htt, honly, nofun, nofun⟩
  · rw [(hg hd).left]

omit [DecidableEq P] [DecidableEq T] in
theorem held (h : Inv s) {x : Pc P T} (hc : (s.pc c).locked = some t) (hpc : s'.pc = Function.update s.pc c x)
    (hs : s'.intr = s.intr ∧ s'.lock = s.lock ∧ s'.gone = s.gone ∧ s'.panic = s.panic)
    (htimer : ∀ u ≠ t, s'.timer u = s.timer u) (hmode : (s'.timer t).tmode = (s.timer t).tmode) (hl : Lists s')
    (hx : x.locked = some t)
    (htdel : ∀ op p q, x = .tdel op p t q → (s'.timer t).tt = some q ∨ (s'.timer t).tt = none)
    (htadd : ∀ p, x = .tadd p t → (s'.timer t).tt = none)
    (hperiodic : (s.timer t).tmode = .Tperiodic → ∀ p, (s.intr p).taken ≠ some t)
    (hadded : s.gone t → ∃ p, x = .look .timerdel p t ∨ ∃ q, x = .tdel .timerdel p t q)
    (htt : s.gone t → (s'.timer t).tt = none) : Inv s' := by
  obtain ⟨hintr, hlock, hgone, hpanic⟩ := hs
  refine h.alone (fun d hd => (h.ok t).only hc hd) hpc hintr hpanic (fun u hu => ?_) hl (fun _ => ?_) htdel htadd
    (fun hm p hp => (hperiodic (hmode ▸ hm) p hp).elim) (fun hg _ => hadded (hgone ▸ hg)) fun hg => ?_
  · exact ⟨htimer u hu, congrFun hlock u, congrFun hgone u, fun he => hu (Option.some.inj (he.symm.trans hx))⟩
  · exact hlock ▸ (h.ok t).locked c hc
  · have hg := hgone ▸ hg
    exact ⟨htt hg, ((h.ok t).gone hg).right.left, fun hm => hperiodic (hmode ▸ hm)⟩

omit [DecidableEq P] in
theorem unlock (h : Inv s) (hc : (s.pc c).locked = some t) (hpc : s'.pc = Function.update s.pc c .idle)
    (hlock : s'.lock = Function.update s.lock t none) (hs : s'.intr = s.intr ∧ s'.panic = s.panic)
    (hother : ∀ u ≠ t, s'.timer u = s.timer u ∧ s'.gone u = s.gone u) (hl : Lists s')
    (hperiodic : (s'.timer t).tmode = .Tperiodic → ∀ p, (s.intr p).taken ≠ some t)
    (hgone : s'.gone t → (s'.timer t).tt = none ∧ ∀ p, (s.intr p).calling ≠ some t) : Inv s' := by
  refine h.alone (x := .idle) (fun d hd => (h.ok t).only hc hd) hpc hs.left hs.right (fun u hu => ?_) hl nofun nofun nofun
    (fun hm p hp => (hperiodic hm p hp).elim) (fun _ => nofun) fun hg => ?_
  · exact ⟨(hother u hu).left, by rw [hlock, Function.update_of_ne hu], (hother u hu).right, nofun⟩
  · exact ⟨(hgone hg).left, (hgone hg).right, hperiodic⟩

omit [DecidableEq P] [DecidableEq T] [DecidableEq C] in
theorem died {e : String} (h : Inv s) (he : some e ≠ some "nt->tt == nil" ∧ some e ≠ some "t->tt == tt") :
    Inv { s with panic := some e } :=
  ⟨h.lists.same rfl (fun _ => rfl) fun _ => rfl,
    fun u => (h.ok u).other rfl .inl rfl rfl (fun _ _ => rfl) (fun _ => id) fun _ => id, he⟩

theorem call (h : Inv s) (hcare : Careful s (.call c)) (hs : s.call c = some s') : Inv s' := by
  rw [State.call] at hs
  split at hs
  case h_1 => cases hs
  case h_2 op p t hc =>
    obtain ⟨hl, hs⟩ := Option.ite_none_right_eq_some.mp hs
    cases hs
    exact h.lock hl c p
  case h_3 op p t hc =>
    have hcare := hcare _ (congrArg Pc.looks hc)
    have hlocked : (s.pc c).locked = some t := by rw [hc]; rfl
    split at hs
    case h_1 q htt =>
      cases hs
      refine h.held hlocked (x := .tdel op p t q) rfl ⟨rfl, rfl, rfl, rfl⟩ (fun _ _ => rfl) rfl
        (h.lists.same rfl (fun _ => rfl) fun _ => rfl) rfl (fun _ _ _ he => ?_) nofun hcare.left (fun hg => ?_) fun hg => ?_
      · cases he
        exact .inl htt
      · have ⟨_, hd⟩ := (h.ok t).added hg c hlocked
        rw [hc] at hd
        rcases hd with hd | ⟨_, hd⟩ <;> cases hd
        exact ⟨p, .inr ⟨q, rfl⟩⟩
      · exact nomatch htt.symm.trans ((h.ok t).gone hg).left
    case h_2 htt =>
      have hs := Option.some.inj hs
      split at hs
      case isTrue hop =>
        rw [← hs]
        refine h.held hlocked (x := .tadd p t) rfl ⟨rfl, rfl, rfl, rfl⟩ (fun _ _ => rfl) rfl
          (h.lists.same rfl (fun _ => rfl) fun _ => rfl) rfl nofun (fun _ _ => htt) hcare.left (fun hg => ?_) fun _ => htt
        have ⟨_, hd⟩ := (h.ok t).added hg c hlocked
        rw [hc, hop] at hd
        rcases hd with hd | ⟨_, hd⟩ <;> cases hd
      case isFalse hop =>
        have hop : op = .timerdel := by cases op <;> simp_all
        rw [← hs]
        exact h.unlock hlocked rfl rfl ⟨rfl, rfl⟩ (fun u hu => ⟨rfl, Function.update_of_ne hu ..⟩)
          (h.lists.same rfl (fun _ => rfl) fun _ => rfl) hcare.left fun _ => ⟨htt, hcare.right hop⟩
  case h_4 p t q hc =>
    have hcare := hcare _ (congrArg Pc.looks hc)
    have hlocked : (s.pc c).locked = some t := by rw [hc]; rfl
    have ⟨hl, htt, he, hother, hmode⟩ := tdel_spec h.lists t
    have hs := (Option.some.inj hs).symm
    generalize (s.tdel t).fst = s₁ at *
    rw [hs]
    refine h.held hlocked (x := .tadd p t) ?_ ?_ hother hmode (hl.same rfl (fun _ => rfl) fun _ => rfl) rfl nofun (fun _ _ => htt)
      hcare.left (fun hg => ?_) fun _ => htt
    · rw [he]; rfl
    · rw [he]; exact ⟨rfl, rfl, rfl, rfl⟩
    · have ⟨_, hd⟩ := (h.ok t).added hg c hlocked
      rw [hc] at hd
      rcases hd with hd | ⟨_, hd⟩ <;> cases hd
  case h_5 p t q hc =>
    have hcare := hcare _ (congrArg Pc.looks hc)
    have hlocked : (s.pc c).locked = some t := by rw [hc]; rfl
    have ⟨hl, htt, he, hother, hmode⟩ := tdel_spec h.lists t
    generalize s.tdel t = r at *
    obtain ⟨a, hs⟩ : ∃ a, s' = { r.fst with alarm := a }.deleted c t := by
      have hs := (Option.some.inj hs).symm
      split at hs <;> exact ⟨_, hs⟩
    rw [hs]
    refine h.unlock hlocked ?_ ?_ ?_ (fun u hu => ⟨hother u hu, ?_⟩) (hl.same rfl (fun _ => rfl) fun _ => rfl)
      (fun hm => hcare.left (hmode ▸ hm)) fun _ => ⟨htt, hcare.right rfl⟩
    · rw [he]; rfl
    · rw [he]; rfl
    · rw [he]; exact ⟨rfl, rfl⟩
    · rw [he]; exact Function.update_of_ne hu ..
  case h_6 p t hc =>
    have hlocked : (s.pc c).locked = some t := by rw [hc]; rfl
    have htt := (h.ok t).tadd c p hc
    split at hs
    case h_1 e he =>
      cases hs
      exact h.died (tadd_error htt he)
    case h_2 s₁ when hadd =>
      have ⟨hl, _, he, hother, hmode⟩ := tadd_spec h.lists htt hadd
      obtain ⟨a, hs⟩ : ∃ a, s' = { s₁ with alarm := a }.unlock c t := by
        have hs := (Option.some.inj hs).symm
        split at hs <;> exact ⟨_, hs⟩
      have hgone : s.gone t ≠ true := fun hg => by
        have ⟨_, hd⟩ := (h.ok t).added hg c hlocked
        rw [hc] at hd
        rcases hd with hd | ⟨_, hd⟩ <;> cases hd
      rw [hs]
      refine h.unlock hlocked ?_ ?_ ?_ (fun u hu => ⟨hother u hu, ?_⟩) (hl.same rfl (fun _ => rfl) fun _ => rfl)
        (fun hm q hq => ?_) fun hg => ?_
      · rw [he]; rfl
      · rw [he]; rfl
      · rw [he]; exact ⟨rfl, rfl⟩
      · rw [he]; rfl
      · exact ((h.ok t).periodic (hmode ▸ hm) q hq).right.right.left c p hc
      · rw [he] at hg
        exact (hgone hg).elim

omit [DecidableEq T] [DecidableEq C] in
theorem igoto {i : Intr T} (h : Inv s) (ht : i.taken = none ∨ i.taken = (s.intr p).taken) (hc : i.calling = none) :
    Inv (s.igoto p i) := by
  have hintr q : (s.igoto p i).intr q = if q = p then i else s.intr q := Function.update_apply ..
  refine ⟨h.lists.same rfl (fun _ => rfl) fun _ => rfl,
    fun u => (h.ok u).other rfl .inl rfl rfl (fun _ _ => rfl) (fun q hq => ?_) fun q hq => ?_, h.panic⟩
  · rw [hintr] at hq
    split at hq
    case isTrue hqp =>
      rcases ht with ht | ht
      · exact nomatch ht.symm.trans hq
      · exact hqp ▸ ht.symm.trans hq
    case isFalse => exact hq
  · rw [hintr] at hq
    split at hq
    case isTrue => exact nomatch hc.symm.trans hq
    case isFalse => exact hq

omit [DecidableEq C] in
theorem loop {k : Frame} (h : Inv (s.igoto p (.look k))) : Inv (s.loop p k) := by
  have hset i : (s.igoto p (.look k)).igoto p i = s.igoto p i := by simp [State.igoto]
  rw [State.loop]
  split
  case h_1 =>
    rw [← hset]
    exact h.igoto (.inl rfl) rfl
  case h_2 t l hhead =>
    split
    case isTrue =>
      have hi := h.igoto (p := p) (i := if k.callhzclock = 0 then .idle else .hzclock)
        (.inl (by split <;> rfl)) (by split <;> rfl)
      rw [hset] at hi
      exact ⟨hi.lists.same rfl (fun _ => rfl) fun _ => rfl,
        fun u => (hi.ok u).other rfl .inl rfl rfl (fun _ _ => rfl) (fun _ => id) fun _ => id, hi.panic⟩
    case isFalse =>
      have htt : (s.timer t).tt = some p := h.lists.mem.mp <| by
        rw [show (s.igoto p (.look k)).head p = t :: l from hhead]
        exact List.mem_cons_self
      rw [if_neg (not_not.mpr htt)]
      generalize hs : State.igoto _ p (.call t k) = s'
      have hhead' : s'.head = Function.update s.head p ((s.head p).erase t) := by
        rw [← hs, hhead, List.erase_cons_head]; rfl
      have htimer : s'.timer = Function.update s.timer t { s.timer t with tt := none } := by rw [← hs]; rfl
      have hintr q : s'.intr q = if q = p then .call t k else s.intr q := by rw [← hs]; exact Function.update_apply ..
      have hpc : s'.pc = s.pc := by rw [← hs]; rfl
      have hlock : s'.lock = s.lock := by rw [← hs]; rfl
      have hgone : s'.gone = s.gone := by rw [← hs]; rfl
      have hpanic : s'.panic = s.panic := by rw [← hs]; rfl
      refine ⟨h.lists.remove htt hhead' htimer, fun u => ?_, hpanic ▸ h.panic⟩
      have hok := h.ok u
      by_cases hu : u = t
      case neg =>
        have hut : s'.timer u = s.timer u := by rw [htimer, Function.update_of_ne hu]
        refine hok.other (congrArg Timer.tt hut) (fun hm => .inl ?_) (congrFun hlock u) (congrFun hgone u)
          (fun d _ => congrFun hpc d) (fun q hq => ?_) fun q hq => ?_
        · exact hut ▸ hm
        · rw [hintr] at hq
          by_cases hqp : q = p
          · rw [if_pos hqp] at hq
            exact (hu (Option.some.inj hq).symm).elim
          · rw [if_neg hqp] at hq
            exact (congrArg Intr.taken (Function.update_of_ne hqp ..)).trans hq
        · rw [hintr] at hq
          by_cases hqp : q = p
          · rw [if_pos hqp] at hq
            exact (hu (Option.some.inj hq).symm).elim
          · rw [if_neg hqp] at hq
            exact (congrArg Intr.calling (Function.update_of_ne hqp ..)).trans hq
      case pos =>
        subst hu
        have hnone : (s'.timer u).tt = none := by rw [htimer, Function.update_self]
        have hmode : (s'.timer u).tmode = (s.timer u).tmode := by rw [htimer, Function.update_self]
        -- The timer was on the list, so that nobody has a periodic one.
        have hon : (s.timer u).tt ≠ none := by rw [htt]; nofun
        have hadd d p' : s.pc d ≠ .tadd p' u := fun hd => hon (hok.tadd d p' hd)
        constructor
        case locked => rw [hpc, hlock]; exact hok.locked
        case tdel => exact fun _ _ _ _ _ => .inr hnone
        case tadd => exact fun _ _ _ => hnone
        case periodic =>
          intro hm q hq
          rw [hpc]
          have honly q (hq : (s'.intr q).taken = some u) : q = p := by
            by_contra hqp
            rw [hintr, if_neg hqp] at hq
            exact hon (hok.periodic (hmode ▸ hm) q ((congrArg Intr.taken (Function.update_of_ne hqp ..)).trans hq)).left
          refine ⟨hnone, fun q' hq' => (honly q' hq').trans (honly q hq).symm, hadd, fun d op p' q' hd => ?_⟩
          rw [honly q hq]
          exact Option.some.inj <| ((hok.tdel d op p' q' hd).resolve_right hon).symm.trans htt
        case added => rw [hpc, hgone]; exact hok.added
        case gone =>
          rw [hgone]
          exact fun hg => (hon (hok.gone hg).left).elim

omit [DecidableEq C] in
theorem readd {w : Int} {k : Frame} (h : Inv s) (hi : (s.intr p).taken = some t) (hm : (s.timer t).tmode = .Tperiodic)
    (hs : s.tadd p t = .ok (s', w)) : Inv (s'.igoto p (.look k)) := by
  have ⟨hnone, honly, hadd, hdel⟩ := (h.ok t).periodic hm p hi
  have ⟨hl, htt, he, hother, hmode⟩ := tadd_spec h.lists hnone hs
  have hintr q : (s'.igoto p (.look k)).intr q = if q = p then .look k else s.intr q := by rw [he]; exact Function.update_apply ..
  have hpc : s'.pc = s.pc := by rw [he]
  have hlock : s'.lock = s.lock := by rw [he]
  have hgone : s'.gone = s.gone := by rw [he]
  have hpanic : s'.panic = s.panic := by rw [he]
  have htaken q u (hq : ((s'.igoto p (.look k)).intr q).taken = some u) : q ≠ p ∧ (s.intr q).taken = some u := by
    rw [hintr] at hq
    split at hq
    case isTrue => cases hq
    case isFalse hqp => exact ⟨hqp, hq⟩
  refine ⟨hl.same rfl (fun _ => rfl) fun _ => rfl, fun u => ?_, hpanic ▸ h.panic⟩
  have hok := h.ok u
  by_cases hu : u = t
  case neg =>
    have hut : s'.timer u = s.timer u := hother u hu
    refine hok.other (congrArg Timer.tt hut) (fun hm => .inl ?_) (congrFun hlock u) (congrFun hgone u)
      (fun d _ => congrFun hpc d) (fun q hq => (htaken q u hq).right) fun q hq => ?_
    · exact hut ▸ hm
    · rw [hintr] at hq
      split at hq
      case isTrue => cases hq
      case isFalse => exact hq
  case pos =>
    subst hu
    have hgone' : s.gone u ≠ true := fun hg => (hok.gone hg).right.right hm p hi
    have hnot q : ((s'.igoto p (.look k)).intr q).taken ≠ some u := fun hq =>
      (htaken q u hq).left (honly q (htaken q u hq).right)
    constructor
    case locked => exact hpc ▸ hlock ▸ hok.locked
    case tdel =>
      intro d op p' q hd
      rw [hdel d op p' q (hpc ▸ hd)]
      exact .inl htt
    case tadd => exact fun d p' hd => (hadd d p' (hpc ▸ hd)).elim
    case periodic => exact fun _ q hq => (hnot q hq).elim
    case added => exact fun hg => (hgone' (hgone ▸ hg)).elim
    case gone => exact fun hg => (hgone' (hgone ▸ hg)).elim

omit [DecidableEq C] in
theorem timerintr (h : Inv s) (hs : s.timerintr p = some s') : Inv s' := by
  rw [State.timerintr] at hs
  split at hs
  case h_1 => cases hs
  case h_2 k hi =>
    cases hs
    exact loop (h.igoto (.inl rfl) rfl)
  case h_3 t k hi =>
    cases hs
    exact h.igoto (.inr (by rw [hi]; rfl)) rfl
  case h_4 t k hi =>
    split at hs
    case isTrue hm =>
      have htaken : (s.intr p).taken = some t := by rw [hi]; rfl
      split at hs <;> cases hs
      case h_1 e he => exact h.died (tadd_error ((h.ok t).periodic hm p htaken).left he)
      case h_2 s₁ w hadd => exact loop (h.readd htaken hm hadd)
    case isFalse =>
      cases hs
      exact loop (h.igoto (.inl rfl) rfl)
  case h_5 =>
    cases hs
    exact h.igoto (.inl rfl) rfl

omit [DecidableEq P] [DecidableEq T] in
theorem timerdel (h : Inv s) (c : C) (p : P) (t : T) : Inv (s.goto c (.lock .timerdel p t)) := by
  refine ⟨h.lists.same rfl (fun _ => rfl) fun _ => rfl, fun u => (h.ok u).other rfl .inl rfl rfl ?_ (fun _ => id) fun _ => id, h.panic⟩
  exact fun d => goto_locked (x := .lock .timerdel p t) nofun

omit [DecidableEq P] [DecidableEq T] [DecidableEq C] in
theorem begins (h : Begins s) : Inv s where
  lists :=
    { nodup  := fun p => by rw [h.head]; exact List.nodup_nil
      mem    := by simp [h.head, h.tt]
      sorted := fun p => by rw [h.head]; exact .nil }
  ok t :=
    { locked   := fun c hc => by rw [h.pc] at hc; cases hc
      tdel     := fun _ _ _ _ _ => .inr (h.tt t)
      tadd     := fun _ _ _ => h.tt t
      periodic := fun _ p hp => by rw [h.intr] at hp; cases hp
      added    := fun hg => by rw [h.gone] at hg; cases hg
      gone     := fun hg => by rw [h.gone] at hg; cases hg }
  panic := by rw [h.panic]; exact ⟨nofun, nofun⟩

end Inv

theorem invariant [DecidableEq P] [DecidableEq T] [DecidableEq C] : (machine P T C).Invariant Careful Inv where
  init := Inv.begins
  step {s a s'} h hc hs := by
    have ⟨_, hs⟩ := Option.ite_none_right_eq_some.mp hs
    cases a with
    | timeradd c p t tmode tns tf =>
      have ⟨_, hs⟩ := Option.ite_none_right_eq_some.mp hs
      cases hs
      exact h.timeradd c p tmode tns tf hc
    | timerdel c p t =>
      have ⟨_, hs⟩ := Option.ite_none_right_eq_some.mp hs
      cases hs
      exact h.timerdel c p t
    | call c => exact h.call hc hs
    | timerintr p =>
      have ⟨_, hs⟩ := Option.ite_none_right_eq_some.mp hs
      cases hs
      exact h.igoto (.inl rfl) rfl
    | intr p => exact h.timerintr hs
    | fastticks | todsetfreq =>
      cases hs
      exact ⟨h.lists.same rfl (fun _ => rfl) fun _ => rfl,
        fun u => (h.ok u).other rfl .inl rfl rfl (fun _ _ => rfl) (fun _ => id) fun _ => id, h.panic⟩

-- Each timer is on one list at most and once, in the order of time, and a deleted one is on none and is
-- not about to be run.
structure Timers (s : State P T C) : Prop where
  once   : ∀ p, (s.head p).Nodup
  one    : ∀ p q t, t ∈ s.head p → t ∈ s.head q → p = q
  sorted : ∀ p, (s.head p).Pairwise fun t u => s.twhen t ≤ s.twhen u
  gone   : ∀ t, s.gone t → (∀ p, t ∉ s.head p) ∧ ∀ p, (s.intr p).calling ≠ some t

-- `timerintr`, which was called at the time `n`, runs the first timer, whose time has come, and returns when
-- there is no such timer left.
def Runs (n : Int) (s : State P T C) (p : P) : Prop :=
  match s.intr p with
  | .call t _       => s.twhen t ≤ n ∧ ∀ u ∈ s.head p, s.twhen t ≤ s.twhen u
  | .idle | .hzclock => ∀ u ∈ s.head p, n < s.twhen u
  | _ => True

section
variable [DecidableEq P] [DecidableEq T]

theorem loop_runs {k : Frame} (h : Lists s) : Runs k.now (s.loop p k) p := by
  have hsorted := h.sorted p
  have hself {s : State P T C} {i : Intr T} : (s.igoto p i).intr p = i := Function.update_self ..
  rw [State.loop]
  split
  case h_1 hhead =>
    rw [Runs, hself]
    intro u hu
    rw [State.igoto, hhead] at hu
    cases hu
  case h_2 t l hhead =>
    rw [hhead] at hsorted
    have ⟨hle, _⟩ := List.pairwise_cons.mp hsorted
    split
    case isTrue hgt =>
      have hall : ∀ u ∈ s.head p, k.now < s.twhen u := by
        intro u hu
        rw [hhead] at hu
        rcases List.mem_cons.mp hu with rfl | hu
        · exact hgt
        · exact Int.lt_of_lt_of_le hgt (hle u hu)
      rw [Runs, hself]
      by_cases hz : k.callhzclock = 0
      case pos => rw [if_pos hz]; exact hall
      case neg => rw [if_neg hz]; exact hall
    case isFalse hgt =>
      have htt : (s.timer t).tt = some p := h.mem.mp (hhead ▸ List.mem_cons_self)
      rw [if_neg (not_not.mpr htt), Runs, hself]
      have hwhen u : (Function.update s.timer t { s.timer t with tt := none } u).twhen = s.twhen u := by
        by_cases hu : u = t <;> simp [State.twhen, hu]
      change (Function.update s.timer t { s.timer t with tt := none } t).twhen ≤ k.now ∧
        ∀ u ∈ Function.update s.head p l p, (Function.update s.timer t { s.timer t with tt := none } t).twhen ≤
          (Function.update s.timer t { s.timer t with tt := none } u).twhen
      simp only [hwhen, Function.update_self]
      exact ⟨Int.not_lt.mp hgt, hle⟩

theorem Inv.runs {n : Int} (h : Inv s) (hn : (s.intr p).now = some n) (hs : s.timerintr p = some s') : Runs n s' p := by
  rw [State.timerintr] at hs
  split at hs
  case h_1 => cases hs
  case h_2 k hi =>
    rw [hi] at hn
    cases hs
    cases hn
    exact loop_runs h.lists
  case h_3 t k hi =>
    cases hs
    rw [Runs, show (s.igoto p _).intr p = _ from Function.update_self ..]
    trivial
  case h_4 t k hi =>
    rw [hi] at hn
    cases hn
    split at hs
    case isTrue hm =>
      split at hs <;> cases hs
      case h_1 =>
        rw [Runs]
        dsimp only
        rw [hi]
        trivial
      case h_2 s₁ w hadd =>
        have hnone := ((h.ok t).periodic hm p (by rw [hi]; rfl)).left
        exact loop_runs (tadd_spec h.lists hnone hadd).left
    case isFalse =>
      cases hs
      exact loop_runs h.lists
  case h_5 hi =>
    rw [hi] at hn
    cases hn

variable [DecidableEq C]

theorem timers_kept (hr : (machine P T C).Reachable Careful s) :
    Timers s ∧ ∀ p n s', (s.intr p).now = some n → (machine P T C).step s (.intr p) = some s' → Runs n s' p := by
  have h := invariant.holds hr
  refine ⟨?_, fun p n s' hn hs => h.runs hn (Option.ite_none_right_eq_some.mp hs).right⟩
  constructor
  case once => exact h.lists.nodup
  case one => exact fun p q t hp hq => Option.some.inj ((h.lists.mem.mp hp).symm.trans (h.lists.mem.mp hq))
  case sorted => exact h.lists.sorted
  case gone =>
    intro t ht
    have ⟨htt, hcall, _⟩ := (h.ok t).gone ht
    exact ⟨fun p hp => (nomatch htt.symm.trans (h.lists.mem.mp hp)), hcall⟩

end

section
-- A processor with one timer, and a caller.

abbrev One := State (Fin 1) (Fin 1) (Fin 1)

def fresh : One where
  head _  := []
  timer _ := { tmode := .other, tns := 0, tf := false, tt := none, twhen := 0 }
  lock _  := none
  pc _    := .idle
  intr _  := .idle
  alarm _ := 0
  now     := 0
  ticks   := id
  panic   := none
  gone _  := false

theorem fresh_begins : Begins fresh where
  head _ := rfl
  tt _   := rfl
  lock _ := rfl
  pc _   := rfl
  intr _ := rfl
  panic  := rfl
  gone _ := rfl

def period : List (Act (Fin 1) (Fin 1) (Fin 1)) :=
  [.timeradd 0 0 0 .Tperiodic 100000 true, .call 0, .call 0, .call 0, .fastticks 150000, .timerintr 0, .intr 0, .intr 0]

instance (s : One) : ∀ a, Decidable (Careful s a)
  | .timeradd .. => inferInstanceAs (Decidable (_ → _))
  | .call c => inferInstanceAs (Decidable (∀ x ∈ (s.pc c).looks, _ ∧ _))
  | .timerdel .. | .timerintr _ | .intr _ | .fastticks _ | .todsetfreq _ => .isTrue trivial

-- The timer is run, and then deleted after its function has returned.
def run : One :=
  (((machine (Fin 1) (Fin 1) (Fin 1)).guarded Careful).exec fresh
    (period ++ [Act.intr 0, .timerdel 0 0 0, .call 0, .call 0, .call 0])).get (by decide +kernel)

theorem timers_kept_run : run.gone 0 = true ∧ Timers run ∧ ∀ p n s', (run.intr p).now = some n →
    (machine (Fin 1) (Fin 1) (Fin 1)).step run (.intr p) = some s' → Runs n s' p :=
  ⟨by decide +kernel, timers_kept <| (Machine.Reachable.init fresh_begins).guarded (Option.some_get _).symm⟩

-- The timer is deleted while its function is called.
def restarted : One :=
  ((machine (Fin 1) (Fin 1) (Fin 1)).exec fresh
    (period ++ [Act.timerdel 0 0 0, .call 0, .call 0, .intr 0])).get (by decide +kernel)

theorem deleted_restarted : (machine (Fin 1) (Fin 1) (Fin 1)).Reachable (fun _ _ => True) restarted ∧
    restarted.gone 0 = true ∧ 0 ∈ restarted.head 0 ∧ ¬Timers restarted := by
  have hgone : restarted.gone 0 = true := by decide +kernel
  have hmem : 0 ∈ restarted.head 0 := by decide +kernel
  refine ⟨?_, hgone, hmem, fun h => (h.gone 0 hgone).left 0 hmem⟩
  exact (Machine.Reachable.init fresh_begins).exec (fun _ _ _ => trivial) (Option.some_get _).symm

end

end Port.Portclock
