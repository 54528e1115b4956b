import Nix.Port.Rendez

namespace Port.Rendez

variable {P : Type*}

-- It met exactly one other call of the same tag and has its value, or a note came.
def State.Decided (s : State P) (n : Nat) (v : UInt64) : Prop :=
  (∃ m c c', m ≠ n ∧ s.fate n = .paired m ∧ s.fate m = .paired n ∧ s.calls[n]? = some c ∧ s.calls[m]? = some c' ∧
    c.tag = c'.tag ∧ v = c'.val) ∨ s.fate n = .noted ∧ v = ~~~0

-- It is on the chain `h` of its tag.
structure Waits (s : State P) (h : Nat → List P) (p : P) : Prop where
  mem     : p ∈ h (REND (s.rendtag p))
  state   : s.state p = .rendezvous
  call    : s.calls[s.cur p]? = some (Call.mk (s.rendtag p) (s.rendval p))
  fate    : s.fate (s.cur p) = .pending
  readied : s.readied (s.cur p) = 0

-- It was taken from its chain and is not made ready yet.
structure Taken (s : State P) (h : Nat → List P) (p : P) : Prop where
  state   : s.state p = .rendezvous
  not_mem : ∀ i, p ∉ h i
  readied : s.readied (s.cur p) = 0

-- The process that is about to be made ready.
def Pc.wakes : Pc P → Option P
  | .mach q _ => some q
  | .ready q  => some q
  | _         => none

-- It has the lock of the group.
def Pc.Locked : Pc P → Prop
  | .find .. | .mach .. | .unlock .. | .wait | .pull .. | .ready .. | .noted => True
  | _                                                                        => False

def Pc.Calls : Pc P → Prop
  | .rendval .. | .lock .. | .find .. | .mach .. | .unlock .. | .wait | .sched | .woken => True
  | _                                                                                   => False

def Pc.Waiting : Pc P → Prop
  | .wait | .sched | .woken => True
  | _                       => False

-- What a process relies on where it is.
def State.At (s : State P) (h : Nat → List P) (p : P) : Pc P → Prop
  | .rendval t v | .lock t v | .find t v =>
    s.calls[s.cur p]? = some (Call.mk t v) ∧ s.fate (s.cur p) = .pending ∧ s.readied (s.cur p) = 0
  | .mach _ v | .unlock v                => s.Decided (s.cur p) v
  | .wait | .sched | .woken              => Waits s h p ∨ (∀ i, p ∉ h i) ∧ s.Decided (s.cur p) (s.rendval p)
  | _                                    => True

structure Sound (s : State P) (h : Nat → List P) : Prop where
  chains  : Buckets s.hash s.rendhash h
  on      : ∀ p i, p ∈ h i → i = REND (s.rendtag p) ∧ (s.pc p).Waiting
  tags    : ∀ p q i, p ∈ h i → q ∈ h i → s.rendtag p = s.rendtag q → p = q
  off     : ∀ p, s.state p = .rendezvous → (∃ i, p ∈ h i) ∨ ∃ q, (s.pc q).wakes = some p
  taken   : ∀ p q, (s.pc q).wakes = some p → Taken s h p
  place   : ∀ p, s.At h p (s.pc p)
  run     : ∀ p, ¬ (s.pc p).Waiting → s.state p ≠ .rendezvous
  woken   : ∀ p, s.pc p = .woken → s.mach p → s.state p ≠ .rendezvous
  lock    : ∀ p, (s.pc p).Locked ↔ s.lock = some p
  cur     : ∀ p, (s.pc p).Calls → s.cur p < s.calls.length
  one     : ∀ p q, (s.pc p).Calls → (s.pc q).Calls → s.cur p = s.cur q → p = q
  fresh   : ∀ n, s.calls.length ≤ n → s.fate n = .pending ∧ s.readied n = 0
  mate    : ∀ n m, s.fate n = .paired m → s.fate m = .paired n
  readied : ∀ n, s.readied n ≤ 1
  res     : ∀ n v, s.res n = some v → s.Decided n v

variable {s s' : State P} {h h' : Nat → List P} {p q : P} {c : Pc P}

section Keeps

theorem getElem?_of_starts {α : Type*} {l l' : List α} {n : Nat} {x : α} (h : l <+: l') (hn : l[n]? = some x) :
    l'[n]? = some x := by
  obtain ⟨t, rfl⟩ := h
  obtain ⟨hlt, -⟩ := List.getElem?_eq_some_iff.mp hn
  rwa [List.getElem?_append_left hlt]

theorem State.Decided.mono {n : Nat} {v : UInt64} (hd : s.Decided n v) (hc : s.calls <+: s'.calls)
    (hf : ∀ n, s.fate n ≠ .pending → s'.fate n = s.fate n) : s'.Decided n v := by
  rcases hd with ⟨m, c, c', hne, hn, hm, hcn, hcm, htag, hv⟩ | ⟨hn, hv⟩
  · refine .inl ⟨m, c, c', hne, ?_, ?_, getElem?_of_starts hc hcn, getElem?_of_starts hc hcm, htag, hv⟩
    · rw [hf n (hn ▸ nofun), hn]
    · rw [hf m (hm ▸ nofun), hm]
  · exact .inr ⟨by rw [hf n (hn ▸ nofun), hn], hv⟩

-- Nothing changes that a process relies on.
structure Keeps (s s' : State P) (h h' : Nat → List P) (p : P) : Prop where
  rendtag : s'.rendtag p = s.rendtag p
  rendval : (s.pc p).Waiting → s'.rendval p = s.rendval p
  state   : s'.state p = .rendezvous ↔ s.state p = .rendezvous
  cur     : s'.cur p = s.cur p
  mem     : ∀ i, p ∈ h' i ↔ p ∈ h i
  calls   : s.calls <+: s'.calls
  fate    : (s.pc p).Calls → s.fate (s.cur p) = .pending → s'.fate (s.cur p) = .pending
  readied : (s.pc p).Calls → s'.readied (s.cur p) = s.readied (s.cur p)
  fates   : ∀ n, s.fate n ≠ .pending → s'.fate n = s.fate n

theorem Pc.Waiting.calls (hc : c.Waiting) : c.Calls := by
  cases c <;> trivial

theorem Waits.keeps (hw : Waits s h p) (hk : Keeps s s' h h' p) (hc : (s.pc p).Waiting) : Waits s' h' p where
  mem     := by rw [hk.rendtag, hk.mem]; exact hw.mem
  state   := hk.state.mpr hw.state
  call    := by rw [hk.cur, hk.rendtag, hk.rendval hc]; exact getElem?_of_starts hk.calls hw.call
  fate    := by rw [hk.cur]; exact hk.fate hc.calls hw.fate
  readied := by rw [hk.cur, hk.readied hc.calls, hw.readied]

theorem Taken.keeps (ht : Taken s h p) (hk : Keeps s s' h h' p) (hc : (s.pc p).Calls) : Taken s' h' p where
  state     := hk.state.mpr ht.state
  not_mem i := by rw [hk.mem]; exact ht.not_mem i
  readied   := by rw [hk.cur, hk.readied hc, ht.readied]

theorem Keeps.place (hk : Keeps s s' h h' p) (hcalls : c.Calls → (s.pc p).Calls) (hwaiting : c.Waiting → (s.pc p).Waiting)
    (hat : s.At h p c) : s'.At h' p c := by
  have hdecided {v : UInt64} (hd : s.Decided (s.cur p) v) : s'.Decided (s'.cur p) v := by
    rw [hk.cur]
    exact hd.mono hk.calls hk.fates
  have hcall {t v : UInt64} (hc : (s.pc p).Calls)
      (h : s.calls[s.cur p]? = some (Call.mk t v) ∧ s.fate (s.cur p) = .pending ∧ s.readied (s.cur p) = 0) :
      s'.calls[s'.cur p]? = some (Call.mk t v) ∧ s'.fate (s'.cur p) = .pending ∧ s'.readied (s'.cur p) = 0 := by
    rw [hk.cur, hk.readied hc]
    exact ⟨getElem?_of_starts hk.calls h.left, hk.fate hc h.right.left, h.right.right⟩
  have hwaits (hc : (s.pc p).Waiting) (h : Waits s h p ∨ (∀ i, p ∉ h i) ∧ s.Decided (s.cur p) (s.rendval p)) :
      Waits s' h' p ∨ (∀ i, p ∉ h' i) ∧ s'.Decided (s'.cur p) (s'.rendval p) := by
    refine h.imp (fun hw => hw.keeps hk hc) fun ⟨hnot, hd⟩ => ⟨fun i => ?_, ?_⟩
    · rw [hk.mem]
      exact hnot i
    · rw [hk.rendval hc]
      exact hdecided hd
  cases c
  case rendval | lock | find => exact hcall (hcalls trivial) hat
  case mach | unlock => exact hdecided hat
  case wait | sched | woken => exact hwaits (hwaiting trivial) hat
  all_goals trivial

end Keeps

theorem at_iff (hc : c.Waiting) : s.At h p c ↔ Waits s h p ∨ (∀ i, p ∉ h i) ∧ s.Decided (s.cur p) (s.rendval p) := by
  cases c <;> first | exact Iff.rfl | exact hc.elim

theorem Sound.waiting (hs : Sound s h) (hp : s.state p = .rendezvous) : (s.pc p).Waiting :=
  Classical.byContradiction fun hc => hs.run p hc hp

theorem Sound.taken_keeps (hs : Sound s h) (hk : Keeps s s' h h' p) (hq : (s.pc q).wakes = some p) : Taken s' h' p :=
  have ht := hs.taken p q hq
  ht.keeps hk (hs.waiting ht.state).calls

variable [DecidableEq P]

section Move

-- A process goes from one place to another one.
structure Moves (s : State P) (h : Nat → List P) (p : P) (c : Pc P) (lock : Option P) : Prop where
  wakes : c.wakes = (s.pc p).wakes
  on    : (∃ i, p ∈ h i) → c.Waiting
  run   : ¬ c.Waiting → s.state p ≠ .rendezvous
  woken : c = .woken → s.mach p → s.state p ≠ .rendezvous
  calls : c.Calls → (s.pc p).Calls
  waiting : c.Waiting → (s.pc p).Waiting
  place : s.At h p c
  lock  : ∀ r, (Function.update s.pc p c r).Locked ↔ lock = some r

theorem update_pc {R : P → Pc P → Prop} (ho : ∀ r, r ≠ p → R r (s.pc r)) (hp : R p c) (r : P) :
    R r (Function.update s.pc p c r) := by
  by_cases hr : r = p
  · subst hr
    rwa [Function.update_self]
  · rw [Function.update_of_ne hr]
    exact ho r hr

theorem Sound.move (hs : Sound s h) {lock : Option P} {res : Nat → Option UInt64} (hm : Moves s h p c lock)
    (hres : ∀ n v, res n = some v → s.Decided n v) : Sound (State.goto { s with lock, res } p c) h := by
  have hkeeps (r : P) : Keeps s (State.goto { s with lock, res } p c) h h r :=
    ⟨rfl, fun _ => rfl, Iff.rfl, rfl, fun _ => Iff.rfl, List.prefix_refl _, fun _ hf => hf, fun _ => rfl, fun _ _ => rfl⟩
  have hwakes (r : P) : (Function.update s.pc p c r).wakes = (s.pc r).wakes :=
    update_pc (R := fun r d => d.wakes = (s.pc r).wakes) (fun _ _ => rfl) hm.wakes r
  have hcalls (r : P) : (Function.update s.pc p c r).Calls → (s.pc r).Calls :=
    update_pc (R := fun r d => d.Calls → (s.pc r).Calls) (fun _ _ => id) hm.calls r
  constructor
  case chains => exact hs.chains
  case on =>
    intro r i hr
    refine ⟨(hs.on r i hr).left, ?_⟩
    exact update_pc (R := fun r d => r ∈ h i → d.Waiting) (fun r _ hr => (hs.on r i hr).right) (fun hp => hm.on ⟨i, hp⟩) r hr
  case tags => exact hs.tags
  case off =>
    intro r hr
    exact (hs.off r hr).imp_right fun ⟨q, hq⟩ => ⟨q, (hwakes q).trans hq⟩
  case taken =>
    intro r q hq
    exact hs.taken_keeps (hkeeps r) ((hwakes q).symm.trans hq)
  case place =>
    intro r
    refine update_pc (R := fun r d => State.At _ h r d) (fun r _ => ?_) ?_ r
    · exact (hkeeps r).place id id (hs.place r)
    · exact (hkeeps p).place hm.calls hm.waiting hm.place
  case run =>
    exact update_pc (R := fun r d => ¬ d.Waiting → s.state r ≠ .rendezvous) (fun r _ => hs.run r) hm.run
  case woken =>
    exact update_pc (R := fun r d => d = .woken → s.mach r → s.state r ≠ .rendezvous) (fun r _ => hs.woken r) hm.woken
  case lock => exact hm.lock
  case cur => exact fun r hr => hs.cur r (hcalls r hr)
  case one => exact fun r q hr hq => hs.one r q (hcalls r hr) (hcalls q hq)
  case fresh => exact hs.fresh
  case mate => exact hs.mate
  case readied => exact hs.readied
  case res => exact fun n v hn => (hres n v hn).mono (List.prefix_refl _) fun _ _ => rfl

theorem Sound.keeplock (hs : Sound s h) (hc : c.Locked ↔ (s.pc p).Locked) (r : P) :
    (Function.update s.pc p c r).Locked ↔ s.lock = some r :=
  update_pc (R := fun r d => d.Locked ↔ s.lock = some r) (fun r _ => hs.lock r) (hc.trans <| hs.lock p) r

theorem Sound.takelock (hs : Sound s h) (hnone : s.lock = none) (hc : c.Locked) (r : P) :
    (Function.update s.pc p c r).Locked ↔ some p = some r := by
  refine update_pc (R := fun r d => d.Locked ↔ some p = some r) (fun r hr => ?_) (iff_of_true hc rfl) r
  rw [hs.lock r, hnone]
  exact iff_of_false nofun fun he => hr (Option.some.inj he).symm

theorem Sound.putlock (hs : Sound s h) (hp : (s.pc p).Locked) (hc : ¬ c.Locked) (r : P) :
    (Function.update s.pc p c r).Locked ↔ none = some r := by
  refine update_pc (R := fun r d => d.Locked ↔ none = some r) (fun r hr => ?_) (iff_of_false hc nofun) r
  rw [hs.lock r, (hs.lock p).mp hp]
  exact iff_of_false (fun he => hr (Option.some.inj he).symm) nofun

end Move

section Steps

omit [DecidableEq P] in
theorem Pc.Locked.of_wakes (hc : c.wakes = some q) : c.Locked := by
  cases c <;> trivial

omit [DecidableEq P] in
theorem Pc.not_waiting (hc : c.wakes = some q) : ¬ c.Waiting := by
  cases c <;> first | exact id | contradiction

omit [DecidableEq P] in
theorem Sound.eq_of_locked (hs : Sound s h) {r : P} (hp : (s.pc p).Locked) (hr : (s.pc r).wakes = some q) : r = p :=
  Option.some.inj <| ((hs.lock r).mp (.of_wakes hr)).symm.trans <| (hs.lock p).mp hp

theorem Sound.setval (hs : Sound s h) (x : UInt64) (hp : ¬ (s.pc p).Waiting) :
    Sound { s with rendval := Function.update s.rendval p x } h := by
  have hkeeps (r : P) : Keeps s { s with rendval := Function.update s.rendval p x } h h r := by
    refine ⟨rfl, fun hr => ?_, Iff.rfl, rfl, fun _ => Iff.rfl, List.prefix_refl _, fun _ hf => hf, fun _ => rfl, fun _ _ => rfl⟩
    exact Function.update_of_ne (fun he : r = p => hp <| he ▸ hr) ..
  exact
    { hs with
      taken := fun r q hq => hs.taken_keeps (hkeeps r) hq
      place := fun r => (hkeeps r).place id id (hs.place r)
      res   := fun n v hn => (hs.res n v hn).mono (List.prefix_refl _) fun _ _ => rfl }

omit [DecidableEq P] in
theorem Sound.cpu (hs : Sound s h) {state : P → PState} {mach : P → Bool}
    (hstate : ∀ r, state r = .rendezvous ↔ s.state r = .rendezvous)
    (hwoken : ∀ r, s.pc r = .woken → mach r → s.state r ≠ .rendezvous) : Sound { s with state, mach } h := by
  have hkeeps (r : P) : Keeps s { s with state, mach } h h r :=
    ⟨rfl, fun _ => rfl, hstate r, rfl, fun _ => Iff.rfl, List.prefix_refl _, fun _ hf => hf, fun _ => rfl, fun _ _ => rfl⟩
  exact
    { hs with
      off   := fun r hr => hs.off r <| (hstate r).mp hr
      taken := fun r q hq => hs.taken_keeps (hkeeps r) hq
      place := fun r => (hkeeps r).place id id (hs.place r)
      run   := fun r hr => mt (hstate r).mp <| hs.run r hr
      woken := fun r hr hm => mt (hstate r).mp <| hwoken r hr hm
      res   := fun n v hn => (hs.res n v hn).mono (List.prefix_refl _) fun _ _ => rfl }

theorem Sound.call (hs : Sound s h) (t v : UInt64) (hp : s.pc p = .user) :
    Sound (State.goto
      { s with calls := s.calls ++ [Call.mk t v], cur := Function.update s.cur p s.calls.length } p (.rendval t v)) h := by
  let c : Pc P := .rendval t v
  have hfresh := hs.fresh s.calls.length (Nat.le_refl _)
  have hrun : s.state p ≠ .rendezvous := hs.run p (hp ▸ id)
  have hkeeps (r : P) (hr : r ≠ p) : Keeps s (State.goto
      { s with calls := s.calls ++ [Call.mk t v], cur := Function.update s.cur p s.calls.length } p c) h h r :=
    ⟨rfl, fun _ => rfl, Iff.rfl, Function.update_of_ne hr .., fun _ => Iff.rfl, List.prefix_append _ _, fun _ hf => hf,
      fun _ => rfl, fun _ _ => rfl⟩
  have hwakes (r : P) : (Function.update s.pc p c r).wakes = (s.pc r).wakes :=
    update_pc (R := fun r d => d.wakes = (s.pc r).wakes) (fun _ _ => rfl) (by rw [hp]; rfl) r
  have hlt : s.calls.length < (s.calls ++ [Call.mk t v]).length := by
    rw [List.length_append, List.length_singleton]
    exact Nat.lt_succ_self _
  have hcur (r : P) (hr : r ≠ p) (hc : (Function.update s.pc p c r).Calls) : s.cur r < s.calls.length := by
    rw [Function.update_of_ne hr] at hc
    exact hs.cur r hc
  constructor
  case chains => exact hs.chains
  case on =>
    intro r i hr
    have hne : r ≠ p := by
      rintro rfl
      exact absurd (hs.on r i hr).right (hp ▸ id)
    refine ⟨(hs.on r i hr).left, ?_⟩
    change (Function.update s.pc p c r).Waiting
    rw [Function.update_of_ne hne]
    exact (hs.on r i hr).right
  case tags => exact hs.tags
  case off => exact fun r hr => (hs.off r hr).imp_right fun ⟨q, hq⟩ => ⟨q, (hwakes q).trans hq⟩
  case taken =>
    intro r q hq
    have hq := (hwakes q).symm.trans hq
    have hne : r ≠ p := fun he => hrun <| he ▸ (hs.taken r q hq).state
    exact hs.taken_keeps (hkeeps r hne) hq
  case place =>
    refine update_pc (R := fun r d => State.At _ h r d) (fun r hr => (hkeeps r hr).place id id (hs.place r)) ?_
    refine ⟨?_, ?_, ?_⟩
    all_goals
      dsimp only [State.goto]
      rw [Function.update_self]
    · rw [List.getElem?_append_right (Nat.le_refl _), Nat.sub_self]
      rfl
    · exact hfresh.left
    · exact hfresh.right
  case run =>
    exact update_pc (R := fun r d => ¬ d.Waiting → s.state r ≠ .rendezvous) (fun r _ => hs.run r) fun _ => hrun
  case woken =>
    exact update_pc (R := fun r d => d = .woken → s.mach r → s.state r ≠ .rendezvous) (fun r _ => hs.woken r) nofun
  case lock => exact hs.keeplock <| iff_of_false id (hp ▸ id)
  case cur =>
    intro r hr
    by_cases hne : r = p
    case pos =>
      subst hne
      change Function.update s.cur r s.calls.length r < _
      rwa [Function.update_self]
    case neg =>
      change Function.update s.cur p s.calls.length r < _
      rw [Function.update_of_ne hne]
      exact Nat.lt_trans (hcur r hne hr) hlt
  case one =>
    intro r q hr hq he
    change Function.update s.cur p s.calls.length r = Function.update s.cur p s.calls.length q at he
    by_cases hrp : r = p <;> by_cases hqp : q = p
    · rw [hrp, hqp]
    · rw [hrp, Function.update_self, Function.update_of_ne hqp] at he
      exact absurd he.symm <| Nat.ne_of_lt <| hcur q hqp hq
    · rw [hqp, Function.update_self, Function.update_of_ne hrp] at he
      exact absurd he <| Nat.ne_of_lt <| hcur r hrp hr
    · rw [Function.update_of_ne hrp, Function.update_of_ne hqp] at he
      change (Function.update s.pc p c r).Calls at hr
      change (Function.update s.pc p c q).Calls at hq
      rw [Function.update_of_ne hrp] at hr
      rw [Function.update_of_ne hqp] at hq
      exact hs.one r q hr hq he
  case fresh => exact fun n hn => hs.fresh n <| Nat.le_of_lt <| Nat.lt_of_lt_of_le hlt hn
  case mate => exact hs.mate
  case readied => exact hs.readied
  case res => exact fun n v hn => (hs.res n v hn).mono (List.prefix_append _ _) fun _ _ => rfl

theorem Sound.makeready (hs : Sound s h) (hp : (s.pc p).wakes = some q) (hc : c.wakes = none ∧ c.Locked ∧ ¬ c.Waiting)
    (hcalls : c.Calls → (s.pc p).Calls) (hat : s.At h p c) : Sound ((s.makeready q).goto p c) h := by
  have ht := hs.taken q p hp
  have hqw := hs.waiting ht.state
  have hqp : q ≠ p := fun he => Pc.not_waiting hp <| he ▸ hqw
  have hprun : s.state p ≠ .rendezvous := hs.run p <| Pc.not_waiting hp
  have hstate (r : P) (hr : r ≠ q) : Function.update s.state q .ready r = s.state r := Function.update_of_ne hr ..
  have hrun (r : P) : Function.update s.state q .ready r = .rendezvous → r ≠ q ∧ s.state r = .rendezvous := by
    intro he
    by_cases hr : r = q
    · subst hr
      rw [Function.update_self] at he
      contradiction
    · exact ⟨hr, hstate r hr ▸ he⟩
  have hkeeps (r : P) (hr : r ≠ q) : Keeps s ((s.makeready q).goto p c) h h r := by
    refine ⟨rfl, fun _ => rfl, ?_, rfl, fun _ => Iff.rfl, List.prefix_refl _, fun _ hf => hf, fun hrc => ?_, fun _ _ => rfl⟩
    · change Function.update s.state q .ready r = _ ↔ _
      rw [hstate r hr]
    · exact Function.update_of_ne (fun he => hr <| hs.one r q hrc hqw.calls he) ..
  have hwakes (r : P) : (Function.update s.pc p c r).wakes = none := by
    refine update_pc (R := fun _ d => d.wakes = none) (fun r hr => ?_) hc.left r
    cases hw : (s.pc r).wakes
    case none => rfl
    case some x => exact absurd (hs.eq_of_locked (.of_wakes hp) hw) hr
  have hcalls' (r : P) : (Function.update s.pc p c r).Calls → (s.pc r).Calls :=
    update_pc (R := fun r d => d.Calls → (s.pc r).Calls) (fun _ _ => id) hcalls r
  constructor
  case chains => exact hs.chains
  case on =>
    intro r i hr
    have hne : r ≠ p := by
      rintro rfl
      exact Pc.not_waiting hp (hs.on r i hr).right
    refine ⟨(hs.on r i hr).left, ?_⟩
    change (Function.update s.pc p c r).Waiting
    rw [Function.update_of_ne hne]
    exact (hs.on r i hr).right
  case tags => exact hs.tags
  case off =>
    intro r hr
    obtain ⟨hne, hr⟩ := hrun r hr
    rcases hs.off r hr with hon | ⟨x, hx⟩
    · exact .inl hon
    · obtain rfl := hs.eq_of_locked (.of_wakes hp) hx
      exact absurd (Option.some.inj <| hx.symm.trans hp) hne
  case taken => exact fun r x hx => absurd ((hwakes x).symm.trans hx) nofun
  case place =>
    refine update_pc (R := fun r d => State.At _ h r d) (fun r _ => ?_) ?_
    · by_cases hr : r = q
      case neg => exact (hkeeps r hr).place id id (hs.place r)
      case pos =>
        subst hr
        have ⟨hnot, hd⟩ := ((at_iff hqw).mp (hs.place r)).resolve_left fun hw => ht.not_mem _ hw.mem
        exact (at_iff hqw).mpr <| .inr ⟨hnot, hd.mono (List.prefix_refl _) fun _ _ => rfl⟩
    · exact (hkeeps p hqp.symm).place hcalls (fun hw => absurd hw hc.right.right) hat
  case run =>
    refine update_pc (R := fun r d => ¬ d.Waiting → State.state _ r ≠ .rendezvous) (fun r _ hw hr => ?_) fun _ hr => ?_
    · exact hs.run r hw (hrun r hr).right
    · exact hprun (hrun p hr).right
  case woken =>
    refine update_pc (R := fun r d => d = .woken → s.mach r → State.state _ r ≠ .rendezvous) (fun r _ hw hm hr => ?_)
      fun _ _ hr => ?_
    · exact hs.woken r hw hm (hrun r hr).right
    · exact hprun (hrun p hr).right
  case lock => exact hs.keeplock <| iff_of_true hc.right.left <| .of_wakes hp
  case cur => exact fun r hr => hs.cur r (hcalls' r hr)
  case one => exact fun r x hr hx => hs.one r x (hcalls' r hr) (hcalls' x hx)
  case fresh =>
    intro n hn
    refine ⟨(hs.fresh n hn).left, ?_⟩
    have hne : n ≠ s.cur q := fun he => absurd (hs.cur q hqw.calls) (Nat.not_lt.mpr <| he ▸ hn)
    exact (Function.update_of_ne hne ..).trans (hs.fresh n hn).right
  case mate => exact hs.mate
  case readied =>
    intro n
    change Function.update s.readied (s.cur q) (s.readied (s.cur q) + 1) n ≤ 1
    by_cases hn : n = s.cur q
    · rw [hn, Function.update_self, ht.readied]
    · rw [Function.update_of_ne hn]
      exact hs.readied n
  case res => exact fun n v hn => (hs.res n v hn).mono (List.prefix_refl _) fun _ _ => rfl

theorem Sound.take (hs : Sound s h) {x : UInt64} {fate : Nat → Fate} {hash : Nat → Option P} {rendhash : P → Option P}
    (hp : (s.pc p).Locked ∧ (s.pc p).wakes = none ∧ ¬ (s.pc p).Waiting) (hq : Waits s h q)
    (hc : c.wakes = some q ∧ ¬ c.Waiting) (hcalls : c.Calls → (s.pc p).Calls) (hb : Buckets hash rendhash h')
    (hmem : ∀ r ≠ q, ∀ i, r ∈ h' i ↔ r ∈ h i) (hnot : ∀ i, q ∉ h' i)
    (hfates : ∀ n, n ≠ s.cur q → ¬ ((s.pc p).Calls ∧ n = s.cur p) → fate n = s.fate n)
    (hpend : (s.pc p).Calls → s.fate (s.cur p) = .pending) (hmate : ∀ n m, fate n = .paired m → fate m = .paired n)
    (hd : State.Decided (State.goto { s with rendval := Function.update s.rendval q x, fate, hash, rendhash } p c) (s.cur q) x)
    (hat : State.At (State.goto { s with rendval := Function.update s.rendval q x, fate, hash, rendhash } p c) h' p c) :
    Sound (State.goto { s with rendval := Function.update s.rendval q x, fate, hash, rendhash } p c) h' := by
  have hqw := hs.waiting hq.state
  have hfates' (n : Nat) (hn : s.fate n ≠ .pending) : fate n = s.fate n :=
    hfates n (fun he => hn <| he ▸ hq.fate) fun ⟨hpc, he⟩ => hn <| he ▸ hpend hpc
  have hkeeps (r : P) (hrq : r ≠ q) (hrp : r ≠ p) :
      Keeps s (State.goto { s with rendval := Function.update s.rendval q x, fate, hash, rendhash } p c) h h' r := by
    refine ⟨rfl, fun _ => Function.update_of_ne hrq .., Iff.rfl, rfl, hmem r hrq, List.prefix_refl _, fun hr hf => ?_,
      fun _ => rfl, hfates'⟩
    rw [← hf]
    exact hfates _ (fun he => hrq <| hs.one r q hr hqw.calls he) fun ⟨hpc, he⟩ => hrp <| hs.one r p hr hpc he
  have hcalls' (r : P) : (Function.update s.pc p c r).Calls → (s.pc r).Calls :=
    update_pc (R := fun r d => d.Calls → (s.pc r).Calls) (fun _ _ => id) hcalls r
  have hon (r : P) (i : Nat) (hr : r ∈ h' i) : r ∈ h i ∧ r ≠ q :=
    have hne : r ≠ q := fun he => hnot i <| he ▸ hr
    ⟨(hmem r hne i).mp hr, hne⟩
  have hqp : q ≠ p := fun he => hp.right.right <| he ▸ hqw
  constructor
  case chains => exact hb
  case on =>
    intro r i hr
    obtain ⟨hr, -⟩ := hon r i hr
    have hne : r ≠ p := fun he => hp.right.right <| he ▸ (hs.on r i hr).right
    refine ⟨(hs.on r i hr).left, ?_⟩
    change (Function.update s.pc p c r).Waiting
    rw [Function.update_of_ne hne]
    exact (hs.on r i hr).right
  case tags => exact fun r t i hr ht => hs.tags r t i (hon r i hr).left (hon t i ht).left
  case off =>
    intro r hr
    by_cases hrq : r = q
    case pos =>
      refine .inr ⟨p, ?_⟩
      change (Function.update s.pc p c p).wakes = _
      rw [Function.update_self, hrq, hc.left]
    case neg =>
      rcases hs.off r hr with ⟨i, hri⟩ | ⟨t, ht⟩
      · exact .inl ⟨i, (hmem r hrq i).mpr hri⟩
      · obtain rfl := hs.eq_of_locked hp.left ht
        exact absurd (hp.right.left.symm.trans ht) nofun
  case taken =>
    intro r t ht
    change (Function.update s.pc p c t).wakes = _ at ht
    by_cases htp : t = p
    case pos =>
      rw [htp, Function.update_self, hc.left] at ht
      obtain rfl := Option.some.inj ht
      exact ⟨hq.state, hnot, hq.readied⟩
    case neg =>
      rw [Function.update_of_ne htp] at ht
      exact absurd (hs.eq_of_locked hp.left ht) htp
  case place =>
    refine update_pc (R := fun r d => State.At _ h' r d) (fun r hrp => ?_) hat
    by_cases hrq : r = q
    case neg => exact (hkeeps r hrq hrp).place id id (hs.place r)
    case pos =>
      subst hrq
      refine (at_iff hqw).mpr <| .inr ⟨hnot, ?_⟩
      dsimp only [State.goto]
      rw [Function.update_self]
      exact hd
  case run =>
    exact update_pc (R := fun r d => ¬ d.Waiting → s.state r ≠ .rendezvous) (fun r _ => hs.run r) fun _ => hs.run p hp.right.right
  case woken =>
    refine update_pc (R := fun r d => d = .woken → s.mach r → s.state r ≠ .rendezvous) (fun r _ => hs.woken r) fun _ _ => ?_
    exact hs.run p hp.right.right
  case lock => exact hs.keeplock <| iff_of_true (.of_wakes hc.left) hp.left
  case cur => exact fun r hr => hs.cur r (hcalls' r hr)
  case one => exact fun r t hr ht => hs.one r t (hcalls' r hr) (hcalls' t ht)
  case fresh =>
    intro n hn
    refine ⟨?_, (hs.fresh n hn).right⟩
    rw [← (hs.fresh n hn).left]
    refine hfates n (fun he => ?_) fun ⟨hpc, he⟩ => ?_
    · exact absurd (hs.cur q hqw.calls) (Nat.not_lt.mpr <| he ▸ hn)
    · exact absurd (hs.cur p hpc) (Nat.not_lt.mpr <| he ▸ hn)
  case mate => exact hmate
  case readied => exact hs.readied
  case res => exact fun n v hn => (hs.res n v hn).mono (List.prefix_refl _) hfates'

end Steps

end Port.Rendez
