import Nix.Ip.ArpSteps

namespace Ip.Arp

variable {s s' : Arp} {h h' : Nat → List Ent} {r r' : List Ent} {p p' : Option Ent → List Blk} {a b : Ent} {e : Arpent}

section Rxmitsols

variable {ifc : Option Nat} {canrlock : Nat → Bool} {ifcid : Nat → UInt8} {mcast : Blk → Bool} {now : Nat}

-- None of the packets from one on has a multicast source.
def Unicast (s : Arp) (mcast : Blk → Bool) (xp : Option Blk) : Prop :=
  ∀ bp ∈ (s.packets xp).getD [], mcast bp = false

theorem Lists.unicast (hl : Lists s h r p) {i : Option Ent} (hu : s.Unicast mcast (s.holds i)) : ∀ bp ∈ p i, mcast bp = false := by
  rwa [Unicast, hl.packets_eq i, Option.getD_some] at hu

theorem Lists.dodrops (hl : Lists s h r p) (hifc : p none ≠ [] → ifc.isSome) (hu : ∀ bp ∈ p none, mcast bp = false) :
    ∃ s', s.dodrops ifc mcast = some s' ∧ Lists s' h r (Function.update p none []) ∧ s'.cache = s.cache ∧
      s'.rlocks = s.rlocks ∧ s'.sending = s.sending ∧ s'.dropl = none := by
  have hpackets : s.packets s.dropf = some (p none) := hl.packets_eq none
  rw [Arp.dodrops, hpackets, Option.bind_eq_bind, Option.bind_some]
  dsimp only
  split
  case h_1 hnil =>
    have := hl.dropped s.rlocks
    rw [hnil, List.append_nil] at this
    exact ⟨_, rfl, this, rfl, rfl, rfl, rfl⟩
  case h_2 hne =>
    have : (none : Option Nat).isSome := hifc fun hnil => hne hnil
    contradiction
  case h_3 i hne =>
    have hfilter : (p none).filter mcast = [] := List.filter_eq_nil_iff.mpr fun bp hb => by
      rw [hu bp hb]
      exact Bool.false_ne_true
    have hrlocks : Function.update s.rlocks i (s.rlocks i - ((p none).filter mcast).length) = s.rlocks := by
      rw [hfilter, List.length_nil, Nat.cast_zero, sub_zero, Function.update_eq_self]
    exact ⟨_, rfl, hl.dropped _, rfl, hrlocks, rfl, rfl⟩

theorem Lists.expire (hl : Lists s h r p) (hdropl : s.dropl = (p none).getLast?)
    (ha : ∀ i, a ∈ h i → i = haship (s.cache a).ip) :
    ∃ s' h' p', s.expire a = some s' ∧ Lists s' h' (r.erase a) p' ∧ Moved s h r p s' h' (r.erase a) p' a ∧
      (s'.cache a).state = .UNUSED ∧ (s'.cache a).nextrxt = none ∧ (∀ i, a ∉ h' i) ∧ p' (some a) = [] ∧
      p' none = p none ++ p (some a) := by
  have hhold : (s.cache a).hold = (p (some a)).head? := hl.packets.head (some a)
  let e := { s.cache a with hold := none }
  have hip : ((s.set a e).cache a).ip = (s.cache a).ip := (congrArg Arpent.ip <| set_self s a e).trans rfl
  rw [Arp.expire]
  dsimp only
  by_cases hnil : p (some a) = []
  case pos =>
    have hnone : (s.cache a).hold = none := by rw [hhold, hnil, List.head?_nil]
    have h₁ : Lists (s.set a e) h r p := hl.set (.inr rfl) (.inr rfl) hnone.symm fun _ => rfl
    obtain ⟨s', h', hs', hl', hm, hstate, hnext, hnot, -⟩ := h₁.cleanarpent (hip.symm ▸ ha) hnil
    rw [if_pos hnone]
    exact ⟨s', h', p, hs', hl', Moved.set.trans hm, hstate, hnext, hnot, hnil, by rw [hnil, List.append_nil]⟩
  case neg =>
    have hsome : (s.cache a).hold ≠ none := by rwa [hhold, ne_eq, List.head?_eq_none_iff]
    let s₁ : Arp := { s.set a e with
      dropf := if s.dropl = none then (s.cache a).hold else s.dropf
      list  := updateAt s.list s.dropl (s.cache a).hold
      dropl := s.dropl }
    let p₁ := Function.update (Function.update p (some a) []) none (p none ++ p (some a))
    have h₁ : Lists s₁ h r p₁ := hl.unreachable a hdropl
    have hp (b : Ent) : p₁ (some b) = Function.update p (some a) [] (some b) := Function.update_of_ne (Option.some_ne_none b) ..
    have hp₁ : p₁ (some a) = [] := (hp a).trans <| Function.update_self ..
    have hm₁ : Moved s h r p s₁ h r p₁ a := .of_cache rfl (fun b hb => (hp b).trans <| packets_of_ne hb) rfl rfl
    obtain ⟨s', h', hs', hl', hm, hstate, hnext, hnot, -⟩ := h₁.cleanarpent (a := a) (hip.symm ▸ ha) hp₁
    refine ⟨s', h', p₁, ?_, hl', hm₁.trans hm, hstate, hnext, hnot, hp₁, Function.update_self ..⟩
    rw [if_neg hsome, ← hs']
    change (if s.dropl = none then _ else _ : Arp).cleanarpent a = _
    by_cases hd : s.dropl = none
    case pos =>
      rw [if_pos hd]
      simp only [s₁, Arp.set, hd, if_true, updateAt, e]
    case neg =>
      rw [if_neg hd]
      simp only [s₁, Arp.set, hd, if_false, e]

theorem Sound.drop (hl : Lists s h r p) (hp : ∀ a, Placed s h r p a)
    (hlocks : ∀ i, s.rlocks i = if s.sending.map Prod.snd = some i then 1 else 0) (hifc : p none ≠ [] → ifc.isSome)
    (hu : ∀ bp ∈ p none, mcast bp = false) : ∃ s' p', s.dodrops ifc mcast = some s' ∧ Sound s' h r p' := by
  obtain ⟨s', hs', hl', hcache, hrlocks, hsending, hdropl⟩ := hl.dodrops hifc hu
  refine ⟨s', _, hs', hl', ?_, fun a => (hp a).congr ?_ (fun _ => Iff.rfl) Iff.rfl ?_, ?_⟩
  · rw [Function.update_self, hdropl, List.getLast?_nil]
  · rw [hcache]
    exact ⟨rfl, rfl, rfl⟩
  · rw [Function.update_of_ne (Option.some_ne_none a)]
  · rw [hrlocks, hsending]
    exact hlocks

theorem solicit_none (k : Nat) : solicit canrlock ifcid mcast k s none ifc = s.dodrops ifc mcast := by
  rw [solicit]

theorem Sound.expire (hs : Sound s h r p) (i : Nat) (hu : ∀ bp ∈ p none, mcast bp = false)
    (hua : ∀ bp ∈ p (some a), mcast bp = false) :
    ∃ s₁ s' h' r' p', s.expire a = some s₁ ∧ (s₁.cache a).nextrxt = none ∧ s₁.dodrops (some i) mcast = some s' ∧
      Sound s' h' r' p' := by
  obtain ⟨s₁, h₁, p₁, hs₁, hl, hm, hstate, hnext, hnot, hp, hpn⟩ := hs.toLists.expire hs.dropl (hs.hash_eq a)
  have hr := (hs.rxmts.nodup ()).not_mem_erase (a := a)
  have hplaced : Placed s₁ h₁ (r.erase a) p₁ a :=
    { keyed i    := iff_of_false (hnot i) fun hk => hk.right hstate
      unresolved := iff_of_false hr fun hu => absurd (hstate.symm.trans hu.left) nofun
      waiting hne := absurd hp hne
      ifc hm     := absurd hm hr }
  obtain ⟨s', p', hs', hsound⟩ : ∃ s' p', s₁.dodrops (some i) mcast = some s' ∧ Sound s' h₁ (r.erase a) p' := Sound.drop hl
    (fun b => if hb : b = a then hb ▸ hplaced else (hs.placed b).moved hm hb)
    (fun i => by rw [hm.rlocks, hm.sending]; exact hs.locks i) (fun _ => rfl) fun bp hb => by
      rw [hpn, List.mem_append] at hb
      exact hb.elim (hu bp) (hua bp)
  exact ⟨s₁, s', h₁, _, p', hs₁, hnext, hs', hsound⟩

theorem Sound.solicit (hs : Sound s h r p) (hsending : s.sending = none) (k : Nat) (ha : a ∈ r)
    (hsafe : ∀ i ∈ (s.cache a).ifc, if (s.cache a).rxtsrem = 0 ∨ !canrlock i then
      s.Unicast mcast s.dropf ∧ s.Unicast mcast (s.cache a).hold else (s.cache a).ifcid = ifcid i) :
    ∃ s' h' r' p', Arp.solicit canrlock ifcid mcast (k + 1) s (some a) ifc = some s' ∧ Sound s' h' r' p' := by
  obtain ⟨i, hi⟩ := Option.isSome_iff_exists.mp <| (hs.placed a).ifc ha
  have hsafe := hsafe i hi
  rw [Arp.solicit, hi, Option.bind_eq_bind, Option.bind_some]
  dsimp only
  split at hsafe
  case isTrue hexp =>
    obtain ⟨s₁, s', h', r', p', hs₁, hnext, hs', hsound⟩ := hs.expire (a := a) i (hs.unicast (i := none) hsafe.left)
      (hs.unicast (i := some a) hsafe.right)
    rw [if_pos hexp, hs₁]
    exact ⟨s', h', r', p', by rw [← hs', ← solicit_none k, ← hnext]; rfl, hsound⟩
  case isFalse hexp =>
    rw [if_neg hexp, if_neg (not_not.mpr hsafe)]
    refine ⟨_, h, r, p, rfl, ⟨hs.hashes, hs.rxmts, hs.packets, hs.last, hs.fate, hs.once⟩, hs.dropl,
      fun b => ⟨(hs.placed b).keyed, (hs.placed b).unresolved, (hs.placed b).waiting, (hs.placed b).ifc⟩, fun j => ?_⟩
    have hlock := hs.locks j
    rw [hsending, Option.map_none, if_neg nofun] at hlock
    change Function.update s.rlocks i _ j = if some i = some j then 1 else 0
    by_cases hj : j = i
    case pos =>
      subst hj
      rw [Function.update_self, hlock, if_pos rfl, zero_add]
    case neg => rw [Function.update_of_ne hj, hlock, if_neg fun he => hj <| (Option.some.inj he).symm]

theorem Sound.solicited (hs : Sound s h r p) {i : Nat} (hsending : s.sending = some (a, i)) (ha : (s.cache a).Unresolved)
    (hu : s.Unicast mcast s.dropf) : ∃ s' r' p', s.rxmitsols canrlock ifcid mcast now = some s' ∧ Sound s' h r' p' := by
  let s₁ : Arp := { s with rlocks := Function.update s.rlocks i (s.rlocks i - 1), sending := none }
  have h₁ : Lists s₁ h r p := ⟨hs.hashes, hs.rxmts, hs.packets, hs.last, hs.fate, hs.once⟩
  obtain ⟨hd, next, hs₂, h₂⟩ := h₁.unrxmt a
  obtain ⟨hd', next', hs₃, h₃⟩ := h₂.rxmtlast (hs.rxmts.nodup ()).not_mem_erase
  let s₃ := (s₁.withrxmt hd next).withrxmt hd' next'
  let e := { s₃.cache a with rxtsrem := (s₃.cache a).rxtsrem - 1, rtime := (now + ReTransTimer) % 2 ^ 32 }
  have h₄ : Lists (s₃.set a e) h (r.erase a ++ [a]) p := h₃.set (.inr rfl) (.inr rfl) rfl fun _ => rfl
  have hmem (b : Ent) : b ∈ r.erase a ++ [a] ↔ b ∈ r := by
    rw [List.mem_append, List.mem_singleton]
    by_cases hb : b = a
    case pos =>
      subst hb
      exact iff_of_true (.inr rfl) <| (hs.placed b).unresolved.mpr ha
    case neg => rw [List.mem_erase_of_ne hb, or_iff_left hb]
  have hplaced (b : Ent) : Placed (s₃.set a e) h (r.erase a ++ [a]) p b := by
    refine (hs.placed b).congr ?_ (fun _ => Iff.rfl) (hmem b) rfl
    by_cases hb : b = a
    case pos =>
      subst hb
      rw [set_self]
      exact ⟨rfl, rfl, rfl⟩
    case neg =>
      rw [set_of_ne s₃ e hb]
      exact ⟨rfl, rfl, rfl⟩
  have hlocks (j : Nat) : s₁.rlocks j = if s₁.sending.map Prod.snd = some j then 1 else 0 := by
    have hlock := hs.locks j
    rw [hsending] at hlock
    change Function.update s.rlocks i _ j = 0
    by_cases hj : j = i
    case pos =>
      subst hj
      rw [Function.update_self, hlock]
      exact sub_eq_zero.mpr <| if_pos rfl
    case neg => rw [Function.update_of_ne hj, hlock, Option.map_some, if_neg fun he => hj <| (Option.some.inj he).symm]
  obtain ⟨s', p', hs', hsound⟩ : ∃ s' p', (s₃.set a e).dodrops (some i) mcast = some s' ∧ Sound s' h (r.erase a ++ [a]) p' :=
    Sound.drop h₄ hplaced hlocks (fun _ => rfl) <| hs.unicast (i := none) hu
  refine ⟨s', _, p', ?_, hsound⟩
  rw [rxmitsols, hsending]
  change (s₁.unrxmt a).bind _ = _
  rw [hs₂, Option.bind_some]
  change ((s₁.withrxmt hd next).rxmtlast a).bind _ = _
  rw [hs₃, Option.bind_some]
  exact hs'

end Rxmitsols

theorem Sound.arpinit : Sound arpinit (fun _ => []) [] fun _ => [] where
  toLists  := Lists.empty (fun _ => rfl) rfl (fun i => by cases i <;> rfl) (fun _ => rfl) List.nodup_nil
  dropl    := rfl
  placed _ := ⟨fun i => iff_of_false List.not_mem_nil fun hk => hk.right rfl,
    iff_of_false List.not_mem_nil fun hu => absurd hu.left nofun, fun hne => absurd rfl hne, nofun⟩
  locks _  := rfl

-- A packet comes once.
def New (s : Arp) : Act → Prop
  | .etherbwrite bp .. => bp ∉ s.held
  | _                  => True

section Safe

-- An entry is made anew only where that need not leave the re-transmit chain.
def Writes (s : Arp) (dest : Dest) (ifc : Ipifc) (multicast : Option (List UInt8)) : Prop :=
  s.find dest.ip ifc.medium = some none →
    s.Fresh dest dest.isV6 ∧ (dest.isV6 → ipismulticast dest.ip → multicast.isSome)

-- Only the last of the packets can be an error for the interface.
def Enters (s : Arp) (dest : Dest) (refresh bound : Bool) (fails : Blk → Bool) (ifc : Ipifc) : Prop :=
  match s.known dest.ip ifc.medium with
  | some (some a) => bound → ∀ bp ∈ ((s.packets (s.cache a).hold).getD []).dropLast, fails bp = false
  | _             => refresh = false → s.Fresh dest false

-- The entry is for the same interface still, and was not resolved while the lock of the tables was left.
def Solicits (s : Arp) (canrlock : Nat → Bool) (ifcid : Nat → UInt8) (mcast : Blk → Bool) (now : Nat) : Prop :=
  match s.sending, s.due now with
  | some (a, _), _ => (s.cache a).Unresolved ∧ s.Unicast mcast s.dropf
  | none, none     => s.dropf = none
  | none, some a   => ∀ i ∈ (s.cache a).ifc,
    if (s.cache a).rxtsrem = 0 ∨ !canrlock i then
      s.Unicast mcast s.dropf ∧ s.Unicast mcast (s.cache a).hold
    else
      (s.cache a).ifcid = ifcid i

-- Where the code does not go wrong. The tables are cleared only where no packet is to be dropped, and no entry is
-- deleted.
def Safe (s : Arp) : Act → Prop
  | .etherbwrite bp dest ifc multicast now            => s.New (.etherbwrite bp dest ifc multicast now) ∧
    s.Writes dest ifc multicast
  | .arpenter dest _ n refresh route bound fails _    => n = 6 → ∀ ifc ∈ route, s.Enters dest refresh bound fails ifc
  | .flush                                            => s.dropf = none
  | .del ip                                           => (s.lookup ip fun e => e.ip = ip).map Prod.snd = some none
  | .rxmitsols canrlock ifcid mcast now               => s.Solicits canrlock ifcid mcast now

instance (s : Arp) (act : Act) : Decidable (s.New act) := by
  cases act <;> unfold New <;> infer_instance

instance (s : Arp) (mcast : Blk → Bool) (xp : Option Blk) : Decidable (s.Unicast mcast xp) :=
  inferInstanceAs <| Decidable (∀ bp ∈ (s.packets xp).getD [], mcast bp = false)

instance (s : Arp) (dest : Dest) (ifc : Ipifc) (multicast : Option (List UInt8)) : Decidable (s.Writes dest ifc multicast) :=
  inferInstanceAs <| Decidable (_ → _ ∧ (_ → _ → _))

instance (s : Arp) (dest : Dest) (refresh bound : Bool) (fails : Blk → Bool) :
    DecidablePred (s.Enters dest refresh bound fails) := by
  intro ifc
  unfold Enters
  split <;> infer_instance

instance (s : Arp) (canrlock : Nat → Bool) (ifcid : Nat → UInt8) (mcast : Blk → Bool) (now : Nat) :
    Decidable (s.Solicits canrlock ifcid mcast now) := by
  unfold Solicits
  split <;> infer_instance

instance (s : Arp) : DecidablePred s.Safe := by
  intro act
  cases act <;> unfold Safe <;> infer_instance

end Safe

theorem Sound.rxmitsols {canrlock : Nat → Bool} {ifcid : Nat → UInt8} {mcast : Blk → Bool} {now : Nat} (hs : Sound s h r p)
    (hsafe : s.Solicits canrlock ifcid mcast now) :
    ∃ s' h' r' p', s.rxmitsols canrlock ifcid mcast now = some s' ∧ Sound s' h' r' p' := by
  rw [Solicits] at hsafe
  split at hsafe
  case h_1 a i _ hsending =>
    obtain ⟨s', r', p', hs', hsound⟩ := hs.solicited hsending hsafe.left hsafe.right
    exact ⟨s', h, r', p', hs', hsound⟩
  case h_2 hsending hdue =>
    have hnone : p none = [] := List.head?_eq_none_iff.mp <| (hs.packets.head none).symm.trans hsafe
    obtain ⟨s', p', hs', hsound⟩ : ∃ s' p', s.dodrops none mcast = some s' ∧ Sound s' h r p' :=
      Sound.drop hs.toLists hs.placed hs.locks (fun hne => absurd hnone hne) (hnone ▸ nofun)
    rw [Arp.rxmitsols, hsending]
    dsimp only
    rw [hdue, solicit_none]
    exact ⟨s', h, r, p', hs', hsound⟩
  case h_3 a hsending hdue =>
    obtain ⟨b, hb, hb'⟩ := Option.bind_eq_some_iff.mp hdue
    obtain rfl : b = a := by
      split at hb'
      case isTrue => contradiction
      case isFalse => exact Option.some.inj hb'
    have hr : b ∈ r := List.mem_of_head? <| (hs.rxmts.head ()).symm.trans hb
    rw [Arp.rxmitsols, hsending]
    dsimp only
    rw [hdue]
    exact hs.solicit hsending NCACHE hr hsafe

theorem Sound.step {act : Act} (hs : Sound s h r p) (hsafe : s.Safe act) :
    ∃ s' h' r' p', s.step act = some s' ∧ Sound s' h' r' p' := by
  cases act
  case etherbwrite bp dest ifc multicast now => exact hs.etherbwrite hsafe.left hsafe.right
  case arpenter dest mac n refresh route bound fails now =>
    by_cases hn : n = 6
    case neg => exact ⟨s, h, r, p, if_pos hn, hs⟩
    cases route
    case none => exact ⟨s, h, r, p, if_neg (not_not.mpr hn), hs⟩
    case some ifc =>
      obtain ⟨f, hf, hfound⟩ := hs.known dest.ip ifc.medium
      have hsafe := hsafe hn ifc rfl
      rw [Enters, hf] at hsafe
      cases f
      case none => exact hs.arpenter_new hn hf hsafe
      case some a =>
        obtain ⟨hip, hused⟩ := hfound a rfl
        have hpackets : s.packets (s.cache a).hold = some (p (some a)) := hs.packets_eq (some a)
        dsimp only at hsafe
        rw [hpackets, Option.getD_some] at hsafe
        exact hs.arpenter_known hn hf hip hused hsafe
  case flush =>
    obtain ⟨s', hs', hsound⟩ := hs.flush hsafe
    exact ⟨s', _, _, _, hs', hsound⟩
  case del ip =>
    obtain ⟨⟨l, f⟩, hf, hnone⟩ := Option.map_eq_some_iff.mp hsafe
    obtain rfl : f = none := hnone
    refine ⟨s, h, r, p, ?_, hs⟩
    rw [Arp.step, del, hf]
    rfl
  case rxmitsols canrlock ifcid mcast now => exact hs.rxmitsols hsafe

def machine : Machine Arp Act where
  init s := s = arpinit
  step   := step

-- The tables are right as long as all that is done is safe, and then nothing that is safe fails.
theorem arp_tables (hr : machine.Reachable Safe s) :
    ∃ h r p, Sound s h r p ∧ ∀ act, s.Safe act → ∃ s' h' r' p', s.step act = some s' ∧ Sound s' h' r' p' := by
  have hinv : machine.Invariant Safe fun s => ∃ h r p, Sound s h r p := by
    constructor
    case init =>
      intro s hs
      obtain rfl : s = Arp.arpinit := hs
      exact ⟨_, _, _, .arpinit⟩
    case step =>
      intro s act s' ⟨h, r, p, hs⟩ hsafe hstep
      obtain ⟨t, h', r', p', ht, hsound⟩ := hs.step hsafe
      obtain rfl := Option.some.inj <| hstep.symm.trans ht
      exact ⟨h', r', p', hsound⟩
  obtain ⟨h, r, p, hs⟩ := hinv.holds hr
  exact ⟨h, r, p, hs, fun act hsafe => hs.step hsafe⟩

section Runs

def ether : Ipifc where
  addr   := 7
  medium := { name := "ether", maclen := 6 }
  ifcid  := 1

def fe80 (n : UInt8) : IPaddr :=
  ![0xfe, 0x80, 0, 0, 0, 0, 0, 0, 0, 0, 0, 0, 0, 0, 0, n]

def sol : Act :=
  .rxmitsols (fun _ => true) (fun _ => 1) (fun _ => false) 2000

-- A packet waits while a solicitation is sent, and then it is handed to the interface.
theorem arp_tables_sent : ∃ s, machine.Reachable Safe s ∧ (s.held = [5] ∧ s.sent = [5]) ∧
    ∃ h r p, Sound s h r p ∧ ∀ act, s.Safe act → ∃ s' h' r' p', s.step act = some s' ∧ Sound s' h' r' p' := by
  have hrun : ((machine.guarded Safe).exec arpinit [.etherbwrite 5 (.V6 <| fe80 1) ether none 1000, sol, sol,
      .arpenter (.V6 <| fe80 1) [1, 2, 3, 4, 5, 6] 6 true (some ether) true (fun _ => true) 2100]).any
      fun s => s.held = [5] ∧ s.sent = [5] := by decide +kernel
  obtain ⟨s, hr, hs⟩ := Machine.exists_reachable rfl hrun
  exact ⟨s, hr, of_decide_eq_true hs, arp_tables hr⟩

-- The packet that waits for an entry that is deleted is lost.
theorem arp_tables_lost : ¬ ∀ s, machine.Reachable New s → ∃ h r p, Sound s h r p := by
  intro hall
  have hrun : ((machine.guarded New).exec arpinit [.etherbwrite 5 (.V6 <| fe80 1) ether none 1000, .del (fe80 1)]).any
      fun s => s.held = [5] ∧ s.sent = [] ∧ s.freed = [] ∧ ∀ i, s.holds i = none := by decide +kernel
  obtain ⟨s, hr, hs⟩ := Machine.exists_reachable rfl hrun
  obtain ⟨hheld, hsent, hfreed, hholds⟩ := of_decide_eq_true hs
  obtain ⟨h, r, p, hsound⟩ := hall s hr
  have hnil (i : Option Ent) : p i = [] := List.head?_eq_none_iff.mp <| (hsound.packets.head i).symm.trans (hholds i)
  have hfate := hsound.fate 5
  rw [hheld, hsent, hfreed, tally_eq_zero fun i => by rw [hnil i]; rfl] at hfate
  exact absurd hfate (by decide)

end Runs

end Ip.Arp
