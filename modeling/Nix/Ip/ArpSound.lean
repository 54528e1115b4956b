import Nix.Ip.ArpLists

namespace Ip.Arp

section

variable {s s' : Arp} {h h' : Nat → List Ent} {r r' : List Ent} {p p' : Option Ent → List Blk} {a b : Ent} {e : Arpent}

theorem packets_of_ne {xs : List Blk} (hb : b ≠ a) : Function.update p (some a) xs (some b) = p (some b) :=
  Function.update_of_ne (fun he => hb <| Option.some.inj he) ..

namespace Lists

theorem cleanarpent (hl : Lists s h r p) (ha : ∀ i, a ∈ h i → i = haship (s.cache a).ip) (hp : p (some a) = []) :
    ∃ s' h', s.cleanarpent a = some s' ∧ Lists s' h' (r.erase a) p ∧ Moved s h r p s' h' (r.erase a) p a ∧
      (s'.cache a).state = .UNUSED ∧ (s'.cache a).nextrxt = none ∧ (∀ i, a ∉ h' i) ∧ s'.dropf = s.dropf ∧
      s'.dropl = s.dropl ∧ s'.held = s.held ∧ s'.list = s.list := by
  let e := { s.cache a with utime := 0, ctime := 0, type := none, state := .UNUSED }
  have h₁ : Lists (s.set a e) h r p := hl.set (.inr rfl) (.inr rfl) rfl fun _ => rfl
  have hip : ((s.set a e).cache a).ip = (s.cache a).ip := (congrArg Arpent.ip <| set_self s a e).trans rfl
  obtain ⟨hd, next, h', hs₂, h₂, hother, hnot⟩ := h₁.unhash (hip.symm ▸ ha)
  obtain ⟨hd', next', hs₃, h₃⟩ := h₂.unrxmt a
  have hr : a ∉ r.erase a := (hl.rxmts.nodup ()).not_mem_erase
  let s₃ := (((s.set a e).withhash hd next).withrxmt hd' next')
  let e' := { s₃.cache a with nextrxt := none, hash := none, hold := none, last := none, ifc := none }
  refine ⟨s₃.set a e', _, ?_, h₃.setnone hnot hr hp rfl, ?_, ?_, ?_, hnot, rfl, rfl, rfl, rfl⟩
  · rw [Arp.cleanarpent]
    dsimp only
    rw [hs₂, Option.bind_eq_bind, Option.bind_some, hs₃, Option.bind_some]
  · exact (Moved.set.trans <| .withhash hother).trans <|
      (Moved.withrxmt fun b hb => List.mem_erase_of_ne hb).trans .set
  · have : (s₃.cache a).state = .UNUSED := (congrArg Arpent.state <| set_self s a e).trans rfl
    rw [set_self]
    exact this
  · rw [set_self]

theorem dump (hl : Lists s h r p) (hdropl : s.dropl = (p none).getLast?) (a : Ent) :
    ∃ s' p', s.dump a = some s' ∧ Lists s' h r p' ∧ Moved s h r p s' h r p' a ∧ s'.dropl = (p' none).getLast? ∧
      p' (some a) = [] ∧ (s'.cache a).ip = (s.cache a).ip ∧ s'.held = s.held := by
  let e := { s.cache a with hold := none }
  have hip : ((s.set a e).cache a).ip = (s.cache a).ip := (congrArg Arpent.ip <| set_self s a e).trans rfl
  have hpackets : s.packets (s.cache a).hold = some (p (some a)) := hl.packets_eq (some a)
  have hhold : (s.cache a).hold = (p (some a)).head? := hl.packets.head (some a)
  rw [Arp.dump]
  dsimp only
  rw [hpackets, Option.bind_eq_bind, Option.bind_some, hip]
  by_cases hv4 : isv4 (s.cache a).ip
  case pos =>
    rw [if_pos hv4]
    refine ⟨_, _, rfl, hl.release a fun b => ?_, Moved.of_cache rfl (fun b hb => packets_of_ne hb) rfl rfl, ?_, Function.update_self ..,
      hip, rfl⟩
    · rw [List.count_append, Nat.add_assoc]
      rfl
    · rw [Function.update_of_ne (Option.some_ne_none a).symm]
      exact hdropl
  case neg =>
    rw [if_neg hv4]
    by_cases hnil : p (some a) = []
    case pos =>
      have hnone : (s.cache a).hold = none := by rw [hhold, hnil, List.head?_nil]
      rw [if_pos hnone]
      refine ⟨_, p, rfl, hl.set (.inr rfl) (.inr rfl) hnone.symm fun _ => rfl, .set, hdropl, hnil, hip, rfl⟩
    case neg =>
      have hsome : (s.cache a).hold ≠ none := by rwa [hhold, ne_eq, List.head?_eq_none_iff]
      rw [if_neg hsome]
      refine ⟨_, _, rfl, hl.unreachable a hdropl, Moved.of_cache rfl (fun b hb => ?_) rfl rfl, ?_, ?_, hip, rfl⟩
      · rw [Function.update_of_ne (Option.some_ne_none b), packets_of_ne hb]
      · rw [Function.update_self, List.getLast?_append]
        obtain ⟨c, hc⟩ := Option.isSome_iff_exists.mp <| List.getLast?_isSome.mpr hnil
        rw [hc]
        rfl
      · rw [Function.update_of_ne (Option.some_ne_none a), Function.update_self]

-- The entry that is used again is on the chain of its new address. Where it is not to be on the re-transmit chain it
-- must not have been there.
theorem reuse (hl : Lists s h r p) (hdropl : s.dropl = (p none).getLast?)
    (ha : ∀ i, a ∈ h i → i = haship (s.cache a).ip) (ip : IPaddr) (ifc : Ipifc) (addrxt : Bool) (now : Nat)
    (hr : (!ipismulticast ip && addrxt) = false → a ∉ r) :
    ∃ s' h' r' p', s.reuse a ip ifc addrxt now = some s' ∧ Lists s' h' r' p' ∧
      Moved s h r p s' h' r' p' a ∧ s'.dropl = (p' none).getLast? ∧ p' (some a) = [] ∧
      (∀ i, a ∈ h' i ↔ i = haship ip) ∧ (a ∈ r' ↔ (!ipismulticast ip && addrxt) = true) ∧
      (s'.cache a).ip = ip ∧ (s'.cache a).ifc = some ifc.addr ∧
      (s'.cache a).type = some ifc.medium ∧ s'.held = s.held := by
  obtain ⟨s₁, p₁, hs₁, h₁, hm₁, hdropl₁, hp₁, hip₁, hheld₁⟩ := hl.dump hdropl a
  obtain ⟨hd, next, h₂', hs₂, h₂, hother₂, hnot⟩ := h₁.unhash (hip₁.symm ▸ ha)
  let s₂ := s₁.withhash hd next
  obtain ⟨h₃', h₃, hother₃, hmem⟩ := h₂.enhash (haship ip) hnot
  let s₃ := s₂.withhash (Function.update s₂.hash (haship ip) (some a))
    (Function.update s₂.hashes a (s₂.hash (haship ip)))
  let e := { s₃.cache a with
    ip, utime := now, ctime := 0, type := some ifc.medium, rtime := (now + ReTransTimer) % 2 ^ 32,
    rxtsrem := MAX_MULTICAST_SOLICIT, ifc := some ifc.addr, ifcid := ifc.ifcid }
  let s₄ := s₃.set a e
  have h₄ : Lists s₄ h₃' r p₁ := h₃.set (.inr rfl) (.inr rfl) rfl fun _ => rfl
  have hm₄ : Moved s h r p s₄ h₃' r p₁ a := (hm₁.trans <| .withhash hother₂).trans <| (Moved.withhash hother₃).trans .set
  have hself : s₄.cache a = e := set_self ..
  rw [Arp.reuse]
  dsimp only
  rw [hs₁, Option.bind_eq_bind, Option.bind_some, hs₂, Option.bind_some]
  split
  case isTrue hc =>
    obtain ⟨hd, next, hs₅, h₅⟩ := h₄.unrxmt a
    have hnot := (hl.rxmts.nodup ()).not_mem_erase (a := a)
    obtain ⟨hd', next', hs₆, h₆⟩ := h₅.rxmtlast hnot
    have hs₅ : s₄.unrxmt a = some (s₄.withrxmt hd next) := hs₅
    rw [hs₅, Option.bind_some, hs₆]
    refine ⟨_, h₃', _, p₁, rfl, h₆, ?_, hdropl₁, hp₁, hmem, ?_, ?_, ?_, ?_, hheld₁⟩
    · refine hm₄.trans <| (Moved.withrxmt fun b hb => List.mem_erase_of_ne hb).trans <| .withrxmt fun b hb => ?_
      rw [List.mem_append, List.mem_singleton, or_iff_left hb]
    · simp [hc]
    · exact congrArg Arpent.ip hself
    · exact congrArg Arpent.ifc hself
    · exact congrArg Arpent.type hself
  case isFalse hc =>
    have hc : (!ipismulticast ip && addrxt) = false := Bool.eq_false_iff.mpr hc
    let e' := { s₄.cache a with nextrxt := none }
    have h₅ : Lists (s₄.set a e') h₃' r p₁ := h₄.set (.inr rfl) (.inl (hr hc)) rfl fun _ => rfl
    have hself' : (s₄.set a e').cache a = e' := set_self ..
    refine ⟨_, h₃', r, p₁, rfl, h₅, hm₄.trans .set, hdropl₁, hp₁, hmem, ?_, ?_, ?_, ?_, hheld₁⟩
    · simp [hc, hr hc]
    · exact (congrArg Arpent.ip hself').trans <| congrArg Arpent.ip hself
    · exact (congrArg Arpent.ifc hself').trans <| congrArg Arpent.ifc hself
    · exact (congrArg Arpent.type hself').trans <| congrArg Arpent.type hself

theorem taken (hl : Lists s h r p) (sent freed : List Blk) (hhash : e.hash = (s.cache a).hash)
    (hnext : e.nextrxt = (s.cache a).nextrxt) (hlast : e.last = (s.cache a).last) (hhold : e.hold = none)
    (hc : ∀ b, sent.count b + freed.count b = s.sent.count b + s.freed.count b + (p (some a)).count b) :
    Lists { s.set a e with sent, freed } h r (Function.update p (some a) []) ∧
      Moved s h r p { s.set a e with sent, freed } h r (Function.update p (some a) []) a := by
  constructor
  · have := (hl.set (e := { e with hold := (s.cache a).hold }) (.inr hhash) (.inr hnext) rfl fun _ => hlast).release a hc
    rwa [set_self, set_set, show ({ e with hold := none } : Arpent) = e from hhold ▸ rfl] at this
  · exact Moved.of_cache rfl (fun b hb => packets_of_ne hb) rfl rfl

theorem arpresolve (hl : Lists s h r p) (type : Medium) (mac : List UInt8) (now : Nat)
    (hv4 : isv4 (s.cache a).ip = true → a ∉ r) :
    ∃ s', s.arpresolve a type mac now = some s' ∧ Lists s' h (r.erase a) (Function.update p (some a) []) ∧
      Moved s h r p s' h (r.erase a) (Function.update p (some a) []) a ∧ (s'.cache a).ip = (s.cache a).ip ∧
      (s'.cache a).state = .AOK ∧ s'.dropl = s.dropl ∧ s'.held = s.held := by
  obtain ⟨hd, next, hs₁, h₁⟩ := hl.unrxmt_of a (!isv4 (s.cache a).ip) fun hc => hv4 <| by simpa using hc
  let s₁ := s.withrxmt hd next
  have hpackets : s₁.packets (s₁.cache a).hold = some (p (some a)) := h₁.packets_eq (some a)
  let e : Arpent := { s₁.cache a with
    mac := memmove (s₁.cache a).mac mac type.maclen, type := some type, state := .AOK, utime := now, hold := none }
  have ⟨h₂, hm₂⟩ := h₁.taken (a := a) (e := e) (s.sent ++ p (some a)) s.freed rfl rfl rfl rfl fun b => by
    rw [List.count_append, Nat.add_right_comm]
    rfl
  have hself : (s₁.set a e).cache a = e := set_self ..
  have hip : ((s₁.set a e).cache a).ip = (s.cache a).ip := by
    rw [hself]
    rfl
  refine ⟨{ s₁.set a e with sent := s.sent ++ p (some a), freed := s.freed }, ?_, h₂,
    (Moved.withrxmt fun b hb => List.mem_erase_of_ne hb).trans hm₂, hip, ?_, rfl, rfl⟩
  · rw [Arp.arpresolve, hs₁, Option.bind_eq_bind, Option.bind_some]
    dsimp only
    rw [hpackets]
    rfl
  · have hstate : ((s₁.set a e).cache a).state = .AOK := congrArg Arpent.state hself
    exact hstate

theorem shift {c : Blk} {xs : List Blk} (hl : Lists s h r p) (hp : p (some a) = c :: xs) (hxs : xs ≠ []) :
    Lists { s.set a { s.cache a with hold := s.list c } with freed := s.freed ++ [c] } h r (Function.update p (some a) xs) where
  hashes  := by
    have : (s.set a { s.cache a with hold := s.list c }).hashes = s.hashes := set_field_eq Arpent.hash s rfl
    exact this ▸ hl.hashes
  rxmts   := by
    have : (s.set a { s.cache a with hold := s.list c }).rxmts = s.rxmts := set_field_eq Arpent.nextrxt s rfl
    exact this ▸ hl.rxmts
  packets := by
    have hlist : s.list c = xs.head? := (hp ▸ hl.packets.next (some a)).left
    have hdrop := (Fifos.drop hl.packets (i := some a) (m := [c]) hp).buckets
    rwa [← hlist, ← set_holds s a { s.cache a with hold := s.list c }] at hdrop
  last    := by
    intro b hb
    by_cases hba : b = a
    · subst hba
      refine (congrArg Arpent.last <| set_self s b _).trans ?_
      rw [Function.update_self, hl.last b (hp ▸ List.cons_ne_nil c xs), hp, List.getLast?_cons_of_ne_nil hxs]
    · rw [packets_of_ne hba] at hb ⊢
      exact (congrArg Arpent.last <| set_of_ne s _ hba).trans <| hl.last b hb
  fate    := hl.fate_update fun b => by
    have : ([c] ++ xs).count b = [c].count b + xs.count b := List.count_append ..
    rw [hp, List.count_append]
    change _ = s.sent.count b + s.freed.count b + ([c] ++ xs).count b
    change s.sent.count b + _ + _ = _
    omega
  once    := hl.once

theorem trim_hold (hhold : (s.cache a).hold = none ∨ (s.cache a).hold = (s.cache a).last) : Arp.trim k s a = some s := by
  rw [Arp.trim.eq_def]
  dsimp only
  split
  case h_1 => rfl
  case h_2 hc =>
    rw [hc] at hhold
    exact if_pos <| hhold.resolve_left (Option.some_ne_none _)

theorem trim_shift {c : Blk} (hhold : (s.cache a).hold = some c) (hlast : (s.cache a).last ≠ some c) :
    Arp.trim (k + 1) s a =
      Arp.trim k { s.set a { s.cache a with hold := s.list c } with freed := s.freed ++ [c] } a := by
  rw [Arp.trim]
  simp only [hhold, hlast.symm, if_false]

theorem trim {xs : List Blk} (hl : Lists s h r p) (hp : p (some a) = xs) (hk : xs.length ≤ k) :
    ∃ s' p', Arp.trim k s a = some s' ∧ Lists s' h r p' ∧ Moved s h r p s' h r p' a ∧
      (∃ hold, s'.cache a = { s.cache a with hold }) ∧ (p' (some a) ≠ [] → p (some a) ≠ []) ∧ s'.dropl = s.dropl ∧
      p' none = p none ∧ s'.held = s.held := by
  induction xs generalizing s p k
  case nil =>
    have hhold : (s.cache a).hold = none := by rw [← List.head?_nil, ← hp]; exact hl.packets.head (some a)
    exact ⟨s, p, trim_hold (.inl hhold), hl, .refl, ⟨_, rfl⟩, id, rfl, rfl, rfl⟩
  case cons c xs ih =>
    have hne := hp ▸ List.cons_ne_nil c xs
    have hhold : (s.cache a).hold = some c := by rw [← List.head?_cons (l := xs), ← hp]; exact hl.packets.head (some a)
    have hlast : (s.cache a).last = (c :: xs).getLast? := hp ▸ hl.last a hne
    by_cases hxs : xs = []
    case pos =>
      subst hxs
      exact ⟨s, p, trim_hold (.inr <| hhold.trans hlast.symm), hl, .refl, ⟨_, rfl⟩, id, rfl, rfl, rfl⟩
    case neg =>
      have hnotlast : (s.cache a).last ≠ some c := by
        rw [hlast, List.getLast?_cons_of_ne_nil hxs]
        intro he
        exact (List.nodup_cons.mp (hp ▸ hl.packets.nodup (some a))).left <| List.mem_of_getLast? he
      cases k
      case zero => contradiction
      case succ k =>
        let s₁ : Arp := { s.set a { s.cache a with hold := s.list c } with freed := s.freed ++ [c] }
        have h₁ : Lists s₁ h r (Function.update p (some a) xs) := hl.shift hp hxs
        obtain ⟨s', p', hs', h', hm', ⟨hold, hcache⟩, -, hdropl, hpn, hheld⟩ :=
          ih h₁ (Function.update_self ..) (Nat.le_of_succ_le_succ hk)
        have hm : Moved s h r p s₁ h r (Function.update p (some a) xs) a :=
          .of_cache rfl (fun b hb => packets_of_ne hb) rfl rfl
        refine ⟨s', p', (trim_shift hhold hnotlast).trans hs', h', hm.trans hm', ⟨hold, hcache.trans ?_⟩, fun _ => hne, hdropl,
          hpn.trans ?_, hheld⟩
        · rw [show s₁.cache a = _ from set_self s a _]
        · rw [Function.update_of_ne (Option.some_ne_none a).symm]

end Lists

end

-- An entry for an IPv6 address that is not resolved.
def Arpent.Unresolved (e : Arpent) : Prop :=
  e.state = .AWAIT ∧ isv4 e.ip = false

instance : DecidablePred Arpent.Unresolved :=
  fun e => inferInstanceAs <| Decidable (e.state = .AWAIT ∧ isv4 e.ip = false)

-- An entry in use is on the hash chain of its address and on no other one, it is on the re-transmit chain where it is
-- not resolved, and packets wait for it only then.
structure Placed (s : Arp) (h : Nat → List Ent) (r : List Ent) (p : Option Ent → List Blk) (a : Ent) : Prop where
  keyed      : ∀ i, a ∈ h i ↔ haship (s.cache a).ip = i ∧ (s.cache a).state ≠ .UNUSED
  unresolved : a ∈ r ↔ (s.cache a).Unresolved
  waiting    : p (some a) ≠ [] → (s.cache a).state = .AWAIT
  ifc        : a ∈ r → (s.cache a).ifc.isSome

-- All but one entry are where they belong, and the only interface that `rxmitsols` has locked is the one that it sends
-- a solicitation on.
structure Others (s : Arp) (h : Nat → List Ent) (r : List Ent) (p : Option Ent → List Blk) (a : Ent) : Prop
    extends Lists s h r p where
  dropl  : s.dropl = (p none).getLast?
  placed : ∀ b ≠ a, Placed s h r p b
  locks  : ∀ i, s.rlocks i = if s.sending.map Prod.snd = some i then 1 else 0

-- What holds at all times.
structure Sound (s : Arp) (h : Nat → List Ent) (r : List Ent) (p : Option Ent → List Blk) : Prop extends Lists s h r p where
  dropl  : s.dropl = (p none).getLast?
  placed : ∀ a, Placed s h r p a
  locks  : ∀ i, s.rlocks i = if s.sending.map Prod.snd = some i then 1 else 0

-- Packets can wait for this entry, for which the re-transmit chain may still be wrong.
structure Awaits (s : Arp) (h : Nat → List Ent) (r : List Ent) (p : Option Ent → List Blk) (a : Ent) : Prop
    extends Others s h r p a where
  state : (s.cache a).state = .AWAIT
  keyed : ∀ i, a ∈ h i ↔ i = haship (s.cache a).ip
  isv6  : a ∈ r → isv4 (s.cache a).ip = false
  ifc   : a ∈ r → (s.cache a).ifc.isSome

variable {s s' : Arp} {h h' : Nat → List Ent} {r r' : List Ent} {p p' : Option Ent → List Blk} {a b : Ent} {e : Arpent}

theorem Placed.congr (hp : Placed s h r p b)
    (hc : (s'.cache b).ip = (s.cache b).ip ∧ (s'.cache b).state = (s.cache b).state ∧ (s'.cache b).ifc = (s.cache b).ifc)
    (hh : ∀ i, b ∈ h' i ↔ b ∈ h i) (hr : b ∈ r' ↔ b ∈ r) (hw : p' (some b) = p (some b)) : Placed s' h' r' p' b := by
  obtain ⟨hip, hstate, hifc⟩ := hc
  constructor
  case keyed =>
    intro i
    rw [hh i, hip, hstate]
    exact hp.keyed i
  case unresolved =>
    rw [hr, Arpent.Unresolved, hip, hstate]
    exact hp.unresolved
  case waiting =>
    rw [hw, hstate]
    exact hp.waiting
  case ifc =>
    rw [hr, hifc]
    exact hp.ifc

theorem Placed.moved (hp : Placed s h r p b) (hm : Moved s h r p s' h' r' p' a) (hb : b ≠ a) : Placed s' h' r' p' b :=
  hp.congr (hm.cache b hb) (hm.hashes b hb) (hm.rxmts b hb) (hm.packets b hb)

theorem Sound.others (hs : Sound s h r p) (a : Ent) : Others s h r p a :=
  ⟨hs.toLists, hs.dropl, fun b _ => hs.placed b, hs.locks⟩

theorem Sound.hash_eq (hs : Sound s h r p) (a : Ent) (i : Nat) (ha : a ∈ h i) : i = haship (s.cache a).ip :=
  (((hs.placed a).keyed i).mp ha).left.symm

theorem Sound.awaits (hs : Sound s h r p) (hstate : (s.cache a).state = .AWAIT) : Awaits s h r p a where
  toOthers := hs.others a
  state    := hstate
  keyed i  := by
    rw [(hs.placed a).keyed i, hstate, and_iff_left nofun, eq_comm]
  isv6 hr  := ((hs.placed a).unresolved.mp hr).right
  ifc hr   := (hs.placed a).ifc hr

namespace Others

theorem moved (ho : Others s h r p a) (hl : Lists s' h' r' p') (hm : Moved s h r p s' h' r' p' a)
    (hd : s'.dropl = (p' none).getLast?) : Others s' h' r' p' a where
  toLists     := hl
  dropl       := hd
  placed b hb := (ho.placed b hb).moved hm hb
  locks i     := by
    rw [hm.rlocks, hm.sending]
    exact ho.locks i

theorem sound (ho : Others s h r p a) (ha : Placed s h r p a) : Sound s h r p where
  toLists  := ho.toLists
  dropl    := ho.dropl
  placed b := if hb : b = a then hb ▸ ha else ho.placed b hb
  locks    := ho.locks

theorem set (ho : Others s h r p a) (hhash : e.hash = (s.cache a).hash) (hnext : e.nextrxt = (s.cache a).nextrxt)
    (hhold : e.hold = (s.cache a).hold) (hlast : e.last = (s.cache a).last) : Others (s.set a e) h r p a :=
  ho.moved (ho.toLists.set (.inr hhash) (.inr hnext) hhold fun _ => hlast) .set ho.dropl

end Others

namespace Awaits

theorem sound (ha : Awaits s h r p a) (hr : isv4 (s.cache a).ip = false → a ∈ r) : Sound s h r p :=
  ha.toOthers.sound
    { keyed i    := by rw [ha.keyed i, ha.state, and_iff_left nofun, eq_comm]
      unresolved := ⟨fun hm => ⟨ha.state, ha.isv6 hm⟩, fun hu => hr hu.right⟩
      waiting _  := ha.state
      ifc        := ha.ifc }

theorem moved (ha : Awaits s h r p a) (hl : Lists s' h r p') (hm : Moved s h r p s' h r p' a)
    (hd : s'.dropl = (p' none).getLast?) (hip : (s'.cache a).ip = (s.cache a).ip)
    (hstate : (s'.cache a).state = (s.cache a).state) (hifc : (s'.cache a).ifc = (s.cache a).ifc) :
    Awaits s' h r p' a where
  toOthers := ha.toOthers.moved hl hm hd
  state    := hstate.trans ha.state
  keyed i  := by rw [ha.keyed i, hip]
  isv6 hr  := hip ▸ ha.isv6 hr
  ifc hr   := hifc ▸ ha.ifc hr

theorem set (ha : Awaits s h r p a) (hhash : e.hash = (s.cache a).hash) (hnext : e.nextrxt = (s.cache a).nextrxt)
    (hhold : e.hold = (s.cache a).hold) (hlast : e.last = (s.cache a).last) (hip : e.ip = (s.cache a).ip)
    (hstate : e.state = (s.cache a).state) (hifc : e.ifc = (s.cache a).ifc) : Awaits (s.set a e) h r p a := by
  refine ha.moved (ha.toLists.set (.inr hhash) (.inr hnext) hhold fun _ => hlast) .set ha.dropl ?_ ?_ ?_
  all_goals rwa [set_self]

theorem wait (ha : Awaits s h r p a) {bp : Blk} (hb : bp ∉ s.held) :
    ∃ s' p', s.wait a bp = some s' ∧ Awaits s' h r p' a ∧ (s'.cache a).ip = (s.cache a).ip := by
  obtain ⟨hold, list, hs, hl⟩ := ha.toLists.wait a hb
  let e := { s.cache a with hold, last := some bp }
  refine ⟨_, _, hs, ha.moved hl (Moved.of_cache rfl (fun b hb => packets_of_ne hb) rfl rfl) ?_ ?_ ?_ ?_, ?_⟩
  case refine_1 =>
    rw [Function.update_of_ne (Option.some_ne_none a).symm]
    exact ha.dropl
  all_goals
    dsimp only
    rw [Function.update_self]

theorem trim (ha : Awaits s h r p a) : ∃ s' p', Arp.trim s.held.length s a = some s' ∧ Awaits s' h r p' a ∧
    (s'.cache a).ip = (s.cache a).ip := by
  have hle : (p (some a)).length ≤ s.held.length :=
    ((ha.packets.nodup (some a)).subperm fun b hb => ha.mem_held hb).length_le
  obtain ⟨s', p', hs', hl, hm, ⟨hold, hcache⟩, -, hdropl, hpn, -⟩ := ha.toLists.trim (a := a) rfl hle
  refine ⟨s', p', hs', ha.moved hl hm ?_ ?_ ?_ ?_, ?_⟩
  · rw [hdropl, hpn]
    exact ha.dropl
  all_goals rw [hcache]

theorem sendarp (ha : Awaits s h r p a) (now : Nat) : ∃ s' p', s.sendarp a now = some s' ∧ Awaits s' h r p' a ∧
    (s'.cache a).ip = (s.cache a).ip := by
  rw [Arp.sendarp]
  split
  case isTrue => exact ⟨s, p, rfl, ha, rfl⟩
  case isFalse =>
    obtain ⟨s', p', hs', ha', hip⟩ := ha.trim
    rw [hs', Option.bind_eq_bind, Option.bind_some]
    exact ⟨_, p', rfl, ha'.set rfl rfl rfl rfl rfl rfl rfl, by rw [set_self]; exact hip⟩

theorem resolveaddr6 (ha : Awaits s h r p a) (now : Nat) : ∃ s' p', s.resolveaddr6 a now = some s' ∧ Awaits s' h r p' a ∧
    (s'.cache a).ip = (s.cache a).ip := by
  rw [Arp.resolveaddr6]
  split
  case isTrue => exact ⟨s, p, rfl, ha, rfl⟩
  case isFalse =>
    obtain ⟨s', p', hs', ha', hip⟩ := ha.trim
    rw [hs', Option.bind_eq_bind, Option.bind_some]
    let e := { s'.cache a with ctime := now, rtime := (now + ReTransTimer) % 2 ^ 32 }
    have h₁ : Awaits (s'.set a e) h r p' a := ha'.set rfl rfl rfl rfl rfl rfl rfl
    have hself : (s'.set a e).cache a = e := set_self ..
    have hip : ((s'.set a e).cache a).ip = (s.cache a).ip := by
      rw [set_self]
      exact hip
    refine ⟨_, p', rfl, ?_, ?_⟩
    · split
      case isTrue => exact h₁
      case isFalse => exact h₁.set rfl rfl rfl rfl rfl rfl rfl
    · split
      case isTrue => exact hip
      case isFalse =>
        rw [set_self]
        exact hip

theorem arpresolve (ha : Awaits s h r p a) (type : Medium) (mac : List UInt8) (now : Nat) :
    ∃ s' p', s.arpresolve a type mac now = some s' ∧ Sound s' h (r.erase a) p' := by
  have hnot := (ha.rxmts.nodup ()).not_mem_erase (a := a)
  obtain ⟨s', hs', hl, hm, hip, hstate, hdropl, -⟩ := ha.toLists.arpresolve type mac now fun hv4 hr => by
    rw [ha.isv6 hr] at hv4
    contradiction
  refine ⟨s', _, hs', (ha.toOthers.moved hl hm ?_).sound ⟨fun i => ?_, ⟨fun hr => absurd hr hnot, fun hu => ?_⟩,
    fun hne => absurd (Function.update_self ..) hne, fun hr => absurd hr hnot⟩⟩
  · rw [Function.update_of_ne (Option.some_ne_none a).symm, hdropl]
    exact ha.dropl
  · rw [ha.keyed i, hip, hstate, and_iff_left nofun, eq_comm]
  · rw [Arpent.Unresolved, hstate] at hu
    exact absurd hu.left nofun

end Awaits

end Ip.Arp
