import Mathlib.Algebra.BigOperators.Fin
import Nix.Ip.ArpSound

namespace Ip.Arp

variable {s s' : Arp} {h h' : Nat → List Ent} {r r' : List Ent} {p p' : Option Ent → List Blk} {a b : Ent} {e : Arpent}

namespace Sound

theorem set (hs : Sound s h r p) (hhash : e.hash = (s.cache a).hash) (hnext : e.nextrxt = (s.cache a).nextrxt)
    (hhold : e.hold = (s.cache a).hold) (hlast : e.last = (s.cache a).last) (hip : e.ip = (s.cache a).ip)
    (hstate : e.state = (s.cache a).state) (hifc : e.ifc = (s.cache a).ifc) : Sound (s.set a e) h r p := by
  refine ((hs.others a).set hhash hnext hhold hlast).sound ((hs.placed a).congr ?_ (fun _ => Iff.rfl) Iff.rfl rfl)
  rw [set_self]
  exact ⟨hip, hstate, hifc⟩

theorem cleanarpent (hs : Sound s h r p) (hp : p (some a) = []) :
    ∃ s' h' r', s.cleanarpent a = some s' ∧ Sound s' h' r' p := by
  obtain ⟨s', h', hs', hl, hm, hstate, -, hnot, -, hdropl, -⟩ := hs.toLists.cleanarpent (hs.hash_eq a) hp
  have hr := (hs.rxmts.nodup ()).not_mem_erase (a := a)
  refine ⟨s', h', _, hs', ((hs.others a).moved hl hm ?_).sound ⟨fun i => ?_, ?_, fun hne => absurd hp hne, fun hm => absurd hm hr⟩⟩
  · exact hdropl.trans hs.dropl
  · rw [hstate]
    exact iff_of_false (hnot i) fun hk => hk.right rfl
  · rw [Arpent.Unresolved, hstate]
    exact iff_of_false hr fun hu => absurd hu.left (by simp)

theorem lookup (hs : Sound s h r p) (ip : IPaddr) (c : Arpent → Bool) :
    ∃ l f, s.lookup ip c = some (l, f) ∧ ∀ a ∈ f, c (s.cache a) = true ∧ (s.cache a).state ≠ .UNUSED := by
  have hsome : (search s.hashes (fun f => some (c (s.cache f))) NCACHE none (s.hash (haship ip))).isSome :=
    hs.hashes.isSome_search (length_le (hs.hashes.nodup _)) fun _ => rfl
  obtain ⟨⟨l, f⟩, hsearch⟩ := Option.isSome_iff_exists.mp hsome
  refine ⟨l, f, hsearch, fun a ha => ?_⟩
  obtain ⟨m, l', hl, -, hf, hstop, -⟩ := hs.hashes.of_search hsearch
  have hmem : a ∈ h (haship ip) := hl ▸ List.mem_append_right _ (List.mem_of_head? <| hf.symm.trans ha)
  exact ⟨Option.some.inj <| hstop a ha, (((hs.placed a).keyed _).mp hmem).right⟩

theorem find (hs : Sound s h r p) (ip : IPaddr) (type : Medium) :
    ∃ f, s.find ip type = some f ∧
      ∀ a ∈ f, (s.cache a).ip = ip ∧ (s.cache a).type = some type ∧ (s.cache a).state ≠ .UNUSED := by
  obtain ⟨l, f, hf, hfound⟩ := hs.lookup ip fun e => e.ip = ip ∧ e.type = some type
  refine ⟨f, by rw [Arp.find, hf, Option.map_some], fun a ha => ?_⟩
  obtain ⟨hc, hused⟩ := hfound a ha
  have ⟨hip, htype⟩ := of_decide_eq_true hc
  exact ⟨hip, htype, hused⟩

theorem known (hs : Sound s h r p) (ip : IPaddr) (type : Medium) :
    ∃ f, s.known ip type = some f ∧ ∀ a ∈ f, (s.cache a).ip = ip ∧ (s.cache a).state ≠ .UNUSED := by
  obtain ⟨l, f, hf, hfound⟩ := hs.lookup ip fun e => e.type = some type ∧ (e.state = .AWAIT ∨ e.state = .AOK) ∧ e.ip = ip
  refine ⟨f, by rw [Arp.known, hf, Option.map_some], fun a ha => ?_⟩
  obtain ⟨hc, hused⟩ := hfound a ha
  exact ⟨(of_decide_eq_true hc).right.right, hused⟩

theorem reuse (hs : Sound s h r p) (ip : IPaddr) (ifc : Ipifc) (addrxt : Bool) (now : Nat)
    (hr : (!ipismulticast ip && addrxt) = false → ¬ (s.cache a).Unresolved) :
    ∃ s' h' r' p', s.reuse a ip ifc addrxt now = some s' ∧ Others s' h' r' p' a ∧ p' (some a) = [] ∧
      (∀ i, a ∈ h' i ↔ i = haship ip) ∧ (a ∈ r' ↔ (!ipismulticast ip && addrxt) = true) ∧
      (s'.cache a).ip = ip ∧ (s'.cache a).ifc = some ifc.addr ∧ s'.held = s.held := by
  obtain ⟨s', h', r', p', hs', hl, hm, hdropl, hp, hh, hr', hip, hifc, -, hheld⟩ := hs.toLists.reuse hs.dropl (hs.hash_eq a)
    ip ifc addrxt now fun hc ha => hr hc <| (hs.placed a).unresolved.mp ha
  exact ⟨s', h', r', p', hs', (hs.others a).moved hl hm hdropl, hp, hh, hr', hip, hifc, hheld⟩

theorem use_of_ne (hs : Sound s h r p) (hstate : (s.cache a).state ≠ .AWAIT) (htype : (s.cache a).type.isSome)
    (bp : Option Blk) (now : Nat) : ∃ s' mac h' r', s.use a bp now = some (s', .error mac) ∧ Sound s' h' r' p := by
  let e := { s.cache a with utime := now }
  have hset : Sound (s.set a e) h r p := hs.set rfl rfl rfl rfl rfl rfl rfl
  have hp : p (some a) = [] := Classical.byContradiction fun hne => hstate <| (hs.placed a).waiting hne
  obtain ⟨type, htype⟩ := Option.isSome_iff_exists.mp htype
  have hself : (s.set a e).cache a = e := set_self ..
  have hstate : ((s.set a e).cache a).state ≠ .AWAIT := by rwa [hself]
  have htype : ((s.set a e).cache a).type = some type := by rwa [hself]
  rw [Arp.use.eq_def]
  dsimp only
  rw [if_neg hstate, htype, Option.bind_eq_bind, Option.bind_some]
  split
  case isTrue =>
    obtain ⟨s', h', r', hs', hsound⟩ := hset.cleanarpent hp
    rw [hs', Option.map_some]
    exact ⟨s', _, h', r', rfl, hsound⟩
  case isFalse => exact ⟨_, _, h, r, rfl, hset⟩

end Sound

theorem Awaits.use (ha : Awaits s h r p a) {bp : Blk} (hb : bp ∉ s.held) (now : Nat) :
    ∃ s' p', s.use a (some bp) now = some (s', .ok a) ∧ Awaits s' h r p' a ∧ (s'.cache a).ip = (s.cache a).ip := by
  let e := { s.cache a with utime := now }
  have hset : Awaits (s.set a e) h r p a := ha.set rfl rfl rfl rfl rfl rfl rfl
  have hb : bp ∉ (s.set a e).held := hb
  obtain ⟨s', p', hs', ha', hip⟩ := hset.wait hb
  have hstate : ((s.set a e).cache a).state = .AWAIT := hset.state
  rw [Arp.use]
  dsimp only
  rw [if_pos hstate, hs', Option.map_some]
  exact ⟨s', p', rfl, ha', hip.trans <| by rw [set_self]⟩

section Etherbwrite

-- A new entry can be made for this address. Where it does not come to the re-transmit chain, the entry that is used
-- again must not be there.
def Fresh (s : Arp) (dest : Dest) (addrxt : Bool) : Prop :=
  (addrxt → isv4 dest.ip = false) ∧ ((!ipismulticast dest.ip && addrxt) = false → ¬ (s.cache s.oldest).Unresolved)

instance (s : Arp) (dest : Dest) (addrxt : Bool) : Decidable (s.Fresh dest addrxt) := by
  unfold Fresh
  infer_instance

variable {bp : Blk} {dest : Dest} {ifc : Ipifc} {multicast : Option (List UInt8)} {now : Nat}

theorem isv4_v4tov6 (ip : Fin 4 → UInt8) : isv4 (v4tov6 ip) = true :=
  rfl

theorem Sound.arpget_new (hs : Sound s h r p) (now : Nat) (hb : bp ∉ s.held) (hf : s.find dest.ip ifc.medium = some none)
    (hfresh : s.Fresh dest dest.isV6) : ∃ s' h' r' p' a, s.arpget (some bp) dest ifc now = some (s', .ok a) ∧
      Awaits s' h' r' p' a ∧ (s'.cache a).ip = dest.ip ∧ (a ∈ r' ↔ (!ipismulticast dest.ip && dest.isV6) = true) := by
  obtain ⟨a, ha⟩ : ∃ a, a = s.oldest := ⟨_, rfl⟩
  obtain ⟨s₁, h', r', p₁, hs₁, ho, hp, hh, hr, hip, hifc, hheld⟩ :=
    hs.reuse dest.ip ifc dest.isV6 now (ha ▸ hfresh.right)
  let e := { s₁.cache a with state := .AWAIT }
  have hself : (s₁.set a e).cache a = e := set_self ..
  have hawaits : Awaits (s₁.set a e) h' r' p₁ a :=
    { toOthers := ho.set rfl rfl rfl rfl
      state    := by rw [hself]
      keyed i  := by rw [hself, hh i]; exact hip ▸ Iff.rfl
      isv6 hm  := by
        have hv6 : dest.isV6 = true := ((Bool.and_eq_true ..).mp <| hr.mp hm).right
        rw [hself]
        exact hip ▸ hfresh.left hv6
      ifc _    := by
        rw [hself]
        exact Option.isSome_of_eq_some hifc }
  have hb : bp ∉ (s₁.set a e).held := fun hm => hb <| hheld ▸ hm
  obtain ⟨s', p', hs', ha', hip'⟩ := hawaits.use hb now
  refine ⟨s', h', r', p', a, ?_, ha', hip'.trans ?_, hr⟩
  · rw [Arp.arpget, hf, Option.bind_eq_bind, Option.bind_some]
    dsimp only
    rw [newarp6, ← ha, hs₁, Option.map_some]
    exact hs'
  · rw [hself]
    exact hip

theorem Sound.arpget (hs : Sound s h r p) (now : Nat) (hb : bp ∉ s.held)
    (hfresh : s.find dest.ip ifc.medium = some none → s.Fresh dest dest.isV6) :
    (∃ s' h' r' p' mac, s.arpget (some bp) dest ifc now = some (s', .error mac) ∧ Sound s' h' r' p') ∨
    ∃ s' h' r' p' a, s.arpget (some bp) dest ifc now = some (s', .ok a) ∧ Awaits s' h' r' p' a ∧
      (isv4 (s'.cache a).ip = false → a ∉ r' → s.find dest.ip ifc.medium = some none ∧ dest.isV6 ∧ ipismulticast dest.ip) := by
  obtain ⟨f, hf, hfound⟩ := hs.find dest.ip ifc.medium
  cases f
  case none =>
    obtain ⟨s', h', r', p', a, hs', ha, hip, hr⟩ := hs.arpget_new now hb hf (hfresh hf)
    refine .inr ⟨s', h', r', p', a, hs', ha, fun hv6 hnot => ⟨hf, ?_⟩⟩
    have hisV6 : dest.isV6 = true := by
      rw [hip] at hv6
      cases dest
      case V4 ip => exact absurd ((isv4_v4tov6 ip).symm.trans hv6) nofun
      case V6 => rfl
    rw [hr, hisV6] at hnot
    exact ⟨hisV6, by simpa using hnot⟩
  case some a =>
    obtain ⟨hip, htype, hused⟩ := hfound a rfl
    by_cases hstate : (s.cache a).state = .AWAIT
    case pos =>
      obtain ⟨s', p', hs', ha, hip'⟩ := (hs.awaits hstate).use hb now
      refine .inr ⟨s', h, r, p', a, ?_, ha, fun hv6 hnot => absurd ?_ hnot⟩
      · rw [Arp.arpget, hf, Option.bind_eq_bind, Option.bind_some]
        exact hs'
      · rw [hip'] at hv6
        exact (hs.placed a).unresolved.mpr ⟨hstate, hv6⟩
    case neg =>
      obtain ⟨s', mac, h', r', hs', hsound⟩ := hs.use_of_ne hstate (Option.isSome_of_eq_some htype) (some bp) now
      refine .inl ⟨s', h', r', p, mac, ?_, hsound⟩
      rw [Arp.arpget, hf, Option.bind_eq_bind, Option.bind_some]
      exact hs'

theorem Sound.etherbwrite (hs : Sound s h r p) (hb : bp ∉ s.held)
    (hfresh : s.find dest.ip ifc.medium = some none →
      s.Fresh dest dest.isV6 ∧ (dest.isV6 → ipismulticast dest.ip → multicast.isSome)) :
    ∃ s' h' r' p', s.etherbwrite bp dest ifc multicast now = some s' ∧ Sound s' h' r' p' := by
  rw [Arp.etherbwrite]
  rcases hs.arpget now hb fun hf => (hfresh hf).left with
    ⟨s', h', r', p', mac, hs', hsound⟩ | ⟨s₁, h', r', p₁, a, hs₁, ha, hlate⟩
  case inl =>
    rw [hs', Option.bind_eq_bind, Option.bind_some]
    exact ⟨s', h', r', p', rfl, hsound⟩
  case inr =>
    rw [hs₁, Option.bind_eq_bind, Option.bind_some]
    dsimp only
    cases multicast
    case some mac =>
      obtain ⟨s', p', hs', hsound⟩ := ha.arpresolve ifc.medium mac now
      exact ⟨s', h', _, p', hs', hsound⟩
    case none =>
      have hr (hv6 : isv4 (s₁.cache a).ip = false) : a ∈ r' := Classical.byContradiction fun hnot => by
        obtain ⟨hf, hisV6, hmulticast⟩ := hlate hv6 hnot
        simpa using (hfresh hf).right hisV6 hmulticast
      dsimp only
      split
      case isTrue =>
        obtain ⟨s', p', hs', ha', hip⟩ := ha.resolveaddr6 now
        exact ⟨s', h', r', p', hs', ha'.sound fun hv6 => hr <| hip ▸ hv6⟩
      case isFalse =>
        obtain ⟨s', p', hs', ha', hip⟩ := ha.sendarp now
        exact ⟨s', h', r', p', hs', ha'.sound fun hv6 => hr <| hip ▸ hv6⟩

end Etherbwrite

section Arpenter

variable {dest : Dest} {ifc : Ipifc} {mac : List UInt8} {n now : Nat} {refresh bound : Bool} {fails : Blk → Bool}
variable {route : Option Ipifc} {xs : List Blk}

theorem handover_eq (hfails : bound = true → ∀ bp ∈ xs.dropLast, fails bp = false) : handover bound fails xs s =
    { s with sent := s.sent ++ (if bound then xs else []), freed := s.freed ++ (if bound then [] else xs) } := by
  induction xs generalizing s
  case nil => simp [handover]
  case cons bp xs ih =>
    cases bound
    case false => simp [handover, ih nofun]
    case true =>
      by_cases hxs : xs = []
      case pos => simp [hxs, handover]
      case neg =>
        have hfails := hfails rfl
        rw [List.dropLast_cons_of_ne_nil hxs, List.forall_mem_cons] at hfails
        simp [handover, hfails.left, ih fun _ => hfails.right]

theorem Sound.arpenter_known (hs : Sound s h r p) (hn : n = 6) (hf : s.known dest.ip ifc.medium = some (some a))
    (hip : (s.cache a).ip = dest.ip) (hused : (s.cache a).state ≠ .UNUSED)
    (hfails : bound = true → ∀ bp ∈ (p (some a)).dropLast, fails bp = false) :
    ∃ s' h' r' p', s.arpenter dest mac n refresh (some ifc) bound fails now = some s' ∧ Sound s' h' r' p' := by
  let e := { s.cache a with state := .AOK, mac := memmove (s.cache a).mac mac ifc.medium.maclen }
  have h₁ : Lists (s.set a e) h r p := hs.toLists.set (.inr rfl) (.inr rfl) rfl fun _ => rfl
  have hv4 : dest.isV6 = false → a ∉ r := by
    intro hv4 hr
    have hv6 := ((hs.placed a).unresolved.mp hr).right
    rw [hip] at hv6
    cases dest
    case V4 ip => exact absurd ((isv4_v4tov6 ip).symm.trans hv6) nofun
    case V6 => contradiction
  obtain ⟨hd, next, hs₂, h₂⟩ := h₁.unrxmt_of a dest.isV6 hv4
  let s₂ := (s.set a e).withrxmt hd next
  have hpackets : s₂.packets (s₂.cache a).hold = some (p (some a)) := h₂.packets_eq (some a)
  let e' := { s₂.cache a with ifc := some ifc.addr, ifcid := ifc.ifcid, hold := none, utime := now, ctime := now }
  rw [Arp.arpenter, if_neg (not_not.mpr hn)]
  dsimp only
  rw [hf, Option.bind_eq_bind, Option.bind_some]
  dsimp only
  rw [hs₂, Option.bind_eq_bind, Option.bind_some, hpackets, Option.bind_eq_bind, Option.bind_some, handover_eq hfails]
  have ⟨h₃, hm₃⟩ := h₂.taken (a := a) (e := e') (s.sent ++ if bound then p (some a) else [])
    (s.freed ++ if bound then [] else p (some a)) rfl rfl rfl rfl fun b => by
      rw [List.count_append, List.count_append]
      change _ = s.sent.count b + s.freed.count b + _
      cases bound
      all_goals
        simp only [if_true, Bool.false_eq_true, if_false, List.count_nil]
        omega
  have hm : Moved s h r p s₂ h (r.erase a) p a := Moved.set.trans <| .withrxmt fun b hb => List.mem_erase_of_ne hb
  have hnot := (hs.rxmts.nodup ()).not_mem_erase (a := a)
  have hself : (s.set a e).cache a = e := set_self ..
  have hself' : (s₂.set a e').cache a = e' := set_self ..
  have hstate : ((s₂.set a e').cache a).state = .AOK := by
    rw [hself']
    change ((s.set a e).cache a).state = .AOK
    rw [hself]
  have hip' : ((s₂.set a e').cache a).ip = (s.cache a).ip := by
    rw [hself']
    change ((s.set a e).cache a).ip = (s.cache a).ip
    rw [hself]
  refine ⟨_, h, _, _, rfl, ((hs.others a).moved h₃ (hm.trans hm₃) ?_).sound ⟨fun i => ?_, ?_, fun hne => ?_, fun hr => absurd hr hnot⟩⟩
  · rw [Function.update_of_ne (Option.some_ne_none a).symm]
    exact hs.dropl
  · change _ ↔ haship ((s₂.set a e').cache a).ip = i ∧ ((s₂.set a e').cache a).state ≠ .UNUSED
    rw [hip', hstate, (hs.placed a).keyed i, and_iff_left hused, and_iff_left nofun]
  · exact iff_of_false hnot fun hu => absurd (hstate.symm.trans hu.left) nofun
  · exact absurd (Function.update_self ..) hne

theorem Sound.arpenter_new (hs : Sound s h r p) (hn : n = 6) (hf : s.known dest.ip ifc.medium = some none)
    (hfresh : refresh = false → s.Fresh dest false) :
    ∃ s' h' r' p', s.arpenter dest mac n refresh (some ifc) bound fails now = some s' ∧ Sound s' h' r' p' := by
  rw [Arp.arpenter, if_neg (not_not.mpr hn)]
  dsimp only
  rw [hf, Option.bind_eq_bind, Option.bind_some]
  dsimp only
  split
  case isTrue => exact ⟨s, h, r, p, rfl, hs⟩
  case isFalse hrefresh =>
    obtain ⟨a, ha⟩ : ∃ a, a = s.oldest := ⟨_, rfl⟩
    have hfresh := (hfresh <| Bool.eq_false_iff.mpr hrefresh).right
    obtain ⟨s₁, h', r', p', hs₁, ho, hp, hh, hr, hip, hifc, -⟩ := hs.reuse dest.ip ifc false now (ha ▸ hfresh)
    have hnot : a ∉ r' := fun hm => by simpa using hr.mp hm
    let e := { s₁.cache a with
      state := .AOK, type := some ifc.medium, ctime := now, mac := memmove (s₁.cache a).mac mac ifc.medium.maclen }
    have hset : Others (s₁.set a e) h' r' p' a := ho.set rfl rfl rfl rfl
    rw [newarp6, ← ha, hs₁, Option.map_some]
    refine ⟨s₁.set a e, h', r', p', rfl, hset.sound ⟨fun i => ?_, ?_, fun hne => absurd hp hne, fun hm => absurd hm hnot⟩⟩
    · rw [set_self, hh i, ← hip, eq_comm]
      exact (and_iff_left nofun).symm
    · rw [set_self]
      exact iff_of_false hnot fun hu => absurd hu.left nofun

end Arpenter

-- Where there is nothing on any list.
theorem Lists.empty (hh : ∀ i, s.hash i = none) (hr : s.rxmt = none) (hp : ∀ i, s.holds i = none)
    (hf : ∀ b, s.held.count b = s.sent.count b + s.freed.count b) (ho : s.held.Nodup) :
    Lists s (fun _ => []) [] fun _ => [] where
  hashes  := ⟨hh, fun _ => rfl, fun _ => trivial, fun _ => List.nodup_nil, nofun⟩
  rxmts   := ⟨fun _ => hr, fun _ => rfl, fun _ => trivial, fun _ => List.nodup_nil, nofun⟩
  packets := ⟨hp, fun _ => rfl, fun _ => trivial, fun _ => List.nodup_nil, nofun⟩
  last _  := nofun
  fate b  := by
    have hnil : tally (fun l => (l.count b : Int)) (fun _ : Option Ent => []) = 0 := tally_eq_zero fun _ => rfl
    rw [hnil, hf b]
    omega
  once    := ho

theorem Sound.flush (hs : Sound s h r p) (hdropf : s.dropf = none) :
    ∃ s', s.flush = some s' ∧ Sound s' (fun _ => []) [] fun _ => [] := by
  have hnone : p none = [] := List.head?_eq_none_iff.mp <| (hs.packets.head none).symm.trans hdropf
  have hmapM : (List.finRange NCACHE).mapM (fun a => s.packets (s.cache a).hold) =
      some ((List.finRange NCACHE).map fun a => p (some a)) := by
    rw [show (fun a => s.packets (s.cache a).hold) = fun a => pure (p (some a)) from funext fun a => hs.packets_eq (some a),
      List.mapM_pure]
    rfl
  rw [Arp.flush, hmapM, Option.bind_eq_bind, Option.bind_some]
  refine ⟨_, rfl, Lists.empty (fun _ => rfl) rfl (fun i => ?_) (fun b => ?_) hs.once, rfl, fun a => ?_, hs.locks⟩
  case refine_1 => cases i <;> rfl
  case refine_2 =>
    have hfate := hs.fate b
    rw [tally, Fintype.sum_option, hnone, List.count_nil, Nat.cast_zero, zero_add, Fin.sum_univ_def] at hfate
    change s.held.count b = s.sent.count b + (s.freed ++ _).count b
    rw [List.count_append, List.count_flatten, List.map_map]
    have hcast : (((List.finRange NCACHE).map (List.count b ∘ fun a => p (some a))).sum : Int) =
        ((List.finRange NCACHE).map fun a => ((p (some a)).count b : Int)).sum := by
      rw [Nat.cast_list_sum, List.map_map]
      rfl
    omega
  case refine_3 =>
    exact ⟨fun i => iff_of_false List.not_mem_nil fun hk => hk.right rfl,
      iff_of_false List.not_mem_nil fun hu => absurd hu.left (by simp), fun hne => absurd rfl hne, by simp⟩

end Ip.Arp
