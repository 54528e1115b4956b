import Mathlib.Data.Fintype.Option
import Nix.Ip.Arp
import Nix.Lib.Parties

namespace Ip.Arp

-- The entries on each hash chain and on the re-transmit chain, and the packets that wait for each entry or that are to
-- be dropped. Each packet that was ever held is in one of these lists, or it was sent or freed.
structure Lists (s : Arp) (h : Nat → List Ent) (r : List Ent) (p : Option Ent → List Blk) : Prop where
  hashes  : Buckets s.hash s.hashes h
  rxmts   : Buckets (fun _ : Unit => s.rxmt) s.rxmts fun _ => r
  packets : Buckets s.holds s.list p
  last    : ∀ a, p (some a) ≠ [] → (s.cache a).last = (p (some a)).getLast?
  fate    : ∀ b, (s.held.count b : Int) =
    tally (fun l => (l.count b : Int)) p + (s.sent.count b : Int) + (s.freed.count b : Int)
  once    : s.held.Nodup

-- Only what belongs to one entry has changed.
structure Moved (s : Arp) (h : Nat → List Ent) (r : List Ent) (p : Option Ent → List Blk) (s' : Arp)
    (h' : Nat → List Ent) (r' : List Ent) (p' : Option Ent → List Blk) (a : Ent) : Prop where
  cache   : ∀ b ≠ a, (s'.cache b).ip = (s.cache b).ip ∧ (s'.cache b).state = (s.cache b).state ∧
    (s'.cache b).ifc = (s.cache b).ifc
  hashes  : ∀ b ≠ a, ∀ i, b ∈ h' i ↔ b ∈ h i
  rxmts   : ∀ b ≠ a, b ∈ r' ↔ b ∈ r
  packets : ∀ b ≠ a, p' (some b) = p (some b)
  rlocks  : s'.rlocks = s.rlocks
  sending : s'.sending = s.sending

variable {s s' s'' : Arp} {h h' h'' : Nat → List Ent} {r r' r'' : List Ent} {p p' p'' : Option Ent → List Blk} {a : Ent}
variable {e : Arpent} {b : Blk}

namespace Moved

theorem refl : Moved s h r p s h r p a where
  cache _ _   := ⟨rfl, rfl, rfl⟩
  hashes _ _ _ := Iff.rfl
  rxmts _ _   := Iff.rfl
  packets _ _ := rfl
  rlocks      := rfl
  sending     := rfl

theorem trans (hm : Moved s h r p s' h' r' p' a) (hm' : Moved s' h' r' p' s'' h'' r'' p'' a) :
    Moved s h r p s'' h'' r'' p'' a where
  cache b hb   :=
    have ⟨hip, hstate, hifc⟩ := hm.cache b hb
    have ⟨hip', hstate', hifc'⟩ := hm'.cache b hb
    ⟨hip'.trans hip, hstate'.trans hstate, hifc'.trans hifc⟩
  hashes b hb i := (hm'.hashes b hb i).trans (hm.hashes b hb i)
  rxmts b hb   := (hm'.rxmts b hb).trans (hm.rxmts b hb)
  packets b hb := (hm'.packets b hb).trans (hm.packets b hb)
  rlocks       := hm'.rlocks.trans hm.rlocks
  sending      := hm'.sending.trans hm.sending

theorem set : Moved s h r p (s.set a e) h r p a where
  cache b hb   := by simp only [Arp.set, Function.update_of_ne hb, and_self]
  hashes _ _ _ := Iff.rfl
  rxmts _ _    := Iff.rfl
  packets _ _  := rfl
  rlocks       := rfl
  sending      := rfl

theorem of_cache (hc : s'.cache = Function.update s.cache a e) (hp : ∀ b ≠ a, p' (some b) = p (some b))
    (hr : s'.rlocks = s.rlocks) (hs : s'.sending = s.sending) : Moved s h r p s' h r p' a where
  cache b hb   := by simp only [hc, Function.update_of_ne hb, and_self]
  hashes _ _ _ := Iff.rfl
  rxmts _ _    := Iff.rfl
  packets      := hp
  rlocks       := hr
  sending      := hs

theorem withhash {hd : Nat → Option Ent} {next : Ent → Option Ent} (hh : ∀ b ≠ a, ∀ i, b ∈ h' i ↔ b ∈ h i) :
    Moved s h r p (s.withhash hd next) h' r p a where
  cache _ _   := ⟨rfl, rfl, rfl⟩
  hashes      := hh
  rxmts _ _   := Iff.rfl
  packets _ _ := rfl
  rlocks      := rfl
  sending     := rfl

theorem withrxmt {hd : Unit → Option Ent} {next : Ent → Option Ent} (hr : ∀ b ≠ a, b ∈ r' ↔ b ∈ r) :
    Moved s h r p (s.withrxmt hd next) h r' p a where
  cache _ _    := ⟨rfl, rfl, rfl⟩
  hashes _ _ _ := Iff.rfl
  rxmts        := hr
  packets _ _  := rfl
  rlocks       := rfl
  sending      := rfl

end Moved

@[simp]
theorem set_self (s : Arp) (a : Ent) (e : Arpent) : (s.set a e).cache a = e :=
  Function.update_self ..

theorem set_set (s : Arp) (a : Ent) (e e' : Arpent) : (s.set a e).set a e' = s.set a e' := by
  simp only [Arp.set, Function.update_idem]

theorem set_of_ne (s : Arp) (e : Arpent) {b : Ent} (hb : b ≠ a) : (s.set a e).cache b = s.cache b :=
  Function.update_of_ne hb ..

theorem set_field {β : Type*} (f : Arpent → β) (s : Arp) (a : Ent) (e : Arpent) :
    (fun b => f ((s.set a e).cache b)) = Function.update (fun b => f (s.cache b)) a (f e) :=
  funext fun b => Function.apply_update (fun _ => f) s.cache a e b

theorem set_field_eq {β : Type*} (f : Arpent → β) (s : Arp) (he : f e = f (s.cache a)) :
    (fun b => f ((s.set a e).cache b)) = fun b => f (s.cache b) := by
  rw [set_field, he, Function.update_eq_self]

theorem set_holds (s : Arp) (a : Ent) (e : Arpent) : (s.set a e).holds = Function.update s.holds (some a) e.hold := by
  funext i
  cases i
  case none => rfl
  case some b =>
    by_cases hb : b = a
    · subst hb
      rw [Function.update_self, holds, set_self]
    · rw [Function.update_of_ne (fun he => hb <| Option.some.inj he), holds, set_of_ne s e hb]
      rfl

theorem length_le (hn : r.Nodup) : r.length ≤ NCACHE := by
  simpa using hn.length_le_card

section Chains

theorem mem_erase_chain {b : Ent} {i j : Nat} (hb : b ≠ a) : b ∈ Function.update h i ((h i).erase a) j ↔ b ∈ h j := by
  by_cases hj : j = i
  · subst hj
    rw [Function.update_self, List.mem_erase_of_ne hb]
  · rw [Function.update_of_ne hj]

theorem not_mem_erase_chain {i : Nat} (hn : (h i).Nodup) (ha : ∀ j, a ∈ h j → j = i) (j : Nat) :
    a ∉ Function.update h i ((h i).erase a) j := by
  by_cases hj : j = i
  · subst hj
    rw [Function.update_self]
    exact hn.not_mem_erase
  · rw [Function.update_of_ne hj]
    exact fun hm => hj <| ha j hm

theorem mem_push_chain {b : Ent} {i j : Nat} : b ∈ Function.update h i (a :: h i) j ↔ b ∈ h j ∨ j = i ∧ b = a := by
  by_cases hj : j = i
  · subst hj
    rw [Function.update_self, List.mem_cons]
    tauto
  · simp [hj]

end Chains

namespace Lists

-- All may be changed in an entry but its links, and these where the entry is not on the list.
theorem set (hl : Lists s h r p) (hhash : (∀ i, a ∉ h i) ∨ e.hash = (s.cache a).hash)
    (hnext : a ∉ r ∨ e.nextrxt = (s.cache a).nextrxt) (hhold : e.hold = (s.cache a).hold)
    (hlast : p (some a) ≠ [] → e.last = (s.cache a).last) : Lists (s.set a e) h r p where
  hashes  := by
    rcases hhash with ha | he
    · refine hl.hashes.congr fun i b hb => ?_
      rw [Arp.hashes, set_of_ne s e (ne_of_mem_of_not_mem hb (ha i))]
      rfl
    · have : (s.set a e).hashes = s.hashes := set_field_eq Arpent.hash s he
      exact this ▸ hl.hashes
  rxmts   := by
    rcases hnext with ha | he
    · refine hl.rxmts.congr fun i b hb => ?_
      rw [Arp.rxmts, set_of_ne s e (ne_of_mem_of_not_mem hb ha)]
      rfl
    · have : (s.set a e).rxmts = s.rxmts := set_field_eq Arpent.nextrxt s he
      exact this ▸ hl.rxmts
  packets := by
    rw [set_holds, hhold]
    exact (Function.update_eq_self (some a) s.holds).symm ▸ hl.packets
  last    := by
    intro b hb
    by_cases hba : b = a
    · subst hba
      rw [set_self, hlast hb]
      exact hl.last b hb
    · rw [set_of_ne s e hba]
      exact hl.last b hb
  fate    := hl.fate
  once    := hl.once

theorem setnone (hl : Lists s h r p) (hh : ∀ i, a ∉ h i) (hr : a ∉ r) (hp : p (some a) = []) (hhold : e.hold = none) :
    Lists (s.set a e) h r p := by
  have : (s.cache a).hold = none := by
    have := hl.packets.head (some a)
    rwa [hp, List.head?_nil] at this
  exact hl.set (.inl hh) (.inl hr) (hhold.trans this.symm) fun hne => absurd hp hne

theorem unhash (hl : Lists s h r p) (ha : ∀ i, a ∈ h i → i = haship (s.cache a).ip) :
    ∃ hd next h', s.unhash a = some (s.withhash hd next) ∧ Lists (s.withhash hd next) h' r p ∧
      (∀ b ≠ a, ∀ i, b ∈ h' i ↔ b ∈ h i) ∧ ∀ i, a ∉ h' i := by
  obtain ⟨hd, next, hs, hb⟩ := hl.hashes.unlink_eq (length_le (hl.hashes.nodup _)) a
  refine ⟨hd, next, _, by rw [Arp.unhash, hs, Option.map_some], ⟨hb, hl.rxmts, hl.packets, hl.last, hl.fate, hl.once⟩, ?_, ?_⟩
  · exact fun b hb i => mem_erase_chain hb
  · exact not_mem_erase_chain (hl.hashes.nodup _) ha

theorem enhash (hl : Lists s h r p) (i : Nat) (ha : ∀ j, a ∉ h j) :
    ∃ h', Lists (s.withhash (Function.update s.hash i (some a)) (Function.update s.hashes a (s.hash i))) h' r p ∧
      (∀ b ≠ a, ∀ j, b ∈ h' j ↔ b ∈ h j) ∧ ∀ j, a ∈ h' j ↔ j = i := by
  refine ⟨_, ⟨hl.hashes.push ha, hl.rxmts, hl.packets, hl.last, hl.fate, hl.once⟩, fun b hb j => ?_, fun j => ?_⟩
  · rw [mem_push_chain, or_iff_left fun hba => hb hba.right]
  · rw [mem_push_chain, or_iff_right (ha j), and_iff_left rfl]

theorem rxmts_of {hd : Unit → Option Ent} {next : Ent → Option Ent} (hl : Lists s h r p)
    (hb : Buckets hd next (Function.update (fun _ : Unit => r) () r')) : Lists (s.withrxmt hd next) h r' p := by
  have : Function.update (fun _ : Unit => r) () r' = fun _ => r' := funext fun _ => Function.update_self ..
  rw [this] at hb
  exact ⟨hl.hashes, hb, hl.packets, hl.last, hl.fate, hl.once⟩

theorem unrxmt (hl : Lists s h r p) (a : Ent) :
    ∃ hd next, s.unrxmt a = some (s.withrxmt hd next) ∧ Lists (s.withrxmt hd next) h (r.erase a) p := by
  obtain ⟨hd, next, hs, hb⟩ := hl.rxmts.unlink_eq (i := ()) (length_le (hl.rxmts.nodup ())) a
  exact ⟨hd, next, by rw [Arp.unrxmt, hs, Option.map_some], hl.rxmts_of hb⟩

-- An entry that is not on the re-transmit chain need not be taken out of it.
theorem unrxmt_of (hl : Lists s h r p) (a : Ent) (c : Bool) (hc : c = false → a ∉ r) :
    ∃ hd next, (if c = true then s.unrxmt a else some s) = some (s.withrxmt hd next) ∧
      Lists (s.withrxmt hd next) h (r.erase a) p := by
  cases c
  case true => exact hl.unrxmt a
  case false =>
    refine ⟨fun _ => s.rxmt, s.rxmts, rfl, ?_⟩
    rw [List.erase_of_not_mem (hc rfl)]
    exact hl

theorem rxmtlast (hl : Lists s h r p) (ha : a ∉ r) :
    ∃ hd next, s.rxmtlast a = some (s.withrxmt hd next) ∧ Lists (s.withrxmt hd next) h (r ++ [a]) p := by
  obtain ⟨hd, next, hs, hb⟩ := hl.rxmts.atend_eq (i := ()) (length_le (hl.rxmts.nodup ())) fun _ => ha
  exact ⟨hd, next, by rw [Arp.rxmtlast, hs, Option.map_some], hl.rxmts_of hb⟩

section Packets

variable {i : Option Ent} {xs : List Blk}

theorem count_le (hl : Lists s h r p) (i : Option Ent) (b : Blk) : (p i).count b ≤ s.held.count b := by
  have := hl.fate b
  have : ((p i).count b : Int) ≤ tally (fun l => (l.count b : Int)) p := le_tally (fun l => Int.natCast_nonneg _) p i
  omega

theorem mem_held (hl : Lists s h r p) (hb : b ∈ p i) : b ∈ s.held :=
  List.count_pos_iff.mp <| Nat.lt_of_lt_of_le (List.count_pos_iff.mpr hb) <| hl.count_le i b

theorem packets_eq (hl : Lists s h r p) (i : Option Ent) : s.packets (s.holds i) = some (p i) := by
  have hle : (p i).length ≤ s.held.length :=
    ((hl.packets.nodup i).subperm fun b hb => hl.mem_held hb).length_le
  rw [Arp.packets, hl.packets.head i, (hl.packets.next i).listed_head? hle]

theorem fate_update {sent freed : List Blk} (hl : Lists s h r p) {i : Option Ent}
    (hc : ∀ b, sent.count b + freed.count b + xs.count b = s.sent.count b + s.freed.count b + (p i).count b) (b : Blk) :
    (s.held.count b : Int) = tally (fun l => (l.count b : Int)) (Function.update p i xs) + (sent.count b : Int) +
      (freed.count b : Int) := by
  have := hl.fate b
  have := hc b
  rw [tally_update]
  omega

theorem release {sent freed : List Blk} (hl : Lists s h r p) (a : Ent)
    (hc : ∀ b, sent.count b + freed.count b = s.sent.count b + s.freed.count b + (p (some a)).count b) :
    Lists { s.set a { s.cache a with hold := none } with sent, freed } h r (Function.update p (some a) []) where
  hashes  := by
    have : (s.set a { s.cache a with hold := none }).hashes = s.hashes := set_field_eq Arpent.hash s rfl
    exact this ▸ hl.hashes
  rxmts   := by
    have : (s.set a { s.cache a with hold := none }).rxmts = s.rxmts := set_field_eq Arpent.nextrxt s rfl
    exact this ▸ hl.rxmts
  packets := by
    have := hl.packets.clear (some a)
    rwa [← set_holds s a { s.cache a with hold := none }] at this
  last    := by
    intro b hb
    have hba : b ≠ a := fun he => hb <| by rw [he, Function.update_self]
    rw [Function.update_of_ne (fun he => hba <| Option.some.inj he)] at hb ⊢
    exact (congrArg Arpent.last <| set_of_ne s _ hba).trans <| hl.last b hb
  fate    := hl.fate_update fun b => by simpa using hc b
  once    := hl.once

theorem dropped (hl : Lists s h r p) (rlocks : Nat → Int) :
    Lists { s with dropf := none, dropl := none, rlocks, freed := s.freed ++ p none } h r (Function.update p none []) where
  hashes  := hl.hashes
  rxmts   := hl.rxmts
  packets := by
    have hh : ({ s with dropf := none, dropl := none, rlocks, freed := s.freed ++ p none } : Arp).holds =
        Function.update s.holds none none := by
      funext i
      cases i
      case none => rw [Function.update_self]; rfl
      case some b => rw [Function.update_of_ne (Option.some_ne_none b)]; rfl
    exact hh ▸ hl.packets.clear none
  last    := by
    intro b hb
    rw [Function.update_of_ne (Option.some_ne_none b)] at hb ⊢
    exact hl.last b hb
  fate    := hl.fate_update (i := none) (show ∀ b, s.sent.count b + (s.freed ++ p none).count b + _ = _ from fun b => by
    rw [List.count_append, List.count_nil]
    omega)
  once    := hl.once

-- The packets that wait for an entry are put on the list of those to be dropped.
theorem unreachable {dropl : Option Blk} (hl : Lists s h r p) (a : Ent) (hdropl : s.dropl = (p none).getLast?) :
    Lists { s.set a { s.cache a with hold := none } with
      dropf := if s.dropl = none then (s.cache a).hold else s.dropf,
      list  := updateAt s.list s.dropl (s.cache a).hold,
      dropl } h r (Function.update (Function.update p (some a) []) none (p none ++ p (some a))) where
  hashes  := by
    have : (s.set a { s.cache a with hold := none }).hashes = s.hashes := set_field_eq Arpent.hash s rfl
    exact this ▸ hl.hashes
  rxmts   := by
    have : (s.set a { s.cache a with hold := none }).rxmts = s.rxmts := set_field_eq Arpent.nextrxt s rfl
    exact this ▸ hl.rxmts
  packets := by
    have hhold : (s.cache a).hold = (p (some a)).head? := hl.packets.head (some a)
    have hdropf : s.dropf = (p none).head? := hl.packets.head none
    have hmove := hl.packets.move (Option.some_ne_none a)
    rw [← hdropl, ← hhold, ← set_holds s a { s.cache a with hold := none }] at hmove
    refine Eq.subst (motive := fun hd => Buckets hd _ _) ?_ hmove
    funext i
    cases i
    case none =>
      rw [Function.update_self, List.head?_append]
      change _ = if s.dropl = none then (s.cache a).hold else s.dropf
      rw [hdropl, hdropf, hhold]
      rcases p none with _ | ⟨c, m⟩
      · rfl
      · simp
    case some b => rw [Function.update_of_ne (Option.some_ne_none b)]; rfl
  last    := by
    intro b hb
    rw [Function.update_of_ne (Option.some_ne_none b)] at hb ⊢
    have hba : b ≠ a := fun he => hb <| by rw [he, Function.update_self]
    rw [Function.update_of_ne (fun he => hba <| Option.some.inj he)] at hb ⊢
    exact (congrArg Arpent.last <| set_of_ne s _ hba).trans <| hl.last b hb
  fate    := by
    intro b
    have := hl.fate b
    rw [tally_update, tally_update, Function.update_of_ne (Option.some_ne_none a).symm, List.count_append, List.count_nil]
    change (s.held.count b : Int) = _ + (s.sent.count b : Int) + (s.freed.count b : Int)
    omega
  once    := hl.once

theorem count_push (hl : Lists s h r p) (a : Ent) (b c : Blk) :
    ((s.held ++ [b]).count c : Int) =
      tally (fun l => (l.count c : Int)) (Function.update p (some a) (p (some a) ++ [b])) + (s.sent.count c : Int) +
        (s.freed.count c : Int) := by
  have := hl.fate c
  rw [tally_update, List.count_append, List.count_append]
  omega

theorem wait (hl : Lists s h r p) (a : Ent) (hb : b ∉ s.held) : ∃ hold list, s.wait a b = some { s with
      cache := Function.update s.cache a { s.cache a with hold, last := some b }, list, held := s.held ++ [b] } ∧
    Lists { s with cache := Function.update s.cache a { s.cache a with hold, last := some b }, list, held := s.held ++ [b] } h r
      (Function.update p (some a) (p (some a) ++ [b])) := by
  have hnot (i : Option Ent) : b ∉ p i := fun hi => hb <| hl.mem_held hi
  have hhold : (s.cache a).hold = (p (some a)).head? := hl.packets.head (some a)
  have hpush := (Fifos.push (i := some a) hl.packets hnot).buckets
  have hlists {hold : Option Blk} {list : Blk → Option Blk}
      (hh : hold = if (p (some a)).getLast? = none then some b else (s.cache a).hold)
      (hlist : list = Function.update (updateAt s.list (p (some a)).getLast? (some b)) b none) :
      Lists { s with cache := Function.update s.cache a { s.cache a with hold, last := some b }, list, held := s.held ++ [b] } h r
        (Function.update p (some a) (p (some a) ++ [b])) := by
    let e := { s.cache a with hold, last := some b }
    constructor
    case hashes =>
      have : (s.set a e).hashes = s.hashes := set_field_eq Arpent.hash s rfl
      exact this ▸ hl.hashes
    case rxmts =>
      have : (s.set a e).rxmts = s.rxmts := set_field_eq Arpent.nextrxt s rfl
      exact this ▸ hl.rxmts
    case packets =>
      rw [← show hold = if (p (some a)).getLast? = none then some b else s.holds (some a) from hh, ← hlist] at hpush
      exact set_holds s a e ▸ hpush
    case last =>
      intro c hc
      by_cases hca : c = a
      · subst hca
        refine (congrArg Arpent.last <| set_self s c e).trans ?_
        rw [Function.update_self, List.getLast?_append, List.getLast?_singleton, Option.some_or]
      · rw [Function.update_of_ne (fun he => hca <| Option.some.inj he)] at hc ⊢
        exact (congrArg Arpent.last <| set_of_ne s e hca).trans <| hl.last c hc
    case fate => exact hl.count_push a b
    case once =>
      exact List.nodup_append.mpr ⟨hl.once, List.nodup_singleton b, fun c hc d hd he => hb <| by
        rwa [← List.mem_singleton.mp hd, ← he]⟩
  rw [Arp.wait]
  by_cases hnil : p (some a) = []
  case pos =>
    have hnone : (s.cache a).hold = none := by rw [hhold, hnil, List.head?_nil]
    refine ⟨some b, Function.update s.list b none, if_pos hnone, hlists ?_ ?_⟩
    · rw [hnil, List.getLast?_nil, if_pos rfl]
    · rw [hnil, List.getLast?_nil]
      rfl
  case neg =>
    have hlast := hl.last a hnil
    obtain ⟨c, hc⟩ := Option.isSome_iff_exists.mp <| List.getLast?_isSome.mpr hnil
    have hsome : (s.cache a).hold ≠ none := by rwa [hhold, ne_eq, List.head?_eq_none_iff]
    refine ⟨(s.cache a).hold, Function.update (Function.update s.list c (some b)) b none, ?_, hlists ?_ ?_⟩
    · change (if (s.cache a).hold = none then _ else _) = _
      rw [if_neg hsome]
      change (s.cache a).last.bind _ = _
      rw [hlast, hc]
      rfl
    · rw [hc, if_neg nofun]
    · rw [hc]
      rfl

end Packets

end Lists

end Ip.Arp
