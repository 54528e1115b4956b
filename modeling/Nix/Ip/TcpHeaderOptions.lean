import Nix.Ip.TcpHeaderCodec

namespace Ip.TcpHeader

open OnesComplement
open Ptclbsum (ptclcsum)

variable {PKT IPLEN : Nat} {tcpopt mem : Nat → UInt8} {n addr optr csum scale : Nat} {mss ws : UInt16} {l : List UInt8}
variable {tcph : Tcp} {b b' : Block} {bp bp' : List Block} {sport dport : UInt16} {ip d d' : List UInt8} {moved : Bool}

-- The options end behind the first byte of one that has a length.
def truncated : List UInt8 → Bool
  | []          => false
  | [k]         => k ≠ EOLOPT ∧ k ≠ NOOPOPT
  | k :: o :: l =>
    if k = EOLOPT then false
    else if k = NOOPOPT then truncated (o :: l)
    else if o.toNat < 2 ∨ l.length + 2 < o.toNat then false
    else truncated (l.drop (o.toNat - 2))
termination_by l => l.length
decreasing_by
  · simp
  · rw [List.length_drop]
    simp
    omega

-- No byte behind the options is looked at, but for the length of one that is cut off.
theorem options_reads (mss ws : UInt16) (h : ∀ i < l.length, tcpopt (optr + i) = l.getD i 0) :
    (∀ i ∈ (options tcpopt l.length optr mss ws).snd, i < optr + l.length) ↔ truncated l = false := by
  induction l using truncated.induct generalizing optr mss ws
  case case1 => simp [truncated]
  case case2 k =>
    have h₀ : tcpopt optr = k := h 0 (by simp)
    rw [truncated]
    by_cases heol : k = EOLOPT
    case pos =>
      rw [options_eol (by simp) (h₀.trans heol)]
      simp [heol]
    case neg =>
      by_cases hnoop : k = NOOPOPT
      case pos =>
        rw [options_noop (by simp) (h₀.trans hnoop)]
        simp [hnoop]
      case neg =>
        rw [options_bad (by simp) (h₀ ▸ heol) (h₀ ▸ hnoop) (by rw [List.length_singleton]; omega)]
        simp [heol, hnoop]
  case case3 o l =>
    have h₀ : tcpopt optr = EOLOPT := h 0 (by simp)
    rw [truncated, if_pos rfl, options_eol (by simp) h₀]
    simp
  case case4 o l _ hi =>
    have h₀ : tcpopt optr = NOOPOPT := h 0 (by simp)
    have htail : ∀ i < (o :: l).length, tcpopt (optr + 1 + i) = (o :: l).getD i 0 := fun i hi => by
      rw [Nat.add_assoc, Nat.add_comm 1 i, h (i + 1) (by simpa using hi), List.getD_cons_succ]
    rw [truncated, if_neg (by decide), if_pos rfl, options_noop (by simp) h₀, ← hi _ _ htail]
    simp only [List.length_cons, Nat.add_sub_cancel, List.forall_mem_cons]
    constructor
    · exact fun hall i hmem => by have := hall.right i hmem; omega
    · exact fun hall => ⟨by omega, fun i hmem => by have := hall i hmem; omega⟩
  case case5 k o l heol hnoop hbad =>
    have h₀ : tcpopt optr = k := h 0 (by simp)
    have h₁ : tcpopt (optr + 1) = o := h 1 (by simp)
    rw [truncated, if_neg heol, if_neg hnoop, if_pos hbad,
      options_bad (by simp) (h₀ ▸ heol) (h₀ ▸ hnoop) (by rw [h₁]; simpa using hbad)]
    simp
  case case6 k o l heol hnoop hbad hi =>
    have h₀ : tcpopt optr = k := h 0 (by simp)
    have h₁ : tcpopt (optr + 1) = o := h 1 (by simp)
    have hlen : (k :: o :: l).length = l.length + 2 := rfl
    have hdrop : (l.drop (o.toNat - 2)).length = (k :: o :: l).length - o.toNat := by
      rw [List.length_drop]
      omega
    obtain ⟨mss', ws', more, ho, hmore⟩ := options_next (n := (k :: o :: l).length) mss ws
      (by simp) (h₀ ▸ heol) (h₀ ▸ hnoop) (by rw [h₁]; omega) (by rw [h₁]; omega)
    have htail : ∀ i < (l.drop (o.toNat - 2)).length, tcpopt (optr + o.toNat + i) = (l.drop (o.toNat - 2)).getD i 0 := by
      intro i hi
      have hat := h (o.toNat + i) (by omega)
      have hsucc : o.toNat + i = o.toNat - 2 + i + 1 + 1 := by omega
      rw [Nat.add_assoc, hat, hsucc, List.getD_cons_succ, List.getD_cons_succ, List.getD_eq_getElem?_getD,
        List.getD_eq_getElem?_getD, List.getElem?_drop]
    have hle : optr + o.toNat + (l.drop (o.toNat - 2)).length = optr + (k :: o :: l).length := by omega
    rw [truncated, if_neg heol, if_neg hnoop, if_neg hbad, ho, h₁, ← hdrop, ← hi _ _ htail, hle]
    simp only [List.mem_append]
    constructor
    · exact fun hall i hmem => hall i (.inr hmem)
    · rintro hall i (hmem | hmem)
      · have := hmore i hmem
        rw [h₁] at this
        omega
      · exact hall i hmem

section Pull

theorem payload_cons (b : Block) (bp : List Block) : payload (b :: bp) = b.data ++ payload bp :=
  rfl

theorem blocklen_cons (b : Block) (bp : List Block) : blocklen (b :: bp) = b.data.length + blocklen bp := by
  simp [blocklen]

theorem pull_some (h : pull n d bp = some (d', bp')) :
    d' ++ payload bp' = d ++ payload bp ∧ d'.length = d.length + n ∧ n ≤ blocklen bp := by
  induction bp generalizing n d
  case nil => contradiction
  case cons b bp hi =>
    rw [payload_cons, blocklen_cons]
    rw [pull] at h
    split at h
    case isTrue hlt =>
      cases h
      refine ⟨?_, ?_, by omega⟩
      · rw [payload_cons, List.append_assoc, ← List.append_assoc (b.data.take n), List.take_append_drop]
      · rw [List.length_append, List.length_take]
        omega
    case isFalse hge =>
      split at h
      case isTrue heq =>
        cases h
        exact ⟨List.append_assoc .., by rw [List.length_append, heq], by omega⟩
      case isFalse hne =>
        obtain ⟨hpay, hlen, hle⟩ := hi h
        rw [List.length_append] at hlen
        exact ⟨hpay.trans <| List.append_assoc .., by omega, by omega⟩

theorem pull_none (h : pull n d bp = none) (hn : 0 < n) : blocklen bp < n := by
  induction bp generalizing n d
  case nil => exact hn
  case cons b bp hi =>
    rw [pull] at h
    split at h
    case isTrue => contradiction
    case isFalse hge =>
      split at h
      case isTrue => contradiction
      case isFalse hne =>
        have := hi h (by omega)
        rw [blocklen_cons]
        omega

-- How many bytes the first block can hold.
def Block.cap (b : Block) : Nat :=
  b.data.length + b.room

theorem le_roundup (n : Nat) : n ≤ roundup n := by
  rw [roundup, BLOCKALIGN]
  omega

theorem pullupblock_some (h : pullupblock addr n (b :: bp) = some (moved, bp')) :
    ∃ b' rest, bp' = b' :: rest ∧ payload (b' :: rest) = payload (b :: bp) ∧ n ≤ b'.data.length ∧
      b'.cap = (if b.cap < n then roundup n else b.cap) ∧ n ≤ blocklen (b :: bp) ∧
      (moved = true ↔ b.cap < n) := by
  have hup := le_roundup n
  rw [blocklen_cons]
  rw [pullupblock] at h
  split at h
  case isTrue hle =>
    cases h
    have hcap : ¬ b.cap < n := by
      rw [Block.cap]
      omega
    exact ⟨b, bp, rfl, rfl, hle, by rw [if_neg hcap], by omega, by simp [hcap]⟩
  case isFalse hgt =>
    split at h
    case isTrue hcap =>
      obtain ⟨⟨d, rest⟩, hpull, heq⟩ := Option.map_eq_some_iff.mp h
      cases heq
      obtain ⟨hpay, hlen, hle⟩ := pull_some hpull
      have hlen : d.length = n := hlen.trans <| Nat.zero_add n
      refine ⟨_, rest, rfl, hpay, Nat.le_of_eq hlen.symm, ?_, by rwa [blocklen_cons] at hle, by simp [Block.cap, hcap]⟩
      show d.length + (roundup n - d.length) = _
      have hcap' : b.cap < n := hcap
      rw [if_pos hcap', hlen]
      omega
    case isFalse hcap =>
      obtain ⟨⟨d, rest⟩, hpull, heq⟩ := Option.map_eq_some_iff.mp h
      cases heq
      obtain ⟨hpay, hlen, hle⟩ := pull_some hpull
      have hlen : d.length = n - b.data.length := hlen.trans <| Nat.zero_add _
      have hcap' : ¬ b.cap < n := hcap
      refine ⟨_, rest, rfl, ?_, ?_, ?_, by omega, by simp [hcap']⟩
      · have hpay : d ++ payload rest = payload bp := hpay
        rw [payload_cons, payload_cons, Block.fill, List.append_assoc, hpay]
      · rw [Block.fill, List.length_append]
        omega
      · rw [if_neg hcap', Block.cap, Block.cap, Block.fill, List.length_append]
        dsimp only
        omega

theorem pullupblock_none (h : pullupblock addr n (b :: bp) = none) : blocklen (b :: bp) < n := by
  rw [blocklen_cons]
  rw [pullupblock] at h
  split at h
  case isTrue => contradiction
  case isFalse hgt =>
    split at h
    case isTrue =>
      have := pull_none (Option.map_eq_none_iff.mp h) (by omega)
      rwa [blocklen_cons] at this
    case isFalse =>
      have := pull_none (Option.map_eq_none_iff.mp h) (by omega)
      omega

end Pull

-- What is looked at is in a block that was not freed, and before the end of the header.
def Ntoh.Safe (r : Ntoh) : Prop :=
  (r.stale = true → r.reads = []) ∧ ∀ i ∈ r.reads, i < r.hdrlen - HDRSIZE

-- The length that a header claims.
def claimed (PKT : Nat) (h : List UInt8) : Nat :=
  (h.getD (PKT + 12) 0).toNat / 4 / 4 * 4

-- If there are options and all of them came, the block that has the header after it was pulled up can hold them too,
-- and they do not end behind the first byte of one that has a length.
def Fits (PKT : Nat) : List Block → Prop
  | []      => True
  | b :: bp =>
    let cap := if b.cap < PKT + HDRSIZE then roundup (PKT + HDRSIZE) else b.cap
    let h := payload (b :: bp)
    let hdrlen := claimed PKT h
    HDRSIZE < hdrlen → hdrlen + PKT ≤ blocklen (b :: bp) →
      hdrlen + PKT ≤ cap ∧ truncated ((h.drop (PKT + HDRSIZE)).take (hdrlen - HDRSIZE)) = false

theorem options_ne_nil (hn : n ≠ 0) : (options tcpopt n optr mss ws).snd ≠ [] := by
  rw [options, dif_neg hn]
  split
  · simp
  · split
    · simp
    · dsimp only
      split
      · simp
      · split
        · simp
        · split <;> simp

theorem ntohtcp_none (length : List UInt8 → Nat → Nat) (h : pullupblock addr (PKT + HDRSIZE) bp = none) :
    ntohtcp PKT length addr mem bp = none := by
  rw [ntohtcp, h, Option.bind_none]

theorem ntohtcp_safe (length : List UInt8 → Nat → Nat) (addr : Nat) (mem : Nat → UInt8) (bp : List Block) :
    (∀ r, ntohtcp PKT length addr mem bp = some r → r.Safe) ↔ Fits PKT bp := by
  have hvacuous {p : Prop} (hnone : ntohtcp PKT length addr mem bp = none) (hp : p) :
      (∀ r, ntohtcp PKT length addr mem bp = some r → r.Safe) ↔ p :=
    ⟨fun _ => hp, fun _ r hr => absurd (hnone.symm.trans hr) (by simp)⟩
  cases bp
  case nil => exact hvacuous (ntohtcp_none length rfl) trivial
  case cons b bp =>
    cases hfirst : pullupblock addr (PKT + HDRSIZE) (b :: bp)
    case none =>
      have := pullupblock_none hfirst
      exact hvacuous (ntohtcp_none length hfirst) fun h hle => by omega
    case some x =>
      obtain ⟨moved, bp₁⟩ := x
      obtain ⟨b₁, rest₁, rfl, hpay₁, hlen₁, hcap₁, -, -⟩ := pullupblock_some hfirst
      have hclaimed : (b₁.data.getD (PKT + 12) 0).toNat / 4 / 4 * 4 = claimed PKT (payload (b :: bp)) := by
        have hlt : PKT + 12 < b₁.data.length := Nat.lt_of_lt_of_le (Nat.add_lt_add_left (by decide) _) hlen₁
        rw [claimed, ← hpay₁, payload_cons, List.getD_eq_getElem?_getD, List.getD_eq_getElem?_getD,
          List.getElem?_append_left hlt]
      rw [Fits, ← hcap₁]
      obtain ⟨hdrlen, hhdrlen⟩ : ∃ hdrlen, hdrlen = claimed PKT (payload (b :: bp)) := ⟨_, rfl⟩
      rw [← hhdrlen] at hclaimed ⊢
      by_cases hshort : hdrlen < HDRSIZE
      case pos =>
        refine hvacuous ?_ fun h => by omega
        rw [ntohtcp, hfirst]
        simp only [Option.bind_some, hclaimed, if_pos hshort]
      case neg =>
        have hblocklen : blocklen (b₁ :: rest₁) = blocklen (b :: bp) := by
          rw [← payload_length, hpay₁, payload_length]
        cases hsecond : pullupblock addr (hdrlen + PKT) (b₁ :: rest₁)
        case none =>
          have := pullupblock_none hsecond
          refine hvacuous ?_ fun h hle => by omega
          rw [ntohtcp, hfirst]
          simp only [Option.bind_some, hclaimed, if_neg hshort, hsecond, Option.bind_none]
        case some x =>
          obtain ⟨stale, bp₂⟩ := x
          obtain ⟨b₂, rest₂, rfl, hpay₂, hlen₂, -, hle₂, hstale⟩ := pullupblock_some hsecond
          obtain ⟨tcpopt, htcpopt⟩ : ∃ tcpopt : Nat → UInt8, tcpopt = fun i =>
            if stale then mem i else b₂.data[PKT + HDRSIZE + i]?.getD (mem i) := ⟨_, rfl⟩
          obtain ⟨r, hr, hreads, hrstale, hrhdrlen⟩ : ∃ r, ntohtcp PKT length addr mem (b :: bp) = some r ∧
              r.reads = (options tcpopt (hdrlen - HDRSIZE) 0 0 0).snd ∧ r.stale = stale ∧ r.hdrlen = hdrlen := by
            rw [ntohtcp, hfirst]
            simp only [Option.bind_some, hclaimed, if_neg hshort, hsecond, List.head?_cons, Option.map_some,
              Option.getD_some, ← htcpopt]
            exact ⟨_, rfl, rfl, rfl, rfl⟩
          have hall : (∀ r, ntohtcp PKT length addr mem (b :: bp) = some r → r.Safe) ↔ r.Safe :=
            ⟨fun h => h r hr, fun h r' hr' => Option.some.inj (hr.symm.trans hr') ▸ h⟩
          rw [hall, Ntoh.Safe, hreads, hrstale, hrhdrlen]
          by_cases hn : hdrlen - HDRSIZE = 0
          case pos =>
            have hnone : ¬ HDRSIZE < hdrlen := by omega
            rw [hn, options_zero]
            exact ⟨fun _ h => absurd h hnone, fun _ => ⟨fun _ => rfl, fun _ hi => absurd hi (by simp)⟩⟩
          case neg =>
            have hopts : HDRSIZE < hdrlen := by omega
            cases stale
            case true =>
              have hcap : b₁.cap < hdrlen + PKT := hstale.mp rfl
              constructor
              · exact fun h => absurd (h.left rfl) <| options_ne_nil hn
              · intro h
                have := (h hopts (hblocklen ▸ hle₂)).left
                omega
            case false =>
              have hcap : ¬ b₁.cap < hdrlen + PKT := fun h => absurd (hstale.mpr h) (by simp)
              obtain ⟨l, hl⟩ : ∃ l, l = ((payload (b :: bp)).drop (PKT + HDRSIZE)).take (hdrlen - HDRSIZE) := ⟨_, rfl⟩
              have hllen : l.length = hdrlen - HDRSIZE := by
                rw [hl, List.length_take, List.length_drop, payload_length, ← hblocklen]
                omega
              have hat : ∀ i < l.length, tcpopt (0 + i) = l.getD i 0 := by
                intro i hi
                have hlt : PKT + HDRSIZE + i < b₂.data.length := by omega
                rw [hl, ← hpay₁, ← hpay₂, payload_cons, List.getD_eq_getElem?_getD, List.getElem?_take_of_lt (by omega),
                  List.getElem?_drop, List.getElem?_append_left hlt, htcpopt, Nat.zero_add]
                simp only [Bool.false_eq_true, if_false, List.getElem?_eq_getElem hlt, Option.getD_some]
              have hsafe := options_reads 0 0 hat
              rw [hllen, Nat.zero_add] at hsafe
              rw [← hl, hsafe]
              constructor
              · exact fun h _ _ => ⟨Nat.not_lt.mp hcap, h.right⟩
              · exact fun h => ⟨fun h => (absurd h (by simp)), (h hopts (hblocklen ▸ hle₂)).right⟩

end Ip.TcpHeader
