import Nix.Ip.TcpHeaderOptions

namespace Ip.TcpHeader

open OnesComplement
open Ptclbsum (ptclcsum)

variable {PKT IPLEN : Nat} {little : Bool} {addr addr' csum dlen : Nat} {mem : Nat → UInt8} {tcph : Tcp} {bp p : List Block}
variable {data : List Block} {b : Block} {sport dport : UInt16} {ip d : List UInt8} {tcb : Option Tcpctl}

-- What was put into a packet is what is read of it.
structure Ntoh.Same (r : Ntoh) (ph : Proto PKT) (tcph : Tcp) (scale dlen : Nat) (p : List Block) : Prop where
  hdrlen : r.hdrlen = tcph.hdrlen
  source : r.seg.source = ph.sport
  dest   : r.seg.dest = ph.dport
  seq    : r.seg.seq = tcph.seq
  ack    : r.seg.ack = tcph.ack
  flags  : r.seg.flags = tcph.flags
  urg    : r.seg.urg = tcph.urg
  wnd    : r.seg.wnd.toNat = tcph.wnd.toNat >>> scale
  mss    : r.seg.mss = tcph.mss
  ws     : r.seg.ws = tcph.ws
  len    : r.seg.len.toNat = dlen
  bp     : r.bp = p

-- The scaled window fits its field, options are there on a SYN segment only, with a scale that is one, and the length
-- of the data is a `ushort`.
structure Tcp.Codable (tcph : Tcp) (scale dlen : Nat) : Prop where
  wnd : tcph.wnd.toNat >>> scale < 65536
  mss : tcph.mss = 0 ∨ tcph.syn = true
  ws  : tcph.ws = 0 ∨ tcph.syn = true ∧ HaveWS.toNat ≤ tcph.ws.toNat ∧ tcph.ws.toNat ≤ HaveWS.toNat + 14
  len : dlen < 65536

theorem Tcp.scaled_eq_iff (tcph : Tcp) :
    tcph.scaled = tcph.ws ↔ tcph.ws = 0 ∨ HaveWS.toNat ≤ tcph.ws.toNat ∧ tcph.ws.toNat ≤ HaveWS.toNat + 14 := by
  have hlt := tcph.ws.toNat_lt
  have hhave : HaveWS.toNat = 256 := rfl
  have hle : UInt8.ofNat tcph.ws.toNat ≤ 14 ↔ tcph.ws.toNat % 256 ≤ 14 := by
    rw [UInt8.le_iff_toNat_le, UInt8.toNat_ofNat']
    rfl
  have hor : (HaveWS ||| (UInt8.ofNat tcph.ws.toNat).toUInt16).toNat = 256 + tcph.ws.toNat % 256 := by
    have hmod : tcph.ws.toNat % 256 < 2 ^ 8 := Nat.mod_lt _ (by decide)
    rw [UInt16.toNat_or, UInt8.toNat_toUInt16, UInt8.toNat_ofNat', hhave]
    exact (Nat.two_pow_add_eq_or_of_lt hmod 1).symm
  rw [scaled, hhave]
  by_cases hws : tcph.ws = 0
  case pos => simp [hws]
  case neg =>
    have hws' : tcph.ws.toNat ≠ 0 := fun h => hws <| UInt16.toNat_inj.mp h
    by_cases hs : tcph.ws.toNat % 256 ≤ 14
    case pos =>
      rw [if_pos ⟨hws, hle.mpr hs⟩, ← UInt16.toNat_inj, hor]
      constructor
      · exact fun h => .inr (by omega)
      · rintro (h | h)
        · exact absurd h hws
        · omega
    case neg =>
      rw [if_neg fun h => hs <| hle.mp h.right]
      constructor
      · exact fun h => absurd h.symm hws
      · rintro (h | h)
        · exact h.symm
        · omega

-- The packet that was built is read as it was meant if it could be written.
theorem same_iff {ph : Proto PKT} (addr : Nat) (mem : Nat → UInt8) (bp : List Block) (length : List UInt8 → Nat → Nat)
    (scale : Nat) (hip : ip.length = PKT)
    (hb : b.data = ip ++ (tcph.bytes ph.sport ph.dport scale csum ++ (tcph.opts ++ d)))
    (hlen : length b.data tcph.hdrlen % 65536 = dlen % 65536) :
    (∃ r, ntohtcp PKT length addr mem (b :: bp) = some r ∧ r.Same ph tcph scale dlen (b :: bp)) ↔
      tcph.Codable scale dlen := by
  obtain ⟨reads, hr⟩ := ntohtcp_eq addr mem bp length hip hb
  have hwnd : (UInt32.ofNat (tcph.wnd.toNat >>> scale % 65536)).toNat = tcph.wnd.toNat >>> scale % 65536 := by
    rw [UInt32.toNat_ofNat']
    omega
  have hlen' : (UInt16.ofNat (length b.data tcph.hdrlen)).toNat = dlen % 65536 := by rw [UInt16.toNat_ofNat', hlen]
  have hscaled := tcph.scaled_eq_iff
  constructor
  · rintro ⟨r, hr', hsame⟩
    obtain rfl := Option.some.inj <| hr.symm.trans hr'
    have hw := hwnd.symm.trans hsame.wnd
    have hl := hlen'.symm.trans hsame.len
    have hm : (if tcph.syn then tcph.mss else 0) = tcph.mss := hsame.mss
    have hs : (if tcph.syn then tcph.scaled else 0) = tcph.ws := hsame.ws
    refine ⟨by omega, ?_, ?_, by omega⟩ <;> cases hsyn : tcph.syn <;> rw [hsyn] at hm hs
    · exact .inl hm.symm
    · exact .inr rfl
    · exact .inl hs.symm
    · exact (hscaled.mp hs).imp_right fun h => ⟨rfl, h⟩
  · intro h
    refine ⟨_, hr, rfl, rfl, rfl, rfl, rfl, rfl, rfl, hwnd.trans <| Nat.mod_eq_of_lt h.wnd, ?_, ?_,
      hlen'.trans <| Nat.mod_eq_of_lt h.len, rfl⟩ <;> dsimp only <;> cases hsyn : tcph.syn
    · exact (h.mss.resolve_right fun ht => nomatch hsyn.symm.trans ht).symm
    · rfl
    · exact (h.ws.resolve_right fun ht => nomatch hsyn.symm.trans ht.left).symm
    · exact hscaled.mpr <| h.ws.imp_right And.right

section Sum

theorem bytes_summed (bp : List Block) : Ptclbsum.bytes (bp.map Block.summed) = payload bp := by
  rw [Ptclbsum.bytes, List.flatMap_map]
  rfl

theorem weigh_bytes (tcph : Tcp) (sport dport : UInt16) (scale csum : Nat) (l : List UInt8) :
    weigh 256 1 (tcph.bytes sport dport scale csum ++ l) =
      weigh 256 1 (tcph.bytes sport dport scale 0 ++ l) + csum % 65536 := by
  have hfront : ((tcph.bytes sport dport scale 0).take 16).length % 2 = 0 := by rw [List.length_take, tcph.bytes_length]; rfl
  have hsplit (csum : Nat) : tcph.bytes sport dport scale csum ++ l = (tcph.bytes sport dport scale 0).take 16 ++
      (.ofNat (csum / 256) :: .ofNat csum :: ((tcph.bytes sport dport scale 0).drop 18 ++ l)) := rfl
  have hzero : (UInt8.ofNat 0).toNat = 0 := rfl
  have hcsum := two_bytes csum
  rw [hsplit csum, hsplit 0, weigh_append, weigh_append, if_pos hfront, if_pos hfront]
  simp only [weigh, Nat.zero_div, hzero]
  omega

theorem ptclcsum_packet {PHDRSIZE scale : Nat} (hip : ip.length = IPLEN + PHDRSIZE) (hd : (d ++ payload bp).length = dlen)
    (hdlen : dlen < 65536) (hsize : PHDRSIZE < 1000)
    (hb : b.data = ip ++ (tcph.bytes sport dport scale csum ++ (tcph.opts ++ d))) :
    ptclcsum little ((b :: bp).map Block.summed) IPLEN (tcph.hdrlen + dlen + PHDRSIZE) =
      65535 - sum (ip.drop IPLEN ++ (tcph.bytes sport dport scale csum ++ (tcph.opts ++ (d ++ payload bp)))) := by
  have hbytes := tcph.bytes_length sport dport scale csum
  have hhdrlen := tcph.hdrlen_eq
  have hle := tcph.hdrlen_le.left
  have hfirst : ¬ (IPLEN ≠ 0 ∧ b.summed.data.length ≤ IPLEN) := by
    rintro ⟨-, h⟩
    have : b.data.length ≤ IPLEN := h
    rw [hb, List.length_append, List.length_append, hip, hbytes] at this
    simp only [HDRSIZE] at this
    omega
  have hskip : Ptclbsum.skip IPLEN ((b :: bp).map Block.summed) ≠ [] := by
    rw [List.map_cons, Ptclbsum.skip, if_neg hfirst]
    simp
  have hsel : ((payload (b :: bp)).drop IPLEN).take (tcph.hdrlen + dlen + PHDRSIZE) =
      ip.drop IPLEN ++ (tcph.bytes sport dport scale csum ++ (tcph.opts ++ (d ++ payload bp))) := by
    rw [payload_cons, hb, List.append_assoc, List.append_assoc, List.append_assoc, List.drop_append_of_le_length (by omega),
      List.take_of_length_le]
    simp only [List.length_append, List.length_drop] at hd ⊢
    omega
  have hlen : (ip.drop IPLEN ++ (tcph.bytes sport dport scale csum ++ (tcph.opts ++ (d ++ payload bp)))).length ≤ 131074 := by
    simp only [List.length_append, List.length_drop] at hd ⊢
    omega
  obtain ⟨h₁, h₂⟩ := Ptclbsum.weigh_lt hlen
  have heq := (Ptclbsum.ptclcsum_eq little ((b :: bp).map Block.summed) IPLEN (tcph.hdrlen + dlen + PHDRSIZE)
    (by rw [bytes_summed, hsel]; exact h₁) (by rw [bytes_summed, hsel]; exact h₂)).left
  rwa [if_neg hskip, bytes_summed, hsel] at heq

theorem sum_complement {scale : Nat} {front tail : List UInt8} (hfront : front.length % 2 = 0)
    (hcsum : csum = 65535 - sum (front ++ (tcph.bytes sport dport scale 0 ++ tail))) :
    65535 - sum (front ++ (tcph.bytes sport dport scale csum ++ tail)) = 0 := by
  have hlt := reduce_lt (weigh 256 1 front + weigh 256 1 (tcph.bytes sport dport scale 0 ++ tail))
  rw [sum_eq, weigh_append, if_pos hfront] at hcsum
  rw [sum_eq, weigh_append, if_pos hfront, weigh_bytes, Nat.mod_eq_of_lt (by omega), ← Nat.add_assoc]
  have h := reduce_add (reduce_reduce (weigh 256 1 front + weigh 256 1 (tcph.bytes sport dport scale 0 ++ tail))) csum
  rw [Nat.add_comm, ← h, Nat.add_comm, hcsum, Nat.add_sub_of_le (by omega)]
  rfl

theorem nhgets_payload (hip : ip.length = PKT) {scale : Nat}
    (hb : b.data = ip ++ (tcph.bytes sport dport scale csum ++ (tcph.opts ++ d))) :
    nhgets (payload (b :: bp)) (PKT + 16) = csum % 65536 := by
  rw [payload_cons, hb, ← hip, List.append_assoc, nhgets_append_right]
  exact two_bytes csum

end Sum

section Version4

variable {ph : Proto TCP4_PKT}

theorem htontcp4_eq (little : Bool) (addr : Nat) (ph : Proto TCP4_PKT) (tcb : Option Tcpctl)
    (h : Room (tcph.hdrlen + TCP4_PKT) data) :
    ∃ (b : Block) (bp : List Block) (ip d : List UInt8) (csum : Nat), ip.length = TCP4_PKT ∧
      htontcp4 little addr tcph data ph.bytes tcb = some (b :: bp) ∧
      b.data = ip ++ (tcph.bytes ph.sport ph.dport (scale tcb) csum ++ (tcph.opts ++ d)) ∧
      d ++ payload bp = payload data ∧
      csum = if tcb.any Tcpctl.nochecksum then 0 else
        ptclcsum little
          (({ b with data := ip ++ (tcph.bytes ph.sport ph.dport (scale tcb) 0 ++ (tcph.opts ++ d)) } :: bp).map
            Block.summed) TCP4_IPLEN (tcph.hdrlen + blocklen data + TCP4_PHDRSIZE) := by
  have hip : (hnputs ph.ip 10 (tcph.hdrlen + blocklen data)).length = TCP4_PKT := by rw [hnputs_length, ph.ip_length]
  obtain ⟨b, bp, d, csum, hp, hd, hcsum⟩ := htontcp_eq TCP4_IPLEN TCP4_PHDRSIZE
    (fun len h => hnputs h 10 len) (fun _ h => h) little addr ph tcb h (fun l => hnputs_append_left (by rw [ph.ip_length]; decide)) hip fun _ => rfl
  exact ⟨_, bp, _, d, csum, hip, hp, rfl, hd, hcsum⟩

theorem roundtrip4 (little : Bool) (addr addr' : Nat) (mem : Nat → UInt8) (tcph : Tcp) (data : List Block)
    (ph : Proto TCP4_PKT) (tcb : Option Tcpctl) :
    (∃ p r, htontcp4 little addr tcph data ph.bytes tcb = some p ∧ ntohtcp4 addr' mem (ipoput4 p) = some r ∧
      r.Same ph tcph (scale tcb) (blocklen data) (ipoput4 p)) ↔
    Room (tcph.hdrlen + TCP4_PKT) data ∧ tcph.Codable (scale tcb) (blocklen data) := by
  by_cases hroom : Room (tcph.hdrlen + TCP4_PKT) data
  case neg =>
    constructor
    · rintro ⟨p, r, hp, -⟩
      exact nomatch (htontcp_eq_none hroom _).symm.trans hp
    · exact fun h => absurd h.left hroom
  case pos =>
    obtain ⟨b, bp, ip, d, csum, hip, hp, hb, hd, -⟩ := htontcp4_eq little addr ph tcb hroom
    obtain ⟨b', hb'⟩ : ∃ b', b' = { b with data := hnputs b.data 2 (blocklen (b :: bp)) } := ⟨_, rfl⟩
    have hput : ipoput4 (b :: bp) = b' :: bp := by rw [ipoput4, hb']
    have hdata : b'.data = hnputs ip 2 (blocklen (b :: bp)) ++
        (tcph.bytes ph.sport ph.dport (scale tcb) csum ++ (tcph.opts ++ d)) := by
      rw [hb', hb, hnputs_append_left (by rw [hip]; decide)]
    have hblocklen : blocklen (b :: bp) = TCP4_PKT + tcph.hdrlen + blocklen data := by
      have := congrArg List.length hd
      rw [List.length_append, payload_length, payload_length] at this
      rw [blocklen_cons, hb, List.length_append, List.length_append, List.length_append, tcph.bytes_length, hip,
        tcph.hdrlen_eq]
      omega
    have hlen : (nhgets b'.data 2 + 65536 - (tcph.hdrlen + TCP4_PKT)) % 65536 = blocklen data % 65536 := by
      have hle := tcph.hdrlen_le.left
      have hpkt : TCP4_PKT = 20 := rfl
      rw [hdata, nhgets_append_left (by rw [hnputs_length, hip]; decide), nhgets_hnputs (by rw [hip]; decide), hblocklen]
      omega
    have hsame := same_iff addr' mem bp (fun h hdrlen => nhgets h 2 + 65536 - (hdrlen + TCP4_PKT))
      (scale tcb) (by rw [hnputs_length, hip]) hdata hlen
    constructor
    · rintro ⟨p, r, hp', hr, hs⟩
      obtain rfl := Option.some.inj <| hp.symm.trans hp'
      rw [hput] at hr hs
      exact ⟨hroom, hsame.mp ⟨r, hr, hs⟩⟩
    · rintro ⟨-, h⟩
      obtain ⟨r, hr, hs⟩ := hsame.mpr h
      exact ⟨_, r, hp, by rwa [hput], by rwa [hput]⟩

theorem checksum4 (addr : Nat) (ph : Proto TCP4_PKT) (hp : htontcp4 little addr tcph data ph.bytes tcb = some p)
    (hlen : blocklen data < 65536) :
    if tcb.any Tcpctl.nochecksum then nhgets (payload p) (TCP4_PKT + 16) = 0
    else ptclcsum little (p.map Block.summed) TCP4_IPLEN (tcph.hdrlen + blocklen data + TCP4_PHDRSIZE) = 0 := by
  have hroom : Room (tcph.hdrlen + TCP4_PKT) data := by
    by_contra hno
    exact nomatch (htontcp_eq_none hno _).symm.trans hp
  obtain ⟨b, bp, ip, d, csum, hip, hp', hb, hd, hcsum⟩ := htontcp4_eq little addr ph tcb hroom
  obtain rfl := Option.some.inj <| hp'.symm.trans hp
  have hdlen : (d ++ payload bp).length = blocklen data := by rw [hd, payload_length]
  split
  case isTrue hno =>
    rw [if_pos hno] at hcsum
    rw [nhgets_payload hip hb, hcsum]
  case isFalse hno =>
    rw [if_neg hno, ptclcsum_packet hip hdlen hlen (by decide) rfl] at hcsum
    rw [ptclcsum_packet hip hdlen hlen (by decide) hb]
    refine sum_complement ?_ hcsum
    rw [List.length_drop, hip]
    rfl

end Version4

section Version6

theorem take_eight (h : 8 ≤ ip.length) : ∃ a₀ a₁ a₂ a₃ a₄ a₅ a₆ a₇,
    ip = [a₀, a₁, a₂, a₃, a₄, a₅, a₆, a₇] ++ ip.drop 8 := by
  rcases ip with _ | ⟨a₀, _ | ⟨a₁, _ | ⟨a₂, _ | ⟨a₃, _ | ⟨a₄, _ | ⟨a₅, _ | ⟨a₆, _ | ⟨a₇, r⟩⟩⟩⟩⟩⟩⟩⟩
  case cons.cons.cons.cons.cons.cons.cons.cons => exact ⟨a₀, a₁, a₂, a₃, a₄, a₅, a₆, a₇, rfl⟩
  all_goals simp at h

-- The first bytes of the pseudo header, and those of the normal one.

def first6 (proto : UInt8) (len : Nat) : List UInt8 :=
  [.ofNat (len / 65536 / 256), .ofNat (len / 65536), .ofNat (len / 256), .ofNat len, 0, 0, 0, proto]

def second6 (proto : UInt8) (len : Nat) : List UInt8 :=
  [IP_VER6, 0, 0, 0, .ofNat (len / 256), .ofNat len, proto, proto]

theorem pseudo6_eq (proto : UInt8) (len : Nat) (l : List UInt8) (h : 8 ≤ ip.length) :
    pseudo6 proto len (ip ++ l) = first6 proto len ++ ip.drop 8 ++ l := by
  obtain ⟨a₀, a₁, a₂, a₃, a₄, a₅, a₆, a₇, hip⟩ := take_eight h
  rw [hip]
  rfl

theorem normal6_eq (proto : UInt8) (len : Nat) (l r : List UInt8) :
    normal6 proto len (first6 proto len ++ r ++ l) = second6 proto len ++ r ++ l :=
  rfl

-- What the receiver makes of a header before it sums the packet is what the sender summed.
theorem tcpiput6_eq {proto : UInt8} {len : Nat} (l : List UInt8) (hlen : len < 65536) :
    tcpiput6 (second6 proto len ++ l) = first6 proto len ++ l := by
  have hget : nhgets (second6 proto len ++ l) 4 = len := (two_bytes len).trans <| Nat.mod_eq_of_lt hlen
  rw [tcpiput6, hget]
  have hlen : 8 ≤ (second6 proto len).length := Nat.le_refl _
  exact pseudo6_eq proto len l hlen

theorem htontcp6_eq (little : Bool) (addr : Nat) (ph : Proto TCP6_PKT) (tcb : Option Tcpctl)
    (h : Room (tcph.hdrlen + TCP6_PKT) data) :
    ∃ (b : Block) (bp : List Block) (r d : List UInt8) (csum : Nat), r.length = 32 ∧
      htontcp6 little addr tcph data ph.bytes tcb = some (b :: bp) ∧
      b.data = (second6 (ph.ip.getD 6 0) (tcph.hdrlen + blocklen data) ++ r) ++
        (tcph.bytes ph.sport ph.dport (scale tcb) csum ++ (tcph.opts ++ d)) ∧
      d ++ payload bp = payload data ∧
      csum = if tcb.any Tcpctl.nochecksum then 0 else
        ptclcsum little
          (({ b with data := (first6 (ph.ip.getD 6 0) (tcph.hdrlen + blocklen data) ++ r) ++
              (tcph.bytes ph.sport ph.dport (scale tcb) 0 ++ (tcph.opts ++ d)) } :: bp).map
            Block.summed) TCP6_IPLEN (tcph.hdrlen + blocklen data + TCP6_PHDRSIZE) := by
  have hproto : ph.bytes.getD 6 0 = ph.ip.getD 6 0 := by
    rw [ph.bytes_eq, List.getD_eq_getElem?_getD, List.getElem?_append_left (by rw [ph.ip_length]; decide),
      List.getD_eq_getElem?_getD]
  have hr : (ph.ip.drop 8).length = 32 := by
    rw [List.length_drop, ph.ip_length]
    rfl
  obtain ⟨b, bp, d, csum, hp, hd, hcsum⟩ := htontcp_eq TCP6_IPLEN TCP6_PHDRSIZE (pseudo6 (ph.ip.getD 6 0))
    (normal6 (ph.ip.getD 6 0)) little addr ph tcb h (fun l => pseudo6_eq _ _ l (by rw [ph.ip_length]; decide))
    (by rw [List.length_append, hr]; rfl) fun l => normal6_eq _ _ l _
  have htcp : htontcp6 little addr tcph data ph.bytes tcb = htontcp TCP6_PKT TCP6_IPLEN TCP6_PHDRSIZE
      (pseudo6 (ph.ip.getD 6 0)) (normal6 (ph.ip.getD 6 0)) little addr tcph data ph.bytes tcb := by
    rw [htontcp6, hproto]
  exact ⟨_, bp, _, d, csum, hr, htcp.trans hp, rfl, hd, hcsum⟩

theorem roundtrip6 (little : Bool) (addr addr' : Nat) (mem : Nat → UInt8) (tcph : Tcp) (data : List Block)
    (ph : Proto TCP6_PKT) (tcb : Option Tcpctl) :
    (∃ p r, htontcp6 little addr tcph data ph.bytes tcb = some p ∧ ntohtcp6 addr' mem p = some r ∧
      r.Same ph tcph (scale tcb) (blocklen data) p) ↔
    Room (tcph.hdrlen + TCP6_PKT) data ∧ tcph.Codable (scale tcb) (blocklen data) := by
  by_cases hroom : Room (tcph.hdrlen + TCP6_PKT) data
  case neg =>
    constructor
    · rintro ⟨p, r, hp, -⟩
      exact nomatch (htontcp_eq_none hroom _).symm.trans hp
    · exact fun h => absurd h.left hroom
  case pos =>
    obtain ⟨b, bp, r, d, csum, hr, hp, hb, hd, -⟩ := htontcp6_eq little addr ph tcb hroom
    have hlen : (nhgets b.data 4 + 65536 - tcph.hdrlen) % 65536 = blocklen data % 65536 := by
      have hle := tcph.hdrlen_le.left
      have hget : nhgets b.data 4 = (tcph.hdrlen + blocklen data) % 65536 := by
        rw [hb]
        exact two_bytes _
      rw [hget]
      omega
    have hsame := same_iff addr' mem bp (fun h hdrlen => nhgets h 4 + 65536 - hdrlen)
      (scale tcb) (by rw [List.length_append, hr]; rfl) hb hlen
    constructor
    · rintro ⟨p, r, hp', hr, hs⟩
      obtain rfl := Option.some.inj <| hp.symm.trans hp'
      exact ⟨hroom, hsame.mp ⟨r, hr, hs⟩⟩
    · rintro ⟨-, h⟩
      obtain ⟨r, hr, hs⟩ := hsame.mpr h
      exact ⟨_, r, hp, hr, hs⟩

-- The packet as it is summed where it comes in.
def pseudoheader6 : List Block → List Block
  | []      => []
  | b :: bp => { b with data := tcpiput6 b.data } :: bp

theorem checksum6 (addr : Nat) (ph : Proto TCP6_PKT) (hp : htontcp6 little addr tcph data ph.bytes tcb = some p)
    (hlen : tcph.hdrlen + blocklen data < 65536) :
    if tcb.any Tcpctl.nochecksum then nhgets (payload p) (TCP6_PKT + 16) = 0
    else ptclcsum little ((pseudoheader6 p).map Block.summed) TCP6_IPLEN (tcph.hdrlen + blocklen data + TCP6_PHDRSIZE) = 0 := by
  have hroom : Room (tcph.hdrlen + TCP6_PKT) data := by
    by_contra hno
    exact nomatch (htontcp_eq_none hno _).symm.trans hp
  obtain ⟨b, bp, r, d, csum, hr, hp', hb, hd, hcsum⟩ := htontcp6_eq little addr ph tcb hroom
  obtain rfl := Option.some.inj <| hp'.symm.trans hp
  have hdlen : (d ++ payload bp).length = blocklen data := by rw [hd, payload_length]
  have hlen' : blocklen data < 65536 := by omega
  have hfirst (len : Nat) : (first6 (ph.ip.getD 6 0) len ++ r).length = TCP6_IPLEN + TCP6_PHDRSIZE := by
    rw [List.length_append, hr]
    rfl
  split
  case isTrue hno =>
    rw [if_pos hno] at hcsum
    have hip : (second6 (ph.ip.getD 6 0) (tcph.hdrlen + blocklen data) ++ r).length = TCP6_PKT := by
      rw [List.length_append, hr]
      rfl
    rw [nhgets_payload hip hb, hcsum]
  case isFalse hno =>
    rw [if_neg hno, ptclcsum_packet (hfirst _) hdlen hlen' (by decide) rfl] at hcsum
    have hdata : tcpiput6 b.data = (first6 (ph.ip.getD 6 0) (tcph.hdrlen + blocklen data) ++ r) ++
        (tcph.bytes ph.sport ph.dport (scale tcb) csum ++ (tcph.opts ++ d)) := by
      rw [hb, List.append_assoc, tcpiput6_eq _ hlen, List.append_assoc]
    rw [pseudoheader6, ptclcsum_packet (hfirst _) hdlen hlen' (by decide) hdata]
    refine sum_complement ?_ hcsum
    rw [List.length_drop, hfirst]
    rfl

end Version6

end Ip.TcpHeader
