import Nix.Ip.TcpHeader

namespace Ip

variable {p l xs : List UInt8} {i v : Nat}

namespace TcpHeader

open Ptclbsum (ptclcsum)

theorem put_append_right (p l xs : List UInt8) (i : Nat) : put (p ++ l) (p.length + i) xs = p ++ put l i xs := by
  have hdrop : p.length + i + xs.length = p.length + (i + xs.length) := Nat.add_assoc ..
  rw [put, put, hdrop, List.take_length_add_append, List.drop_length_add_append, List.append_assoc, List.append_assoc,
    List.append_assoc]

theorem hnputl_append_right (p l : List UInt8) (i v : Nat) : hnputl (p ++ l) (p.length + i) v = p ++ hnputl l i v := by
  rw [hnputl, hnputl, hnputs_append_right, Nat.add_assoc, hnputs_append_right]

-- A prototype header, as the callers have it: zero, other than the part of IP and the port numbers.
structure Proto (PKT : Nat) where
  ip        : List UInt8
  ip_length : ip.length = PKT
  sport     : UInt16
  dport     : UInt16

def Proto.bytes {PKT : Nat} (ph : Proto PKT) : List UInt8 :=
  hnputs (hnputs (ph.ip ++ List.replicate HDRSIZE 0) PKT ph.sport.toNat) (PKT + 2) ph.dport.toNat

def Tcp.opts (tcph : Tcp) : List UInt8 :=
  if tcph.syn then tcph.options else []

theorem Tcp.options_length (tcph : Tcp) : HDRSIZE + tcph.options.length = tcph.unpadded + tcph.optpad := by
  have hmss : MSS_LENGTH.toNat = 4 := rfl
  have hws : WS_LENGTH.toNat = 3 := rfl
  rw [options, unpadded, hmss, hws]
  split <;> split <;> simp <;> omega

theorem Tcp.hdrlen_eq (tcph : Tcp) : tcph.hdrlen = HDRSIZE + tcph.opts.length := by
  rw [hdrlen, opts]
  split
  · rw [options_length]
  · rfl

theorem Tcp.hdrlen_le (tcph : Tcp) : tcph.hdrlen ≤ 28 ∧ tcph.hdrlen % 4 = 0 := by
  rw [hdrlen]
  split
  · simp only [optpad, unpadded, HDRSIZE, MSS_LENGTH, WS_LENGTH]
    split <;> split <;> decide
  · decide

-- The header, with its checksum.
def Tcp.bytes (tcph : Tcp) (sport dport : UInt16) (scale csum : Nat) : List UInt8 :=
  let s (v : Nat) : List UInt8 := [.ofNat (v / 256), .ofNat v]
  s sport.toNat ++ s dport.toNat ++ s (tcph.seq.toNat / 65536) ++ s tcph.seq.toNat ++ s (tcph.ack.toNat / 65536) ++
    s tcph.ack.toNat ++ s (tcph.hdrlen <<< 10 ||| tcph.flags.toNat) ++ s (tcph.wnd.toNat >>> scale) ++ s csum ++
    s tcph.urg.toNat

theorem hnputl_append_left (h : i + 3 < p.length) : hnputl (p ++ l) i v = hnputl p i v ++ l := by
  rw [hnputl, hnputl, hnputs_append_left (by omega), hnputs_append_left (by rw [hnputs_length]; omega)]

@[simp]
theorem hnputl_length (p : List UInt8) (i v : Nat) : (hnputl p i v).length = p.length := by
  rw [hnputl, hnputs_length, hnputs_length]

theorem Tcp.bits_append_left (tcph : Tcp) (scale : Nat) (h : p.length = i + HDRSIZE) :
    tcph.bits i scale (p ++ l) = tcph.bits i scale p ++ l := by
  have h : p.length = i + 20 := h
  simp only [bits]
  rw [hnputl_append_left (by omega), hnputl_append_left (by simp; omega), hnputs_append_left (by simp; omega),
    hnputs_append_left (by simp; omega), hnputs_append_left (by simp; omega)]

theorem Tcp.bits_append_right (tcph : Tcp) (scale : Nat) (p l : List UInt8) :
    tcph.bits p.length scale (p ++ l) = p ++ tcph.bits 0 scale l := by
  simp only [bits, hnputl_append_right, hnputs_append_right, Nat.zero_add]

theorem Tcp.putopts_eq (tcph : Tcp) {tail : List UInt8} (hp : p.length = i + HDRSIZE) (ht : tail.length = tcph.opts.length) :
    tcph.putopts i (p ++ (tail ++ l)) = p ++ (tcph.opts ++ l) := by
  rw [putopts, opts] at *
  cases hsyn : tcph.syn
  case false =>
    rw [hsyn] at ht
    obtain rfl : tail = [] := List.eq_nil_of_length_eq_zero ht
    rfl
  case true =>
    rw [hsyn, if_pos rfl] at ht
    have hput := put_append_right p (tail ++ l) tcph.options 0
    rw [if_pos rfl, if_pos rfl, ← hp, ← Nat.add_zero p.length, hput, put, List.take_zero, List.nil_append, Nat.zero_add,
      List.drop_left' ht]

theorem Tcp.bits_eq (tcph : Tcp) (sport dport : UInt16) (scale csum : Nat) :
    hnputs (tcph.bits 0 scale (hnputs (hnputs (List.replicate HDRSIZE 0) 0 sport.toNat) 2 dport.toNat)) 16 csum =
      tcph.bytes sport dport scale csum := by
  simp only [bits, bytes, hnputl, hnputs, List.replicate, List.set, List.cons_append, List.nil_append]

theorem Tcp.bits_zero (tcph : Tcp) (sport dport : UInt16) (scale : Nat) :
    tcph.bits 0 scale (hnputs (hnputs (List.replicate HDRSIZE 0) 0 sport.toNat) 2 dport.toNat) =
      tcph.bytes sport dport scale 0 := by
  simp only [bits, bytes, hnputl, hnputs, List.replicate, List.set, List.cons_append, List.nil_append]
  rfl

theorem Tcp.bytes_csum (tcph : Tcp) (sport dport : UInt16) (scale csum : Nat) :
    hnputs (tcph.bytes sport dport scale 0) 16 csum = tcph.bytes sport dport scale csum := by
  rw [← bits_zero, bits_eq]

theorem Tcp.bytes_length (tcph : Tcp) (sport dport : UInt16) (scale csum : Nat) :
    (tcph.bytes sport dport scale csum).length = HDRSIZE :=
  rfl

theorem Proto.bytes_eq {PKT : Nat} (ph : Proto PKT) :
    ph.bytes = ph.ip ++ hnputs (hnputs (List.replicate HDRSIZE 0) 0 ph.sport.toNat) 2 ph.dport.toNat := by
  have h₁ := hnputs_append_right ph.ip (List.replicate HDRSIZE 0) 0 ph.sport.toNat
  have h₂ := hnputs_append_right ph.ip (hnputs (List.replicate HDRSIZE 0) 0 ph.sport.toNat) 2 ph.dport.toNat
  rw [Nat.add_zero, ph.ip_length] at h₁
  rw [ph.ip_length] at h₂
  rw [bytes, h₁, h₂]

-- There is room for a header in front of the data, or will be if the only block is copied.
def Room (size : Nat) : List Block → Prop
  | []      => True
  | b :: bp => size ≤ b.head.length ∨ bp = []

def payload (data : List Block) : List UInt8 :=
  data.flatMap Block.data

theorem payload_length (data : List Block) : (payload data).length = blocklen data := by
  rw [payload, List.length_flatMap, blocklen]

-- What the header is written into.
def padded (addr size : Nat) (data : List Block) : Option (List Block) :=
  if data.isEmpty then some [(allocb addr (size + 64)).fill (List.replicate size 0)] else padblock addr size data

theorem padded_eq {data : List Block} {size : Nat} (addr : Nat) (h : Room size data) :
    ∃ b bp pre d, padded addr size data = some (b :: bp) ∧ b.data = pre ++ d ∧ pre.length = size ∧
      d ++ payload bp = payload data := by
  cases data
  case nil => exact ⟨_, [], List.replicate size 0, [], rfl, (List.append_nil _).symm, List.length_replicate, rfl⟩
  case cons b bp =>
    rw [padded, List.isEmpty_cons, if_neg nofun, padblock]
    by_cases hle : size ≤ b.head.length
    case pos =>
      refine ⟨_, bp, _, b.data, if_pos hle, rfl, ?_, rfl⟩
      rw [List.length_drop]
      omega
    case neg =>
      obtain rfl := h.resolve_left hle
      refine ⟨(allocb addr (size + b.data.length)).fill (List.replicate size 0 ++ b.data), [], List.replicate size 0, b.data,
        ?_, rfl, List.length_replicate, rfl⟩
      rw [if_neg hle, if_pos rfl]

theorem padded_none {data : List Block} {size : Nat} (addr : Nat) (h : ¬ Room size data) : padded addr size data = none := by
  cases data
  case nil => exact absurd trivial h
  case cons b bp =>
    obtain ⟨hle, hbp⟩ := not_or.mp h
    rw [padded, List.isEmpty_cons, if_neg nofun, padblock, if_neg hle, if_neg hbp]

section Htontcp

variable {PKT IPLEN PHDRSIZE : Nat} {pseudo normal : Nat → List UInt8 → List UInt8} {little : Bool} {addr : Nat}
variable {tcph : Tcp} {data : List Block} {ph : Proto PKT} {tcb : Option Tcpctl} {ip ip' : List UInt8}

def scale (tcb : Option Tcpctl) : Nat :=
  (tcb.map Tcpctl.scale).getD 0

theorem htontcp_eq_none (h : ¬ Room (tcph.hdrlen + PKT) data) (ph : List UInt8) :
    htontcp PKT IPLEN PHDRSIZE pseudo normal little addr tcph data ph tcb = none :=
  congrArg (Option.bind · _) <| padded_none addr h

-- The packet that is built: what is made of the part of IP, the header, the options and the data.
theorem htontcp_eq (IPLEN PHDRSIZE : Nat) (pseudo normal : Nat → List UInt8 → List UInt8) (little : Bool) (addr : Nat)
    (ph : Proto PKT) (tcb : Option Tcpctl) (h : Room (tcph.hdrlen + PKT) data)
    (hpseudo : ∀ l, pseudo (tcph.hdrlen + blocklen data) (ph.ip ++ l) = ip ++ l) (hip : ip.length = PKT)
    (hnormal : ∀ l, normal (tcph.hdrlen + blocklen data) (ip ++ l) = ip' ++ l) :
    ∃ (b : Block) (bp : List Block) (d : List UInt8) (csum : Nat),
      htontcp PKT IPLEN PHDRSIZE pseudo normal little addr tcph data ph.bytes tcb =
        some ({ b with data := ip' ++ (tcph.bytes ph.sport ph.dport (scale tcb) csum ++ (tcph.opts ++ d)) } :: bp) ∧
      d ++ payload bp = payload data ∧
      csum = if tcb.any Tcpctl.nochecksum then 0 else
        ptclcsum little
          (({ b with data := ip ++ (tcph.bytes ph.sport ph.dport (scale tcb) 0 ++ (tcph.opts ++ d)) } :: bp).map
            Block.summed) IPLEN (tcph.hdrlen + blocklen data + PHDRSIZE) := by
  obtain ⟨b, bp, pre, d, hpadded, hb, hpre, hd⟩ := padded_eq addr h
  have hbytes : ph.bytes.length = PKT + HDRSIZE := by
    rw [ph.bytes_eq, List.length_append, ph.ip_length]
    rfl
  have htail : (pre.drop (PKT + HDRSIZE)).length = tcph.opts.length := by
    rw [List.length_drop, hpre, tcph.hdrlen_eq]
    omega
  have hput : put b.data 0 (ph.bytes.take (PKT + HDRSIZE)) = ph.bytes ++ (pre.drop (PKT + HDRSIZE) ++ d) := by
    have hle : PKT + HDRSIZE ≤ pre.length := by
      rw [hpre, tcph.hdrlen_eq]
      omega
    rw [List.take_of_length_le (Nat.le_of_eq hbytes), put, List.take_zero, List.nil_append, Nat.zero_add, hbytes, hb,
      List.drop_append_of_le_length hle]
  have hh : tcph.putopts PKT (tcph.bits PKT (scale tcb) (pseudo (tcph.hdrlen + blocklen data)
      (put b.data 0 (ph.bytes.take (PKT + HDRSIZE))))) =
        ip ++ (tcph.bytes ph.sport ph.dport (scale tcb) 0 ++ (tcph.opts ++ d)) := by
    rw [hput, ph.bytes_eq, List.append_assoc, hpseudo]
    subst hip
    rw [tcph.bits_append_right, tcph.bits_append_left (i := 0) _ rfl, tcph.bits_zero, ← List.append_assoc,
      tcph.putopts_eq (by rw [List.length_append, tcph.bytes_length]) htail, List.append_assoc]
  have hcsum (csum : Nat) : hnputs (ip ++ (tcph.bytes ph.sport ph.dport (scale tcb) 0 ++ (tcph.opts ++ d))) (PKT + 16) csum =
      ip ++ (tcph.bytes ph.sport ph.dport (scale tcb) csum ++ (tcph.opts ++ d)) := by
    subst hip
    rw [hnputs_append_right, hnputs_append_left (by rw [tcph.bytes_length]; decide), tcph.bytes_csum]
  refine ⟨b, bp, d, _, ?_, hd, rfl⟩
  refine (congrArg (Option.bind · _) hpadded).trans ?_
  refine congrArg some <| congrArg (· :: bp) ?_
  have hscale : (tcb.map Tcpctl.scale).getD 0 = scale tcb := rfl
  simp only [hscale, hh, hcsum, hnormal]

end Htontcp

end TcpHeader

end Ip

namespace Ip.TcpHeader

variable {PKT : Nat} {tcpopt mem : Nat → UInt8} {n optr k addr csum : Nat} {mss ws : UInt16} {l : List UInt8} {tcph : Tcp}
variable {b : Block} {bp : List Block} {sport dport : UInt16} {ip d : List UInt8}

section Steps

@[simp]
theorem options_zero (tcpopt : Nat → UInt8) (optr : Nat) (mss ws : UInt16) :
    options tcpopt 0 optr mss ws = ((mss, ws), []) := by
  rw [options, dif_pos rfl]

theorem options_eol (hn : n ≠ 0) (h : tcpopt optr = EOLOPT) : options tcpopt n optr mss ws = ((mss, ws), [optr]) := by
  rw [options, dif_neg hn, if_pos h]

theorem options_noop (hn : n ≠ 0) (h : tcpopt optr = NOOPOPT) : options tcpopt n optr mss ws =
    ((options tcpopt (n - 1) (optr + 1) mss ws).fst, optr :: (options tcpopt (n - 1) (optr + 1) mss ws).snd) := by
  rw [options, dif_neg hn, if_neg (h ▸ by decide), if_pos h]

theorem options_bad (hn : n ≠ 0) (h₀ : tcpopt optr ≠ EOLOPT) (h₁ : tcpopt optr ≠ NOOPOPT)
    (h : (tcpopt (optr + 1)).toNat < 2 ∨ n < (tcpopt (optr + 1)).toNat) :
    options tcpopt n optr mss ws = ((mss, ws), [optr, optr + 1]) := by
  rw [options, dif_neg hn, if_neg h₀, if_neg h₁, dif_pos h]

theorem options_next (mss ws : UInt16) (hn : n ≠ 0) (h₀ : tcpopt optr ≠ EOLOPT) (h₁ : tcpopt optr ≠ NOOPOPT)
    (h₂ : 2 ≤ (tcpopt (optr + 1)).toNat) (h₃ : (tcpopt (optr + 1)).toNat ≤ n) :
    ∃ mss' ws' more, options tcpopt n optr mss ws =
      ((options tcpopt (n - (tcpopt (optr + 1)).toNat) (optr + (tcpopt (optr + 1)).toNat) mss' ws').fst,
        more ++ (options tcpopt (n - (tcpopt (optr + 1)).toNat) (optr + (tcpopt (optr + 1)).toNat) mss' ws').snd) ∧
      ∀ i ∈ more, i < optr + (tcpopt (optr + 1)).toNat := by
  have h : ¬ ((tcpopt (optr + 1)).toNat < 2 ∨ n < (tcpopt (optr + 1)).toNat) := by omega
  have hmss : MSS_LENGTH.toNat = 4 := rfl
  have hws : WS_LENGTH.toNat = 3 := rfl
  rw [options, dif_neg hn, if_neg h₀, if_neg h₁, dif_neg h]
  split
  case isTrue ho =>
    refine ⟨_, ws, [optr, optr + 1, optr + 2, optr + 3], rfl, fun i hi => ?_⟩
    simp at hi
    omega
  case isFalse =>
    split
    case isTrue ho =>
      refine ⟨mss, _, [optr, optr + 1, optr + 2], rfl, fun i hi => ?_⟩
      simp at hi
      omega
    case isFalse =>
      refine ⟨mss, ws, [optr, optr + 1], rfl, fun i hi => ?_⟩
      simp at hi
      omega

theorem options_mss (hn : 4 ≤ n) (h : tcpopt optr = MSSOPT) (h' : tcpopt (optr + 1) = MSS_LENGTH) :
    (options tcpopt n optr mss ws).fst =
      (options tcpopt (n - 4) (optr + 4)
        (.ofNat (256 * (tcpopt (optr + 2)).toNat + (tcpopt (optr + 3)).toNat)) ws).fst := by
  have hlen : (tcpopt (optr + 1)).toNat = 4 := by rw [h']; rfl
  rw [options, dif_neg (by omega), if_neg (h ▸ by decide), if_neg (h ▸ by decide), dif_neg (by omega),
    if_pos ⟨h, hlen⟩, hlen]

theorem options_ws (hn : 3 ≤ n) (h : tcpopt optr = WSOPT) (h' : tcpopt (optr + 1) = WS_LENGTH) :
    (options tcpopt n optr mss ws).fst =
      (options tcpopt (n - 3) (optr + 3) mss
        (if tcpopt (optr + 2) ≤ 14 then HaveWS ||| (tcpopt (optr + 2)).toUInt16 else ws)).fst := by
  have hlen : (tcpopt (optr + 1)).toNat = 3 := by rw [h']; rfl
  rw [options, dif_neg (by omega), if_neg (h ▸ by decide), if_neg (h ▸ by decide), dif_neg (by omega),
    if_neg (fun hm => nomatch (h.symm.trans hm.left : WSOPT = MSSOPT)), if_pos ⟨h, hlen⟩, hlen]

end Steps

-- The window scale that comes back.
def Tcp.scaled (tcph : Tcp) : UInt16 :=
  if tcph.ws ≠ 0 ∧ UInt8.ofNat tcph.ws.toNat ≤ 14 then HaveWS ||| (UInt8.ofNat tcph.ws.toNat).toUInt16 else 0

theorem two_bytes (v : Nat) : 256 * (UInt8.ofNat (v / 256)).toNat + (UInt8.ofNat v).toNat = v % 65536 := by
  simp only [UInt8.toNat_ofNat']
  omega

theorem ofNat_two_bytes (v : UInt16) :
    UInt16.ofNat (256 * (UInt8.ofNat (v.toNat / 256)).toNat + (UInt8.ofNat v.toNat).toNat) = v := by
  rw [two_bytes, Nat.mod_eq_of_lt v.toNat_lt, UInt16.ofNat_toNat]

theorem options_eq (h : ∀ i < tcph.options.length, tcpopt i = tcph.options.getD i 0) :
    (options tcpopt tcph.options.length 0 0 0).fst = (tcph.mss, tcph.scaled) := by
  by_cases hmss : tcph.mss = 0 <;> by_cases hws : tcph.ws = 0
  · have hl : tcph.options = [] := by
      simp [Tcp.options, Tcp.optpad, Tcp.unpadded, hmss, hws]
      rfl
    rw [hl, List.length_nil, options_zero, Tcp.scaled, if_neg (fun hs => hs.left hws), hmss]
  · have hl : tcph.options = [WSOPT, WS_LENGTH, .ofNat tcph.ws.toNat, NOOPOPT] := by
      simp [Tcp.options, Tcp.optpad, Tcp.unpadded, hmss, hws]
      rfl
    rw [hl] at h ⊢
    show (options tcpopt 4 0 0 0).fst = _
    rw [options_ws (by decide) (h 0 (by simp)) (h 1 (by simp)), h 2 (by simp),
      options_noop (by decide) (h 3 (by simp)), hmss]
    simp [Tcp.scaled, hws]
  · have hl : tcph.options = [MSSOPT, MSS_LENGTH, .ofNat (tcph.mss.toNat / 256), .ofNat tcph.mss.toNat] := by
      simp [Tcp.options, Tcp.optpad, Tcp.unpadded, hmss, hws]
      decide
    rw [hl] at h ⊢
    show (options tcpopt 4 0 0 0).fst = _
    rw [options_mss (by decide) (h 0 (by simp)) (h 1 (by simp)), h 2 (by simp), h 3 (by simp)]
    simp only [List.getD_cons_succ, List.getD_cons_zero, ofNat_two_bytes]
    simp [Tcp.scaled, hws]
  · have hl : tcph.options =
        [MSSOPT, MSS_LENGTH, .ofNat (tcph.mss.toNat / 256), .ofNat tcph.mss.toNat, WSOPT, WS_LENGTH, .ofNat tcph.ws.toNat,
          NOOPOPT] := by
      simp [Tcp.options, Tcp.optpad, Tcp.unpadded, hmss, hws]
      rfl
    rw [hl] at h ⊢
    show (options tcpopt 8 0 0 0).fst = _
    rw [options_mss (by decide) (h 0 (by simp)) (h 1 (by simp)), h 2 (by simp), h 3 (by simp),
      options_ws (by decide) (h 4 (by simp)) (h 5 (by simp)), h 6 (by simp), options_noop (by decide) (h 7 (by simp))]
    simp only [List.getD_cons_succ, List.getD_cons_zero, ofNat_two_bytes]
    simp [Tcp.scaled, hws]

theorem flags_eq (tcph : Tcp) : tcph.hdrlen <<< 10 ||| tcph.flags.toNat = tcph.hdrlen * 1024 + tcph.flags.toNat := by
  have hlt : tcph.flags.toNat < 2 ^ 10 := tcph.flags.toNat_lt.trans (by decide)
  rw [← Nat.shiftLeft_add_eq_or_of_lt hlt, Nat.shiftLeft_eq]

theorem pullupblock_eq (h : n ≤ b.data.length) : pullupblock addr n (b :: bp) = some (false, b :: bp) := by
  rw [pullupblock, if_pos h]

-- What is read of a packet whose header and options are in its first block.
theorem ntohtcp_eq {scale : Nat} (addr : Nat) (mem : Nat → UInt8) (bp : List Block) (length : List UInt8 → Nat → Nat)
    (hip : ip.length = PKT)
    (hb : b.data = ip ++ (tcph.bytes sport dport scale csum ++ (tcph.opts ++ d))) :
    ∃ reads, ntohtcp PKT length addr mem (b :: bp) = some
      { hdrlen := tcph.hdrlen
        seg :=
          { source := sport
            dest   := dport
            seq    := tcph.seq
            ack    := tcph.ack
            flags  := tcph.flags
            wnd    := .ofNat (tcph.wnd.toNat >>> scale % 65536)
            urg    := tcph.urg
            len    := .ofNat (length b.data tcph.hdrlen)
            mss    := if tcph.syn then tcph.mss else 0
            ws     := if tcph.syn then tcph.scaled else 0 }
        bp    := b :: bp
        stale := false
        reads } := by
  have hlen : b.data.length = PKT + (HDRSIZE + (tcph.opts.length + d.length)) := by
    rw [hb, List.length_append, List.length_append, List.length_append, hip, tcph.bytes_length]
  have hhdrlen := tcph.hdrlen_eq
  have hle := tcph.hdrlen_le
  have hget (i : Nat) : nhgets b.data (PKT + i) = nhgets (tcph.bytes sport dport scale csum ++ (tcph.opts ++ d)) i := by
    rw [hb, ← hip, nhgets_append_right]
  have hgetl (i : Nat) : nhgetl b.data (PKT + i) = nhgetl (tcph.bytes sport dport scale csum ++ (tcph.opts ++ d)) i := by
    rw [hb, ← hip, nhgetl_append_right]
  have hgetD (i : Nat) : b.data.getD (PKT + i) 0 = (tcph.bytes sport dport scale csum ++ (tcph.opts ++ d)).getD i 0 := by
    rw [hb, ← hip, List.getD_eq_getElem?_getD, List.getElem?_append_right (by omega), Nat.add_sub_cancel_left,
      List.getD_eq_getElem?_getD]
  have hfirst : (b.data.getD (PKT + 12) 0).toNat / 4 / 4 * 4 = tcph.hdrlen := by
    rw [hgetD]
    show (UInt8.ofNat ((tcph.hdrlen <<< 10 ||| tcph.flags.toNat) / 256)).toNat / 4 / 4 * 4 = _
    have := tcph.flags.toNat_lt
    rw [flags_eq, UInt8.toNat_ofNat']
    omega
  have hparse : (options (fun i => b.data[PKT + HDRSIZE + i]?.getD (mem i)) (tcph.hdrlen - HDRSIZE) 0 0 0).fst =
      (if tcph.syn then tcph.mss else 0, if tcph.syn then tcph.scaled else 0) := by
    rw [hhdrlen, Nat.add_sub_cancel_left]
    cases hsyn : tcph.syn
    case false => simp [Tcp.opts, hsyn]
    case true =>
      have hopts : tcph.opts = tcph.options := by rw [Tcp.opts, if_pos hsyn]
      rw [hopts]
      refine options_eq fun i hi => ?_
      have hleft : ip.length + HDRSIZE + i - ip.length = HDRSIZE + i := by omega
      have hbytes := tcph.bytes_length sport dport scale csum
      rw [hb, ← hip, List.getElem?_append_right (by omega), hleft, List.getElem?_append_right (by omega), hbytes,
        Nat.add_sub_cancel_left, hopts, List.getElem?_append_left hi, List.getD_eq_getElem?_getD,
        List.getElem?_eq_getElem hi]
      rfl
  have hlong (v : UInt32) : UInt32.ofNat (65536 * (v.toNat / 65536 % 65536) + v.toNat % 65536) = v := by
    have := v.toNat_lt
    apply UInt32.toNat_inj.mp
    rw [UInt32.toNat_ofNat']
    omega
  have hshort (v : UInt16) : UInt16.ofNat (v.toNat % 65536) = v := by
    rw [Nat.mod_eq_of_lt v.toNat_lt, UInt16.ofNat_toNat]
  have hflags : UInt8.ofNat (tcph.hdrlen <<< 10 ||| tcph.flags.toNat) = tcph.flags := by
    apply UInt8.toNat_inj.mp
    have := tcph.flags.toNat_lt
    rw [flags_eq, UInt8.toNat_ofNat']
    omega
  obtain ⟨reads, hreads⟩ : ∃ reads, options (fun i => b.data[PKT + HDRSIZE + i]?.getD (mem i)) (tcph.hdrlen - HDRSIZE) 0 0 0 =
      ((if tcph.syn then tcph.mss else 0, if tcph.syn then tcph.scaled else 0), reads) := ⟨_, Prod.ext hparse rfl⟩
  have hsource : nhgets (tcph.bytes sport dport scale csum ++ (tcph.opts ++ d)) 0 = sport.toNat % 65536 := two_bytes _
  have hdest : nhgets (tcph.bytes sport dport scale csum ++ (tcph.opts ++ d)) 2 = dport.toNat % 65536 := two_bytes _
  have hseq : nhgetl (tcph.bytes sport dport scale csum ++ (tcph.opts ++ d)) 4 =
      65536 * (tcph.seq.toNat / 65536 % 65536) + tcph.seq.toNat % 65536 :=
    congrArg₂ (65536 * · + ·) (two_bytes _) (two_bytes _)
  have hack : nhgetl (tcph.bytes sport dport scale csum ++ (tcph.opts ++ d)) 8 =
      65536 * (tcph.ack.toNat / 65536 % 65536) + tcph.ack.toNat % 65536 :=
    congrArg₂ (65536 * · + ·) (two_bytes _) (two_bytes _)
  have hwnd : nhgets (tcph.bytes sport dport scale csum ++ (tcph.opts ++ d)) 14 = tcph.wnd.toNat >>> scale % 65536 :=
    two_bytes _
  have hurg : nhgets (tcph.bytes sport dport scale csum ++ (tcph.opts ++ d)) 18 = tcph.urg.toNat % 65536 := two_bytes _
  have hbits : (tcph.bytes sport dport scale csum ++ (tcph.opts ++ d)).getD 13 0 = tcph.flags := hflags
  refine ⟨reads, ?_⟩
  rw [ntohtcp, pullupblock_eq (by rw [hlen]; omega)]
  simp only [Option.bind_some, hfirst]
  rw [if_neg (by omega), pullupblock_eq (by rw [hlen, hhdrlen]; omega)]
  have hport : nhgets b.data PKT = sport.toNat % 65536 := (hget 0).trans hsource
  simp only [Option.bind_some, List.head?_cons, Option.map_some, Option.getD_some, Bool.false_eq_true, if_false, hreads,
    hgetD, hget, hgetl, hport, hdest, hseq, hack, hwnd, hurg, hbits, hlong, hshort]

end Ip.TcpHeader
