import Nix.Ip.Fragments
import Nix.Ip.Ptclcsum

-- The headers of TCP segments.
namespace Ip.TcpHeader

open Ptclbsum (ptclcsum)

abbrev TCP4_IPLEN : Nat := 8
abbrev TCP4_PHDRSIZE : Nat := 12
abbrev TCP4_PKT : Nat := TCP4_IPLEN + TCP4_PHDRSIZE
abbrev TCP6_IPLEN : Nat := 0
abbrev TCP6_PHDRSIZE : Nat := 40
abbrev TCP6_PKT : Nat := TCP6_IPLEN + TCP6_PHDRSIZE

-- `TCP4_HDRSIZE` and `TCP6_HDRSIZE`.
abbrev HDRSIZE : Nat := 20

abbrev SYN : UInt8 := 0x02

abbrev EOLOPT : UInt8 := 0
abbrev NOOPOPT : UInt8 := 1
abbrev MSSOPT : UInt8 := 2
abbrev MSS_LENGTH : UInt8 := 4
abbrev WSOPT : UInt8 := 3
abbrev WS_LENGTH : UInt8 := 3

abbrev HaveWS : UInt16 := 0x100

abbrev IP_VER6 : UInt8 := 0x60

abbrev BLOCKALIGN : Nat := 8

-- A block: the bytes between `base` and `rp` and those between `rp` and `wp`, and how much room there is between `wp`
-- and `lim`.
structure Block where
  head : List UInt8
  rp   : Nat
  data : List UInt8
  room : Nat

def Block.summed (b : Block) : Ptclbsum.Block where
  rp   := b.rp
  data := b.data

def roundup (n : Nat) : Nat :=
  (n + BLOCKALIGN - 1) / BLOCKALIGN * BLOCKALIGN

-- A new block, at an address that the allocator chooses. The room in front of it is not used.
def allocb (rp size : Nat) : Block where
  head := []
  rp   := rp
  data := []
  room := roundup size

def Block.fill (b : Block) (data : List UInt8) : Block :=
  { b with data := b.data ++ data, room := b.room - data.length }

def blocklen (bp : List Block) : Nat :=
  (bp.map fun b => b.data.length).sum

-- `none` is a panic.
def padblock (addr : Nat) (size : Nat) : List Block → Option (List Block)
  | []      => none
  | b :: bp =>
    if size ≤ b.head.length then
      let n := b.head.length - size
      some ({ b with head := b.head.take n, rp := b.rp - size, data := b.head.drop n ++ b.data } :: bp)
    else if bp = [] then
      some [(allocb addr (size + b.data.length)).fill (List.replicate size 0 ++ b.data)]
    else
      none

-- The loop that copies `n` more bytes from the blocks that follow. `none` where there are not that many.
def pull (n : Nat) (data : List UInt8) : List Block → Option (List UInt8 × List Block)
  | []        => none
  | nbp :: bp =>
    if n < nbp.data.length then
      some (data ++ nbp.data.take n, { nbp with rp := nbp.rp + n, data := nbp.data.drop n } :: bp)
    else if nbp.data.length = n then
      some (data ++ nbp.data, bp)
    else
      pull (n - nbp.data.length) (data ++ nbp.data) bp

-- The result tells whether the first block is another one than it was.
def pullupblock (addr n : Nat) : List Block → Option (Bool × List Block)
  | []      => none
  | b :: bp =>
    if n ≤ b.data.length then
      some (false, b :: bp)
    else if b.data.length + b.room < n then
      (pull n [] (b :: bp)).map fun (data, bp) => (true, (allocb addr n).fill data :: bp)
    else
      (pull (n - b.data.length) [] bp).map fun (data, bp) => (false, b.fill data :: bp)

structure Tcp where
  source : UInt16
  dest   : UInt16
  seq    : UInt32
  ack    : UInt32
  flags  : UInt8
  ws     : UInt16
  wnd    : UInt32
  urg    : UInt16
  mss    : UInt16
  len    : UInt16
deriving DecidableEq

-- What of a control block goes into a header. `scale` is its `snd.scale`.
structure Tcpctl where
  scale      : Nat
  nochecksum : Bool

def hnputl (p : List UInt8) (i v : Nat) : List UInt8 :=
  hnputs (hnputs p i (v / 65536)) (i + 2) v

def put (p : List UInt8) (i : Nat) (xs : List UInt8) : List UInt8 :=
  p.take i ++ xs ++ p.drop (i + xs.length)

namespace Tcp

variable (tcph : Tcp)

def syn : Bool :=
  tcph.flags &&& SYN ≠ 0

-- The length of the header without the padding of the options.
def unpadded : Nat :=
  HDRSIZE + (if tcph.mss ≠ 0 then MSS_LENGTH.toNat else 0) + (if tcph.ws ≠ 0 then WS_LENGTH.toNat else 0)

def optpad : Nat :=
  if tcph.unpadded % 4 = 0 then 0 else 4 - tcph.unpadded % 4

def hdrlen : Nat :=
  if tcph.syn then tcph.unpadded + tcph.optpad else HDRSIZE

def options : List UInt8 :=
  (if tcph.mss ≠ 0 then [MSSOPT, MSS_LENGTH, .ofNat (tcph.mss.toNat / 256), .ofNat tcph.mss.toNat] else []) ++
    (if tcph.ws ≠ 0 then [WSOPT, WS_LENGTH, .ofNat tcph.ws.toNat] else []) ++ List.replicate tcph.optpad NOOPOPT

-- The variable bits, of a header that begins at `i`, and the options behind it.

def bits (i scale : Nat) (h : List UInt8) : List UInt8 :=
  let h := hnputl h (i + 4) tcph.seq.toNat
  let h := hnputl h (i + 8) tcph.ack.toNat
  let h := hnputs h (i + 12) (tcph.hdrlen <<< 10 ||| tcph.flags.toNat)
  let h := hnputs h (i + 14) (tcph.wnd.toNat >>> scale)
  hnputs h (i + 18) tcph.urg.toNat

def putopts (i : Nat) (h : List UInt8) : List UInt8 :=
  if tcph.syn then put h (i + HDRSIZE) tcph.options else h

end Tcp

-- What `htontcp4` and `htontcp6` share. They differ in where the header begins and in the pseudo header, which is made
-- of the length and, where need be, is made a normal one afterwards.
def htontcp (PKT IPLEN PHDRSIZE : Nat) (pseudo normal : Nat → List UInt8 → List UInt8) (little : Bool) (addr : Nat)
    (tcph : Tcp) (data : List Block) (ph : List UInt8) (tcb : Option Tcpctl) : Option (List Block) :=
  let hdrlen := tcph.hdrlen
  let dlen := blocklen data
  let size := hdrlen + PKT
  let padded :=
    if data.isEmpty then some [(allocb addr (size + 64)).fill (List.replicate size 0)] else padblock addr size data
  padded.bind fun
  | []      => none
  | b :: bp =>
    let h := put b.data 0 (ph.take (PKT + HDRSIZE))
    let h := tcph.putopts PKT <| tcph.bits PKT ((tcb.map Tcpctl.scale).getD 0) (pseudo (hdrlen + dlen) h)
    let csum :=
      if tcb.any Tcpctl.nochecksum then 0
      else ptclcsum little (({ b with data := h } :: bp).map Block.summed) IPLEN (hdrlen + dlen + PHDRSIZE)
    some ({ b with data := normal (hdrlen + dlen) (hnputs h (PKT + 16) csum) } :: bp)

-- `ph` is the prototype header.
def htontcp4 (little : Bool) (addr : Nat) (tcph : Tcp) (data : List Block) (ph : List UInt8) (tcb : Option Tcpctl) :
    Option (List Block) :=
  htontcp TCP4_PKT TCP4_IPLEN TCP4_PHDRSIZE (fun len h => hnputs h 10 len) (fun _ h => h) little addr tcph data ph tcb

-- The pseudo header, which has the protocol where the hop limit is.
def pseudo6 (proto : UInt8) (len : Nat) (h : List UInt8) : List UInt8 :=
  (((hnputl h 0 len).set 4 0).set 5 0 |>.set 6 0).set 7 proto

def normal6 (proto : UInt8) (len : Nat) (h : List UInt8) : List UInt8 :=
  (hnputs (put h 0 [IP_VER6, 0, 0, 0]) 4 len).set 6 proto

def htontcp6 (little : Bool) (addr : Nat) (tcph : Tcp) (data : List Block) (ph : List UInt8) (tcb : Option Tcpctl) :
    Option (List Block) :=
  let proto := ph.getD 6 0
  htontcp TCP6_PKT TCP6_IPLEN TCP6_PHDRSIZE (pseudo6 proto) (normal6 proto) little addr tcph data ph tcb

-- What `ipoput4` writes of the length, and what `tcpiput` makes of an IPv6 header before it sums the packet.

def ipoput4 : List Block → List Block
  | []      => []
  | b :: bp => { b with data := hnputs b.data 2 (blocklen (b :: bp)) } :: bp

def tcpiput6 (h : List UInt8) : List UInt8 :=
  pseudo6 (h.getD 6 0) (nhgets h 4) h

-- The options, which are at `tcpopt`. The second result tells which bytes are looked at.
def options (tcpopt : Nat → UInt8) (n optr : Nat) (mss ws : UInt16) : (UInt16 × UInt16) × List Nat :=
  if _h : n = 0 then
    ((mss, ws), [])
  else if tcpopt optr = EOLOPT then
    ((mss, ws), [optr])
  else if tcpopt optr = NOOPOPT then
    let (seg, reads) := options tcpopt (n - 1) (optr + 1) mss ws
    (seg, optr :: reads)
  else
    let optlen := (tcpopt (optr + 1)).toNat
    if _h : optlen < 2 ∨ n < optlen then
      ((mss, ws), [optr, optr + 1])
    else if tcpopt optr = MSSOPT ∧ optlen = MSS_LENGTH.toNat then
      let mss := .ofNat (256 * (tcpopt (optr + 2)).toNat + (tcpopt (optr + 3)).toNat)
      let (seg, reads) := options tcpopt (n - optlen) (optr + optlen) mss ws
      (seg, optr :: (optr + 1) :: (optr + 2) :: (optr + 3) :: reads)
    else if tcpopt optr = WSOPT ∧ optlen = WS_LENGTH.toNat then
      let ws := if tcpopt (optr + 2) ≤ 14 then HaveWS ||| (tcpopt (optr + 2)).toUInt16 else ws
      let (seg, reads) := options tcpopt (n - optlen) (optr + optlen) mss ws
      (seg, optr :: (optr + 1) :: (optr + 2) :: reads)
    else
      let (seg, reads) := options tcpopt (n - optlen) (optr + optlen) mss ws
      (seg, optr :: (optr + 1) :: reads)
termination_by n
decreasing_by all_goals omega

-- What a call of `ntohtcp4` or `ntohtcp6` comes to: the length of the header, the segment and the packet, which of the
-- bytes at `tcpopt` were looked at, and whether those were in a block that had been freed.
structure Ntoh where
  hdrlen : Nat
  seg    : Tcp
  bp     : List Block
  reads  : List Nat
  stale  : Bool

-- What `ntohtcp4` and `ntohtcp6` share. `mem` is what memory has at `tcpopt` where the block does not have it.
def ntohtcp (PKT : Nat) (length : List UInt8 → Nat → Nat) (addr : Nat) (mem : Nat → UInt8) (bp : List Block) :
    Option Ntoh :=
  (pullupblock addr (PKT + HDRSIZE) bp).bind fun
  | (_, [])      => none
  | (_, b :: bp) =>
    let h := b.data
    let hdrlen := (h.getD (PKT + 12) 0).toNat / 4 / 4 * 4
    if hdrlen < HDRSIZE then
      none
    else
      (pullupblock addr (hdrlen + PKT) (b :: bp)).bind fun (stale, bp) =>
        let now := (bp.head?.map Block.data).getD []
        let tcpopt i := if stale then mem i else now[PKT + HDRSIZE + i]?.getD (mem i)
        let ((mss, ws), reads) := options tcpopt (hdrlen - HDRSIZE) 0 0 0
        let seg :=
          { source := .ofNat (nhgets h PKT)
            dest   := .ofNat (nhgets h (PKT + 2))
            seq    := .ofNat (nhgetl h (PKT + 4))
            ack    := .ofNat (nhgetl h (PKT + 8))
            flags  := h.getD (PKT + 13) 0
            wnd    := .ofNat (nhgets h (PKT + 14))
            urg    := .ofNat (nhgets h (PKT + 18))
            len    := .ofNat (length h hdrlen)
            mss, ws }
        some { hdrlen, seg, bp, reads, stale }

-- Lengths are numbers of type `ushort` in the end.
def ntohtcp4 : Nat → (Nat → UInt8) → List Block → Option Ntoh :=
  ntohtcp TCP4_PKT fun h hdrlen => nhgets h 2 + 65536 - (hdrlen + TCP4_PKT)

def ntohtcp6 : Nat → (Nat → UInt8) → List Block → Option Ntoh :=
  ntohtcp TCP6_PKT fun h hdrlen => nhgets h 4 + 65536 - hdrlen

end Ip.TcpHeader
