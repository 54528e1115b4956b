import Mathlib.Data.Fin.VecNotation
import Mathlib.Data.Fintype.Pi
import Nix.Lib.Buckets
import Nix.Lib.Words
import Nix.Lib.Machine

-- The address resolution tables.
namespace Ip.Arp

abbrev NHASH : Nat := 64
abbrev NCACHE : Nat := 256

abbrev ReTransTimer : Nat := 1000
abbrev MAX_MULTICAST_SOLICIT : UInt8 := 3

abbrev IPv4off : Nat := 12
abbrev MAClen : Nat := 16

abbrev IPaddr := Fin 16 → UInt8

def v4prefix : List UInt8 := [0, 0, 0, 0, 0, 0, 0, 0, 0, 0, 0xff, 0xff]

def v4tov6 (ip : Fin 4 → UInt8) : IPaddr :=
  ![0, 0, 0, 0, 0, 0, 0, 0, 0, 0, 0xff, 0xff, ip 0, ip 1, ip 2, ip 3]

def isv4 (ip : IPaddr) : Bool :=
  (List.ofFn ip).take IPv4off = v4prefix

def ipismulticast (ip : IPaddr) : Bool :=
  if isv4 ip then ip 12 ≥ 0xe0 ∧ ip 12 < 0xf0 else ip 0 = 0xff

def haship (ip : IPaddr) : Nat :=
  (ip 15).toNat % NHASH

-- An address with the version it is of.
inductive Dest
  | V4 (ip : Fin 4 → UInt8)
  | V6 (ip : IPaddr)

namespace Dest

def ip : Dest → IPaddr
  | V4 ip => v4tov6 ip
  | V6 ip => ip

def isV6 : Dest → Bool
  | V4 _ => false
  | V6 _ => true

end Dest

structure Medium where
  name   : String
  maclen : Nat
deriving DecidableEq

-- `addr` is where it is in memory.
structure Ipifc where
  addr   : Nat
  medium : Medium
  ifcid  : UInt8

inductive Arpstate
  | UNUSED
  | AOK
  | AWAIT
deriving DecidableEq

-- An entry of the cache, and a packet.
abbrev Ent := Fin NCACHE
abbrev Blk := Nat

structure Arpent where
  ip      : IPaddr
  mac     : List UInt8
  type    : Option Medium
  hash    : Option Ent
  hold    : Option Blk
  last    : Option Blk
  ctime   : Nat
  utime   : Nat
  state   : Arpstate
  nextrxt : Option Ent
  rtime   : Nat
  rxtsrem : UInt8
  ifc     : Option Nat
  ifcid   : UInt8

end Ip.Arp

open Ip.Arp in
-- The packets are linked by `list`. Of the interfaces there are the read locks of `rxmitsols`, which has an entry in
-- `sending` where it has left the lock of the tables. The last three tell of the packets which were ever held, and
-- what became of those that are not any more.
structure Ip.Arp where
  hash    : Nat → Option Ent
  cache   : Ent → Arpent
  rxmt    : Option Ent
  dropf   : Option Blk
  dropl   : Option Blk
  list    : Blk → Option Blk
  rlocks  : Nat → Int
  sending : Option (Ent × Nat)
  held    : List Blk
  sent    : List Blk
  freed   : List Blk

namespace Ip.Arp

-- The time since `t` in milliseconds, which are counted in 32 bits.
def since (now t : Nat) : Nat :=
  (((now : Int) - t) % 2 ^ 32).toNat

def memmove (dst src : List UInt8) (n : Nat) : List UInt8 :=
  src.take n ++ dst.drop n

def hashes (s : Arp) (a : Ent) : Option Ent :=
  (s.cache a).hash

def rxmts (s : Arp) (a : Ent) : Option Ent :=
  (s.cache a).nextrxt

-- The heads of the lists of packets: those of the entries, and the list of those to be dropped.
def holds (s : Arp) : Option Ent → Option Blk
  | none   => s.dropf
  | some a => (s.cache a).hold

def set (s : Arp) (a : Ent) (e : Arpent) : Arp :=
  { s with cache := Function.update s.cache a e }

def withhash (s : Arp) (hash : Nat → Option Ent) (next : Ent → Option Ent) : Arp :=
  { s with hash, cache := fun a => { s.cache a with hash := next a } }

def withrxmt (s : Arp) (hd : Unit → Option Ent) (next : Ent → Option Ent) : Arp :=
  { s with rxmt := hd (), cache := fun a => { s.cache a with nextrxt := next a } }

-- Takes an entry out of the chain of its address.
def unhash (s : Arp) (a : Ent) : Option Arp :=
  (Buckets.unlink s.hash s.hashes (haship (s.cache a).ip) a NCACHE).map fun (hd, next) => s.withhash hd next

-- Takes an entry out of the re-transmit chain.
def unrxmt (s : Arp) (a : Ent) : Option Arp :=
  (Buckets.unlink (fun _ => s.rxmt) s.rxmts () a NCACHE).map fun (hd, next) => s.withrxmt hd next

-- Puts an entry to the end of the re-transmit chain.
def rxmtlast (s : Arp) (a : Ent) : Option Arp :=
  (Buckets.atend (fun _ => s.rxmt) s.rxmts () a NCACHE).map fun (hd, next) => s.withrxmt hd next

-- The packets from one on.
def packets (s : Arp) (xp : Option Blk) : Option (List Blk) :=
  listed s.list s.held.length xp

def oldest (s : Arp) : Ent :=
  (List.finRange NCACHE).foldl (fun a f => if (s.cache f).utime < (s.cache a).utime then f else a) 0

-- The part of `newarp6` that dumps the waiting packets.
def dump (s : Arp) (a : Ent) : Option Arp := do
  let xp := (s.cache a).hold
  let xs ← s.packets xp
  let s := s.set a { s.cache a with hold := none }
  if isv4 (s.cache a).ip then
    some { s with freed := s.freed ++ xs }
  else if xp = none then
    some s
  else
    some { s with dropf := if s.dropl = none then xp else s.dropf, list := updateAt s.list s.dropl xp, dropl := xs.getLast? }

-- The part of `newarp6` that follows the search for the oldest entry.
def reuse (s : Arp) (a : Ent) (ip : IPaddr) (ifc : Ipifc) (addrxt : Bool) (now : Nat) : Option Arp := do
  let s ← s.dump a
  let s ← s.unhash a
  let s := s.withhash (Function.update s.hash (haship ip) (some a)) (Function.update s.hashes a (s.hash (haship ip)))
  let s := s.set a { s.cache a with
    ip, utime := now, ctime := 0, type := some ifc.medium, rtime := (now + ReTransTimer) % 2 ^ 32,
    rxtsrem := MAX_MULTICAST_SOLICIT, ifc := some ifc.addr, ifcid := ifc.ifcid }
  if !ipismulticast ip && addrxt then
    let s ← s.unrxmt a
    s.rxmtlast a
  else
    some (s.set a { s.cache a with nextrxt := none })

def newarp6 (s : Arp) (ip : IPaddr) (ifc : Ipifc) (addrxt : Bool) (now : Nat) : Option (Arp × Ent) :=
  (s.reuse s.oldest ip ifc addrxt now).map fun s' => (s', s.oldest)

def cleanarpent (s : Arp) (a : Ent) : Option Arp := do
  let s := s.set a { s.cache a with utime := 0, ctime := 0, type := none, state := .UNUSED }
  let s ← s.unhash a
  let s ← s.unrxmt a
  some (s.set a { s.cache a with nextrxt := none, hash := none, hold := none, last := none, ifc := none })

-- A packet is added to those that wait for an entry.
def wait (s : Arp) (a : Ent) (bp : Blk) : Option Arp := do
  let s := { s with held := s.held ++ [bp] }
  if (s.cache a).hold = none then
    some { s.set a { s.cache a with hold := some bp, last := some bp } with list := Function.update s.list bp none }
  else
    let last ← (s.cache a).last
    some { s.set a { s.cache a with last := some bp } with
      list := Function.update (Function.update s.list last (some bp)) bp none }

-- The first entry that is looked for on the chain of an address, with the one before it.
def lookup (s : Arp) (ip : IPaddr) (p : Arpent → Bool) : Option (Option Ent × Option Ent) :=
  search s.hashes (fun f => some (p (s.cache f))) NCACHE none (s.hash (haship ip))

-- The entry of an address for this medium, if there is one.
def find (s : Arp) (ip : IPaddr) (type : Medium) : Option (Option Ent) :=
  (s.lookup ip fun e => e.ip = ip ∧ e.type = some type).map Prod.snd

-- The part of `arpget` that follows the search for the entry. The result is the media address if it is there, and the
-- entry with the tables locked if not.
def use (s : Arp) (a : Ent) (bp : Option Blk) (now : Nat) : Option (Arp × Except (List UInt8) Ent) :=
  let s := s.set a { s.cache a with utime := now }
  if (s.cache a).state = .AWAIT then
    match bp with
    | none    => some (s, .ok a)
    | some bp => (s.wait a bp).map fun s => (s, .ok a)
  else do
    let type ← (s.cache a).type
    let mac := (s.cache a).mac.take type.maclen
    if since now (s.cache a).ctime > 15 * 60 * 1000 then
      (s.cleanarpent a).map fun s => (s, .error mac)
    else
      some (s, .error mac)

def arpget (s : Arp) (bp : Option Blk) (dest : Dest) (ifc : Ipifc) (now : Nat) : Option (Arp × Except (List UInt8) Ent) := do
  match ← s.find dest.ip ifc.medium with
  | some a => s.use a bp now
  | none   =>
    let (s, a) ← s.newarp6 dest.ip ifc dest.isV6 now
    (s.set a { s.cache a with state := .AWAIT }).use a bp now

def arpresolve (s : Arp) (a : Ent) (type : Medium) (mac : List UInt8) (now : Nat) : Option Arp := do
  let s ← (if !isv4 (s.cache a).ip then s.unrxmt a else some s)
  let e := { s.cache a with mac := memmove (s.cache a).mac mac type.maclen, type := some type, state := .AOK, utime := now }
  let xs ← s.packets e.hold
  some { s.set a { e with hold := none } with sent := s.sent ++ xs }

-- All but the last packet of those that wait for an entry are removed.
def trim : Nat → Arp → Ent → Option Arp
  | k, s, a =>
    match (s.cache a).hold with
    | none    => some s
    | some bp =>
      if some bp = (s.cache a).last then
        some s
      else
        match k with
        | 0     => none
        | k + 1 => trim k { s.set a { s.cache a with hold := s.list bp } with freed := s.freed ++ [bp] } a

-- The parts of `sendarp` and `resolveaddr6` that have the tables locked.
def sendarp (s : Arp) (a : Ent) (now : Nat) : Option Arp :=
  if since now (s.cache a).ctime < 1000 then
    some s
  else do
    let s ← trim s.held.length s a
    some (s.set a { s.cache a with ctime := now })

def resolveaddr6 (s : Arp) (a : Ent) (now : Nat) : Option Arp :=
  if since now (s.cache a).ctime < ReTransTimer then
    some s
  else do
    let s ← trim s.held.length s a
    let s := s.set a { s.cache a with ctime := now, rtime := (now + ReTransTimer) % 2 ^ 32 }
    some (if (s.cache a).rxtsrem = 0 then s else s.set a { s.cache a with rxtsrem := (s.cache a).rxtsrem - 1 })

-- What an `etherbwrite` does with the tables. `multicast` has the media address if there is one of its own for the
-- broadcasts or multicasts to this address.
def etherbwrite (s : Arp) (bp : Blk) (dest : Dest) (ifc : Ipifc) (multicast : Option (List UInt8)) (now : Nat) :
    Option Arp := do
  match ← s.arpget (some bp) dest ifc now with
  | (s, .error _) => some s
  | (s, .ok a)    =>
    match multicast with
    | some mac => s.arpresolve a ifc.medium mac now
    | none     => if dest.isV6 then s.resolveaddr6 a now else s.sendarp a now

-- What waits is handed to the interface, if it has a medium still. `fails` tells for which packets that is an error.
def handover (bound : Bool) (fails : Blk → Bool) : List Blk → Arp → Arp
  | [], s       => s
  | bp :: xs, s =>
    if bound then
      let s := { s with sent := s.sent ++ [bp] }
      if fails bp then s else handover bound fails xs s
    else
      handover bound fails xs { s with freed := s.freed ++ [bp] }

-- The entry of an address for this medium that is resolved or is to be resolved.
def known (s : Arp) (ip : IPaddr) (type : Medium) : Option (Option Ent) :=
  (s.lookup ip fun e => e.type = some type ∧ (e.state = .AWAIT ∨ e.state = .AOK) ∧ e.ip = ip).map Prod.snd

-- `r` is the interface of the route to the address.
def arpenter (s : Arp) (dest : Dest) (mac : List UInt8) (n : Nat) (refresh : Bool) (r : Option Ipifc) (bound : Bool)
    (fails : Blk → Bool) (now : Nat) : Option Arp :=
  if n ≠ 6 then
    some s
  else
    match r with
    | none     => some s
    | some ifc => do
      match ← s.known dest.ip ifc.medium with
      | some a =>
        let s := s.set a { s.cache a with state := .AOK, mac := memmove (s.cache a).mac mac ifc.medium.maclen }
        let s ← (if dest.isV6 then s.unrxmt a else some s)
        let xs ← s.packets (s.cache a).hold
        let s := s.set a { s.cache a with
          ifc := some ifc.addr, ifcid := ifc.ifcid, hold := none, utime := now, ctime := now }
        some (handover bound fails xs s)
      | none =>
        if refresh then
          some s
        else
          let (s, a) ← s.newarp6 dest.ip ifc false now
          some (s.set a { s.cache a with
            state := .AOK, type := some ifc.medium, ctime := now,
            mac := memmove (s.cache a).mac mac ifc.medium.maclen })

-- The commands that `arpwrite` does. An `add` enters the address.

def flush (s : Arp) : Option Arp := do
  let xs ← (List.finRange NCACHE).mapM fun a => s.packets (s.cache a).hold
  some { s with
    hash    := fun _ => none
    cache   := fun a => { s.cache a with
      ip := fun _ => 0, mac := List.replicate MAClen 0, hash := none, state := .UNUSED, utime := 0, hold := none }
    freed   := s.freed ++ xs.flatten
    rxmt    := none
    dropf   := none
    dropl   := none }

def del (s : Arp) (ip : IPaddr) : Option Arp := do
  let (l, f) ← s.lookup ip fun e => e.ip = ip
  match f with
  | none   => some s
  | some a =>
    let s := s.withhash (if l = none then Function.update s.hash (haship ip) (s.hashes a) else s.hash)
      (updateAt s.hashes l (s.hashes a))
    let s ← s.unrxmt a
    some (s.set a { s.cache a with
      nextrxt := none, hash := none, hold := none, last := none, ifc := none, ip := fun _ => 0,
      mac := List.replicate MAClen 0 })

-- The end of `rxmitsols`. `icmphostunr` unlocks an interface that it has not locked if the source of a packet is a
-- multicast address, and needs an interface.
def dodrops (s : Arp) (ifc : Option Nat) (mcast : Blk → Bool) : Option Arp := do
  let xs ← s.packets s.dropf
  let s := { s with dropf := none, dropl := none }
  match xs, ifc with
  | [], _        => some s
  | _, none      => none
  | xs, some ifc =>
    some { s with
      rlocks := Function.update s.rlocks ifc (s.rlocks ifc - (xs.filter mcast).length)
      freed  := s.freed ++ xs }

-- The packets that wait for an entry go to the list of those to be dropped.
def expire (s : Arp) (a : Ent) : Option Arp :=
  let xp := (s.cache a).hold
  let s := s.set a { s.cache a with hold := none }
  let s :=
    if xp = none then
      s
    else if s.dropl = none then
      { s with dropf := xp }
    else
      { s with list := updateAt s.list s.dropl xp }
  s.cleanarpent a

-- The loop of `rxmitsols` that looks for an entry to send a solicitation for.
def solicit (canrlock : Nat → Bool) (ifcid : Nat → UInt8) (mcast : Blk → Bool) : Nat → Arp → Option Ent → Option Nat → Option Arp
  | _, s, none, ifc        => s.dodrops ifc mcast
  | 0, _, some _, _        => none
  | k + 1, s, some a, _ => do
    let ifc ← (s.cache a).ifc
    if (s.cache a).rxtsrem = 0 ∨ !canrlock ifc then
      let s ← s.expire a
      solicit canrlock ifcid mcast k s (s.cache a).nextrxt (some ifc)
    else
      let id := (s.cache a).ifcid
      let s := { s with rlocks := Function.update s.rlocks ifc (s.rlocks ifc + 1) }
      if id ≠ ifcid ifc then
        let s ← s.expire a
        solicit canrlock ifcid mcast k s (s.cache a).nextrxt (some ifc)
      else
        some { s with sending := some (a, ifc) }

-- The first entry of the re-transmit chain, if it is time for it.
def due (s : Arp) (now : Nat) : Option Ent :=
  s.rxmt.bind fun a => if int32 ((s.cache a).rtime - now) > 3 * ReTransTimer / 4 then none else some a

-- `rxmitsols` up to where it leaves the lock of the tables, or from there.
def rxmitsols (s : Arp) (canrlock : Nat → Bool) (ifcid : Nat → UInt8) (mcast : Blk → Bool) (now : Nat) : Option Arp :=
  match s.sending with
  | none          => solicit canrlock ifcid mcast (NCACHE + 1) s (s.due now) none
  | some (a, ifc) => do
    let s := { s with rlocks := Function.update s.rlocks ifc (s.rlocks ifc - 1), sending := none }
    let s ← s.unrxmt a
    let s ← s.rxmtlast a
    let s := s.set a { s.cache a with rxtsrem := (s.cache a).rxtsrem - 1, rtime := (now + ReTransTimer) % 2 ^ 32 }
    s.dodrops (some ifc) mcast

inductive Act
  | etherbwrite (bp : Blk) (dest : Dest) (ifc : Ipifc) (multicast : Option (List UInt8)) (now : Nat)
  | arpenter (dest : Dest) (mac : List UInt8) (n : Nat) (refresh : Bool) (r : Option Ipifc) (bound : Bool)
    (fails : Blk → Bool) (now : Nat)
  | flush
  | del (ip : IPaddr)
  | rxmitsols (canrlock : Nat → Bool) (ifcid : Nat → UInt8) (mcast : Blk → Bool) (now : Nat)

def step (s : Arp) : Act → Option Arp
  | .etherbwrite bp dest ifc multicast now                => s.etherbwrite bp dest ifc multicast now
  | .arpenter dest mac n refresh r bound fails now        => s.arpenter dest mac n refresh r bound fails now
  | .flush                                                => s.flush
  | .del ip                                               => s.del ip
  | .rxmitsols canrlock ifcid mcast now                   => s.rxmitsols canrlock ifcid mcast now

-- `arpinit`.
def arpinit : Arp where
  hash _  := none
  cache _ :=
    { ip := fun _ => 0, mac := List.replicate MAClen 0, type := none, hash := none, hold := none, last := none, ctime := 0,
      utime := 0, state := .UNUSED, nextrxt := none, rtime := 0, rxtsrem := 0, ifc := none, ifcid := 0 }
  rxmt    := none
  dropf   := none
  dropl   := none
  list _  := none
  rlocks _ := 0
  sending := none
  held    := []
  sent    := []
  freed   := []

end Ip.Arp
