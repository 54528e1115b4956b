import Nix.Lib.Decoder
import Nix.Libc.Dir

namespace Libc

open LittleEndian (encode decode)
open Decoder (fail room skip times)

abbrev MAXWELEM : Nat := 16

inductive Mtype
  | Tversion | Rversion | Tauth | Rauth | Tattach | Rattach | Terror | Rerror | Tflush | Rflush | Twalk | Rwalk
  | Topen | Ropen | Tcreate | Rcreate | Tread | Rread | Twrite | Rwrite | Tclunk | Rclunk | Tremove | Rremove
  | Tstat | Rstat | Twstat | Rwstat
deriving DecidableEq

namespace Mtype

def types : List Mtype :=
  [.Tversion, .Rversion, .Tauth, .Rauth, .Tattach, .Rattach, .Terror, .Rerror, .Tflush, .Rflush, .Twalk, .Rwalk,
    .Topen, .Ropen, .Tcreate, .Rcreate, .Tread, .Rread, .Twrite, .Rwrite, .Tclunk, .Rclunk, .Tremove, .Rremove,
    .Tstat, .Rstat, .Twstat, .Rwstat]

def byte (t : Mtype) : UInt8 :=
  .ofNat (100 + types.idxOf t)

def ofByte (b : UInt8) : Option Mtype :=
  if b < 100 then none else types[b.toNat - 100]?

end Mtype

-- The fields of a message of each type. `S` is what strings are given by, `D` is what data and stats are given by, with
-- their count.
inductive Body (S D : Type)
  | Tversion (msize : UInt32) (version : S)
  | Rversion (msize : UInt32) (version : S)
  | Tauth (afid : UInt32) (uname aname : S)
  | Rauth (aqid : Qid)
  | Tattach (fid afid : UInt32) (uname aname : S)
  | Rattach (qid : Qid)
  | Rerror (ename : S)
  | Tflush (oldtag : UInt16)
  | Rflush
  | Twalk (fid newfid : UInt32) (wname : List S)
  | Rwalk (wqid : List Qid)
  | Topen (fid : UInt32) (mode : UInt8)
  | Ropen (qid : Qid) (iounit : UInt32)
  | Tcreate (fid : UInt32) (name : S) (perm : UInt32) (mode : UInt8)
  | Rcreate (qid : Qid) (iounit : UInt32)
  | Tread (fid : UInt32) (offset : UInt64) (count : UInt32)
  | Rread (data : D)
  | Twrite (fid : UInt32) (offset : UInt64) (data : D)
  | Rwrite (count : UInt32)
  | Tclunk (fid : UInt32)
  | Rclunk
  | Tremove (fid : UInt32)
  | Rremove
  | Tstat (fid : UInt32)
  | Rstat (stat : D)
  | Twstat (fid : UInt32) (stat : D)
  | Rwstat
deriving DecidableEq

structure Fcall (S D : Type) where
  tag  : UInt16
  body : Body S D
deriving DecidableEq

def Body.type {S D : Type} : Body S D → Mtype
  | Tversion .. => .Tversion
  | Rversion .. => .Rversion
  | Tauth ..    => .Tauth
  | Rauth ..    => .Rauth
  | Tattach ..  => .Tattach
  | Rattach ..  => .Rattach
  | Rerror ..   => .Rerror
  | Tflush ..   => .Tflush
  | Rflush ..   => .Rflush
  | Twalk ..    => .Twalk
  | Rwalk ..    => .Rwalk
  | Topen ..    => .Topen
  | Ropen ..    => .Ropen
  | Tcreate ..  => .Tcreate
  | Rcreate ..  => .Rcreate
  | Tread ..    => .Tread
  | Rread ..    => .Rread
  | Twrite ..   => .Twrite
  | Rwrite ..   => .Rwrite
  | Tclunk ..   => .Tclunk
  | Rclunk ..   => .Rclunk
  | Tremove ..  => .Tremove
  | Rremove ..  => .Rremove
  | Tstat ..    => .Tstat
  | Rstat ..    => .Rstat
  | Twstat ..   => .Twstat
  | Rwstat ..   => .Rwstat

section Encode

def pstring : Option CStr → List UInt8
  | none   => encode 2 0
  | some s => encode 2 s.bytes.length ++ s.bytes

def pqid (q : Qid) : List UInt8 :=
  encode 1 q.type.toNat ++ encode 4 q.vers.toNat ++ encode 8 q.path.toNat

def stringsz : Option CStr → Nat
  | none   => BIT16SZ
  | some s => BIT16SZ + s.bytes.length

def Fcall.size (f : Fcall (Option CStr) (List UInt8)) : Nat :=
  let n := BIT32SZ + BIT8SZ + BIT16SZ
  match f.body with
  | .Tversion _ version        => n + BIT32SZ + stringsz version
  | .Tflush _                  => n + BIT16SZ
  | .Tauth _ uname aname       => n + BIT32SZ + stringsz uname + stringsz aname
  | .Tattach _ _ uname aname   => n + BIT32SZ + BIT32SZ + stringsz uname + stringsz aname
  | .Twalk _ _ wname           => n + BIT32SZ + BIT32SZ + BIT16SZ + (wname.map stringsz).sum
  | .Topen ..                  => n + BIT32SZ + BIT8SZ
  | .Tcreate _ name _ _        => n + BIT32SZ + stringsz name + BIT32SZ + BIT8SZ
  | .Tread ..                  => n + BIT32SZ + BIT64SZ + BIT32SZ
  | .Twrite _ _ data           => n + BIT32SZ + BIT64SZ + BIT32SZ + data.length
  | .Tclunk _ | .Tremove _     => n + BIT32SZ
  | .Tstat _                   => n + BIT32SZ
  | .Twstat _ stat             => n + BIT32SZ + BIT16SZ + stat.length
  | .Rversion _ version        => n + BIT32SZ + stringsz version
  | .Rerror ename              => n + stringsz ename
  | .Rflush                    => n
  | .Rauth _                   => n + QIDSZ
  | .Rattach _                 => n + QIDSZ
  | .Rwalk wqid                => n + BIT16SZ + wqid.length * QIDSZ
  | .Ropen .. | .Rcreate ..    => n + QIDSZ + BIT32SZ
  | .Rread data                => n + BIT32SZ + data.length
  | .Rwrite _                  => n + BIT32SZ
  | .Rclunk                    => n
  | .Rremove                   => n
  | .Rstat stat                => n + BIT16SZ + stat.length
  | .Rwstat                    => n

-- The size is counted in an `uint`.
def sizeS2M (f : Fcall (Option CStr) (List UInt8)) : Nat :=
  f.size % 2 ^ 32

-- What the fields of a message are written as behind `p`, and if they are all written.
def pbody (p : List UInt8) : Body (Option CStr) (List UInt8) → Bool × List UInt8
  | .Tversion msize version          => (true, p ++ encode 4 msize.toNat ++ pstring version)
  | .Tflush oldtag                   => (true, p ++ encode 2 oldtag.toNat)
  | .Tauth afid uname aname          => (true, p ++ encode 4 afid.toNat ++ pstring uname ++ pstring aname)
  | .Tattach fid afid uname aname    =>
    (true, p ++ encode 4 fid.toNat ++ encode 4 afid.toNat ++ pstring uname ++ pstring aname)
  | .Twalk fid newfid wname          =>
    let p := p ++ encode 4 fid.toNat ++ encode 4 newfid.toNat ++ encode 2 wname.length
    if wname.length > MAXWELEM then (false, p) else (true, p ++ wname.flatMap pstring)
  | .Topen fid mode                  => (true, p ++ encode 4 fid.toNat ++ encode 1 mode.toNat)
  | .Tcreate fid name perm mode      =>
    (true, p ++ encode 4 fid.toNat ++ pstring name ++ encode 4 perm.toNat ++ encode 1 mode.toNat)
  | .Tread fid offset count          =>
    (true, p ++ encode 4 fid.toNat ++ encode 8 offset.toNat ++ encode 4 count.toNat)
  | .Twrite fid offset data          =>
    (true, p ++ encode 4 fid.toNat ++ encode 8 offset.toNat ++ encode 4 data.length ++ data)
  | .Tclunk fid | .Tremove fid       => (true, p ++ encode 4 fid.toNat)
  | .Tstat fid                       => (true, p ++ encode 4 fid.toNat)
  | .Twstat fid stat                 => (true, p ++ encode 4 fid.toNat ++ encode 2 stat.length ++ stat)
  | .Rversion msize version          => (true, p ++ encode 4 msize.toNat ++ pstring version)
  | .Rerror ename                    => (true, p ++ pstring ename)
  | .Rflush                          => (true, p)
  | .Rauth aqid                      => (true, p ++ pqid aqid)
  | .Rattach qid                     => (true, p ++ pqid qid)
  | .Rwalk wqid                      =>
    let p := p ++ encode 2 wqid.length
    if wqid.length > MAXWELEM then (false, p) else (true, p ++ wqid.flatMap pqid)
  | .Ropen qid iounit | .Rcreate qid iounit => (true, p ++ pqid qid ++ encode 4 iounit.toNat)
  | .Rread data                      => (true, p ++ encode 4 data.length ++ data)
  | .Rwrite count                    => (true, p ++ encode 4 count.toNat)
  | .Rclunk                          => (true, p)
  | .Rremove                         => (true, p)
  | .Rstat stat                      => (true, p ++ encode 2 stat.length ++ stat)
  | .Rwstat                          => (true, p)

-- The result and what is written into the buffer.
def convS2M (f : Fcall (Option CStr) (List UInt8)) (nap : Nat) : Nat × List UInt8 :=
  let size := sizeS2M f
  if size = 0 then
    (0, [])
  else if size > nap then
    (0, [])
  else
    let p := encode 4 size ++ encode 1 f.body.type.byte.toNat ++ encode 2 f.tag.toNat
    match pbody p f.body with
    | (false, p) => (0, p)
    | (true, p)  => if size ≠ p.length then (0, p) else (size, p)

end Encode

section Decode

def GBIT8 : Decoder UInt8 := do
  let xs ← .take BIT8SZ
  return .ofNat (decode xs)

def GBIT16 : Decoder UInt16 := do
  let xs ← .take BIT16SZ
  return .ofNat (decode xs)

def GBIT32 : Decoder UInt32 := do
  let xs ← .take BIT32SZ
  return .ofNat (decode xs)

def GBIT64 : Decoder UInt64 := do
  let xs ← .take BIT64SZ
  return .ofNat (decode xs)

-- A string is moved down over its count to have place for the zero at its end.
def gstring : Decoder Nat := fun b m p =>
  if p + BIT16SZ > b.stop then
    .ok (m, none)
  else do
    let n ← GBIT 2 b m p
    let p := p + (BIT16SZ - 1)
    if p + n + 1 > b.stop then
      .ok (m, none)
    else do
      let xs ← b.read m (p + 1) n
      .ok ((m.write p xs).write (p + n) [0], some (p + (n + 1), p))

def gqid : Decoder Qid := do
  room QIDSZ
  let type ← GBIT8
  let vers ← GBIT32
  let path ← GBIT64
  return { path, vers, type }

-- The fields of a message. There is none of a type that is not in the list, and none of type `Terror`.
def gbody : Option Mtype → Decoder (Body Nat (Nat × Nat))
  | none | some .Terror => fail
  | some .Tversion => do
    room BIT32SZ
    let msize ← GBIT32
    let version ← gstring
    return .Tversion msize version
  | some .Tflush => do
    room BIT16SZ
    let oldtag ← GBIT16
    return .Tflush oldtag
  | some .Tauth => do
    room BIT32SZ
    let afid ← GBIT32
    let uname ← gstring
    let aname ← gstring
    return .Tauth afid uname aname
  | some .Tattach => do
    room BIT32SZ
    let fid ← GBIT32
    room BIT32SZ
    let afid ← GBIT32
    let uname ← gstring
    let aname ← gstring
    return .Tattach fid afid uname aname
  | some .Twalk => do
    room (BIT32SZ + BIT32SZ + BIT16SZ)
    let fid ← GBIT32
    let newfid ← GBIT32
    let nwname ← GBIT16
    if nwname.toNat > MAXWELEM then
      fail
    else
      let wname ← times gstring nwname.toNat
      return .Twalk fid newfid wname
  | some .Topen => do
    room (BIT32SZ + BIT8SZ)
    let fid ← GBIT32
    let mode ← GBIT8
    return .Topen fid mode
  | some .Tcreate => do
    room BIT32SZ
    let fid ← GBIT32
    let name ← gstring
    room (BIT32SZ + BIT8SZ)
    let perm ← GBIT32
    let mode ← GBIT8
    return .Tcreate fid name perm mode
  | some .Tread => do
    room (BIT32SZ + BIT64SZ + BIT32SZ)
    let fid ← GBIT32
    let offset ← GBIT64
    let count ← GBIT32
    return .Tread fid offset count
  | some .Twrite => do
    room (BIT32SZ + BIT64SZ + BIT32SZ)
    let fid ← GBIT32
    let offset ← GBIT64
    let count ← GBIT32
    room count.toNat
    let data ← skip count.toNat
    return .Twrite fid offset (data, count.toNat)
  | some .Tclunk => do
    room BIT32SZ
    let fid ← GBIT32
    return .Tclunk fid
  | some .Tremove => do
    room BIT32SZ
    let fid ← GBIT32
    return .Tremove fid
  | some .Tstat => do
    room BIT32SZ
    let fid ← GBIT32
    return .Tstat fid
  | some .Twstat => do
    room (BIT32SZ + BIT16SZ)
    let fid ← GBIT32
    let nstat ← GBIT16
    room nstat.toNat
    let stat ← skip nstat.toNat
    return .Twstat fid (stat, nstat.toNat)
  | some .Rversion => do
    room BIT32SZ
    let msize ← GBIT32
    let version ← gstring
    return .Rversion msize version
  | some .Rerror => do
    let ename ← gstring
    return .Rerror ename
  | some .Rflush => return .Rflush
  | some .Rauth => do
    let aqid ← gqid
    return .Rauth aqid
  | some .Rattach => do
    let qid ← gqid
    return .Rattach qid
  | some .Rwalk => do
    room BIT16SZ
    let nwqid ← GBIT16
    if nwqid.toNat > MAXWELEM then
      fail
    else
      let wqid ← times gqid nwqid.toNat
      return .Rwalk wqid
  | some .Ropen => do
    let qid ← gqid
    room BIT32SZ
    let iounit ← GBIT32
    return .Ropen qid iounit
  | some .Rcreate => do
    let qid ← gqid
    room BIT32SZ
    let iounit ← GBIT32
    return .Rcreate qid iounit
  | some .Rread => do
    room BIT32SZ
    let count ← GBIT32
    room count.toNat
    let data ← skip count.toNat
    return .Rread (data, count.toNat)
  | some .Rwrite => do
    room BIT32SZ
    let count ← GBIT32
    return .Rwrite count
  | some .Rclunk => return .Rclunk
  | some .Rremove => return .Rremove
  | some .Rstat => do
    room BIT16SZ
    let nstat ← GBIT16
    room nstat.toNat
    let stat ← skip nstat.toNat
    return .Rstat (stat, nstat.toNat)
  | some .Rwstat => return .Rwstat

-- The size that a message says that it has, and the message.
def gfcall : Decoder (UInt32 × Fcall Nat (Nat × Nat)) := do
  room (BIT32SZ + BIT8SZ + BIT16SZ)
  let size ← GBIT32
  if size.toNat < BIT32SZ + BIT8SZ + BIT16SZ then
    fail
  else
    let type ← GBIT8
    let tag ← GBIT16
    let body ← gbody (Mtype.ofByte type)
    return (size, { tag, body })

-- The result is the size of the message with the message, or `none` where it is 0. Strings and data are where they are
-- in the memory.
def convM2S (b : Buf) (m : Memory) : Except Buf.Fault (Memory × Option (Nat × Fcall Nat (Nat × Nat))) := do
  let (m, r) ← gfcall b m b.base
  .ok (m, r.bind fun (p, size, f) =>
    if p > b.stop then none else if b.base + size.toNat = p then some (size.toNat, f) else none)

end Decode

end Libc
