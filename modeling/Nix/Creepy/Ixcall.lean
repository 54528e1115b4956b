import Mathlib.Data.List.TakeWhile
import Nix.Lib.Memory

namespace Creepy

open LittleEndian (encode decode)

abbrev BIT8SZ  := 1
abbrev BIT16SZ := 2
abbrev BIT32SZ := 4
abbrev BIT64SZ := 8

-- The operators of `IXTcond` are the numbers below `CMAX`.
def CMAX : UInt8 := 6

-- The message types that the switches of `ixpackedsize`, `ixpack` and `ixunpack` handle.
-- Their codes start at 50; 56 is `__IXunused__`, which falls in the default case of each switch.
inductive IXtype
  | IXTversion | IXRversion | IXTattach | IXRattach | IXTfid | IXRfid | IXRerror | IXTclone
  | IXRclone | IXTwalk | IXRwalk | IXTopen | IXRopen | IXTcreate | IXRcreate | IXTread | IXRread
  | IXTwrite | IXRwrite | IXTclunk | IXRclunk | IXTremove | IXRremove | IXTattr | IXRattr
  | IXTwattr | IXRwattr | IXTcond | IXRcond | IXTmove | IXRmove
  deriving DecidableEq

namespace IXtype

def code : IXtype → UInt8
  | IXTversion => 50 | IXRversion => 51 | IXTattach => 52 | IXRattach => 53 | IXTfid => 54
  | IXRfid => 55 | IXRerror => 57 | IXTclone => 58 | IXRclone => 59 | IXTwalk => 60
  | IXRwalk => 61 | IXTopen => 62 | IXRopen => 63 | IXTcreate => 64 | IXRcreate => 65
  | IXTread => 66 | IXRread => 67 | IXTwrite => 68 | IXRwrite => 69 | IXTclunk => 70
  | IXRclunk => 71 | IXTremove => 72 | IXRremove => 73 | IXTattr => 74 | IXRattr => 75
  | IXTwattr => 76 | IXRwattr => 77 | IXTcond => 78 | IXRcond => 79 | IXTmove => 80
  | IXRmove => 81

def all : List IXtype :=
  [IXTversion, IXRversion, IXTattach, IXRattach, IXTfid, IXRfid, IXRerror, IXTclone, IXRclone,
   IXTwalk, IXRwalk, IXTopen, IXRopen, IXTcreate, IXRcreate, IXTread, IXRread, IXTwrite, IXRwrite,
   IXTclunk, IXRclunk, IXTremove, IXRremove, IXTattr, IXRattr, IXTwattr, IXRwattr, IXTcond,
   IXRcond, IXTmove, IXRmove]

def ofCode (c : UInt8) : Option IXtype :=
  all.find? (·.code = c)

@[simp]
theorem ofCode_code (t : IXtype) : ofCode t.code = some t := by
  cases t <;> rfl

theorem code_of_ofCode (h : ofCode c = some t) : t.code = c := by
  simpa using List.find?_some h

end IXtype

-- What a `char*` points to. It ends at its first `\0`, which is not part of it.
structure CStr where
  bytes : List UInt8
  nulFree : 0 ∉ bytes
  deriving DecidableEq

namespace CStr

-- The string found at a memory area that holds `mem` followed by a `\0`.
def ofMem (mem : List UInt8) : CStr where
  bytes := mem.takeWhile (· ≠ 0)
  nulFree h := by simpa using List.mem_takeWhile_imp h

def length (s : CStr) : Nat :=
  s.bytes.length

def empty : CStr := ⟨[], by simp⟩

theorem ofMem_bytes (s : CStr) : ofMem s.bytes = s := by
  have h : s.bytes.takeWhile (· ≠ 0) = s.bytes := by
    rw [List.takeWhile_eq_self_iff]
    intro b hb
    simp only [ne_eq, decide_not, Bool.not_eq_eq_eq_not, Bool.not_true, decide_eq_false_iff_not]
    exact fun h => s.nulFree (h ▸ hb)
  simp only [ofMem, h]

theorem ofMem_bytes_eq_iff (mem : List UInt8) : (ofMem mem).bytes = mem ↔ 0 ∉ mem where
  mp h := h ▸ (ofMem mem).nulFree
  mpr h := congrArg bytes (ofMem_bytes ⟨mem, h⟩)

end CStr

-- One constructor for each case of the union, with the fields that the functions below use for
-- that type. A `char*` may be nil. `data` and `value` come with `count` and `nvalue`, which are
-- their lengths.
inductive IXcall
  | IXTversion (msize : UInt32) (version : Option CStr)
  | IXRversion (msize : UInt32) (version : Option CStr)
  | IXTattach (uname aname : Option CStr)
  | IXRattach (fid : UInt32)
  | IXTfid (fid : UInt32)
  | IXRfid
  | IXRerror (ename : Option CStr)
  | IXTclone (cflags : UInt8)
  | IXRclone (fid : UInt32)
  | IXTwalk (wname : Option CStr)
  | IXRwalk
  | IXTopen (mode : UInt8)
  | IXRopen
  | IXTcreate (name : Option CStr) (perm : UInt32) (mode : UInt8)
  | IXRcreate
  | IXTread (nmsg : UInt16) (offset : UInt64) (count : UInt32)
  | IXRread (data : List UInt8)
  | IXTwrite (offset endoffset : UInt64) (data : List UInt8)
  | IXRwrite (offset : UInt64) (count : UInt32)
  | IXTclunk | IXRclunk | IXTremove | IXRremove
  | IXTattr (attr : Option CStr)
  | IXRattr (value : List UInt8)
  | IXTwattr (attr : Option CStr) (value : List UInt8)
  | IXRwattr
  | IXTcond (op : UInt8) (attr : Option CStr) (value : List UInt8)
  | IXRcond
  | IXTmove (dirfid : UInt32) (newname : Option CStr)
  | IXRmove
  | other (type : UInt8) (unknown : IXtype.ofCode type = none)
  deriving DecidableEq

namespace IXcall

def type : IXcall → UInt8
  | IXTversion .. => IXtype.IXTversion.code | IXRversion .. => IXtype.IXRversion.code
  | IXTattach .. => IXtype.IXTattach.code | IXRattach .. => IXtype.IXRattach.code
  | IXTfid .. => IXtype.IXTfid.code | IXRfid => IXtype.IXRfid.code
  | IXRerror .. => IXtype.IXRerror.code | IXTclone .. => IXtype.IXTclone.code
  | IXRclone .. => IXtype.IXRclone.code | IXTwalk .. => IXtype.IXTwalk.code
  | IXRwalk => IXtype.IXRwalk.code | IXTopen .. => IXtype.IXTopen.code
  | IXRopen => IXtype.IXRopen.code | IXTcreate .. => IXtype.IXTcreate.code
  | IXRcreate => IXtype.IXRcreate.code | IXTread .. => IXtype.IXTread.code
  | IXRread .. => IXtype.IXRread.code | IXTwrite .. => IXtype.IXTwrite.code
  | IXRwrite .. => IXtype.IXRwrite.code | IXTclunk => IXtype.IXTclunk.code
  | IXRclunk => IXtype.IXRclunk.code | IXTremove => IXtype.IXTremove.code
  | IXRremove => IXtype.IXRremove.code | IXTattr .. => IXtype.IXTattr.code
  | IXRattr .. => IXtype.IXRattr.code | IXTwattr .. => IXtype.IXTwattr.code
  | IXRwattr => IXtype.IXRwattr.code | IXTcond .. => IXtype.IXTcond.code
  | IXRcond => IXtype.IXRcond.code | IXTmove .. => IXtype.IXTmove.code
  | IXRmove => IXtype.IXRmove.code | other t _ => t

end IXcall

def stringsz : Option CStr → Nat
  | none   => BIT16SZ
  | some s => BIT16SZ + s.length

-- `none` is the call to `sysfatal`. The sum is kept in a 32-bit `uint`.
def ixpackedsize : IXcall → Option UInt32
  | .IXTversion _ version | .IXRversion _ version => some (.ofNat (BIT8SZ + BIT32SZ + stringsz version))
  | .IXTattach uname aname => some (.ofNat (BIT8SZ + stringsz uname + stringsz aname))
  | .IXRattach _ => some (.ofNat (BIT8SZ + BIT32SZ))
  | .IXTfid _ => some (.ofNat (BIT8SZ + BIT32SZ))
  | .IXRfid => some (.ofNat BIT8SZ)
  | .IXRerror ename => some (.ofNat (BIT8SZ + stringsz ename))
  | .IXTclone _ => some (.ofNat (BIT8SZ + BIT8SZ))
  | .IXRclone _ => some (.ofNat (BIT8SZ + BIT32SZ))
  | .IXTwalk wname => some (.ofNat (BIT8SZ + stringsz wname))
  | .IXRwalk => some (.ofNat BIT8SZ)
  | .IXTopen _ => some (.ofNat (BIT8SZ + BIT8SZ))
  | .IXRopen => some (.ofNat BIT8SZ)
  | .IXTcreate name _ _ => some (.ofNat (BIT8SZ + stringsz name + BIT32SZ + BIT8SZ))
  | .IXRcreate => some (.ofNat BIT8SZ)
  | .IXTread .. => some (.ofNat (BIT8SZ + BIT16SZ + BIT64SZ + BIT32SZ))
  | .IXRread _ => some (.ofNat BIT8SZ)
  | .IXTwrite .. => some (.ofNat (BIT8SZ + BIT64SZ + BIT64SZ))
  | .IXRwrite .. => some (.ofNat (BIT8SZ + BIT64SZ + BIT32SZ))
  | .IXTclunk | .IXRclunk | .IXTremove | .IXRremove => some (.ofNat BIT8SZ)
  | .IXTattr attr => some (.ofNat (BIT8SZ + stringsz attr))
  | .IXRattr value => some (.ofNat (BIT8SZ + value.length))
  | .IXTwattr attr value => some (.ofNat (BIT8SZ + stringsz attr + value.length))
  | .IXRwattr => some (.ofNat BIT8SZ)
  | .IXTcond _ attr value => some (.ofNat (BIT8SZ + BIT8SZ + stringsz attr + value.length))
  | .IXRcond => some (.ofNat BIT8SZ)
  | .IXTmove _ newname => some (.ofNat (BIT8SZ + BIT32SZ + stringsz newname))
  | .IXRmove => some (.ofNat BIT8SZ)
  | .other .. => none

def PBIT8  (v : UInt8)  : List UInt8 := encode BIT8SZ v.toNat
def PBIT16 (v : UInt16) : List UInt8 := encode BIT16SZ v.toNat
def PBIT32 (v : UInt32) : List UInt8 := encode BIT32SZ v.toNat
def PBIT64 (v : UInt64) : List UInt8 := encode BIT64SZ v.toNat

-- The bytes that `pstring` leaves at `p`. The length is cut to 16 bits by `PBIT16`.
def pstring : Option CStr → List UInt8
  | none   => PBIT16 0
  | some s => PBIT16 (.ofNat s.length) ++ s.bytes

-- The bytes that the switch of `ixpack` writes after the type, and `none` when it returns 0.
def ixpackBody : IXcall → Option (List UInt8)
  | .IXTversion msize version | .IXRversion msize version =>
    some (PBIT32 msize ++ pstring version)
  | .IXTattach uname aname => some (pstring uname ++ pstring aname)
  | .IXRattach fid => some (PBIT32 fid)
  | .IXTfid fid => some (PBIT32 fid)
  | .IXRfid => some []
  | .IXRerror ename => some (pstring ename)
  | .IXTclone cflags => some (PBIT8 cflags)
  | .IXRclone fid => some (PBIT32 fid)
  | .IXTwalk wname => some (pstring wname)
  | .IXRwalk => some []
  | .IXTopen mode => some (PBIT8 mode)
  | .IXRopen => some []
  | .IXTcreate name perm mode => some (pstring name ++ PBIT32 perm ++ PBIT8 mode)
  | .IXRcreate => some []
  | .IXTread nmsg offset count => some (PBIT16 nmsg ++ PBIT64 offset ++ PBIT32 count)
  -- Data follows; not packed.
  | .IXRread _ => some []
  | .IXTwrite offset endoffset _ => some (PBIT64 offset ++ PBIT64 endoffset)
  | .IXRwrite offset count => some (PBIT64 offset ++ PBIT32 count)
  | .IXTclunk | .IXRclunk | .IXTremove | .IXRremove => some []
  | .IXTattr attr => some (pstring attr)
  | .IXRattr value => some value
  | .IXTwattr attr value => some (pstring attr ++ value)
  | .IXRwattr => some []
  | .IXTcond op attr value =>
    if op ≥ CMAX then none else some (PBIT8 op ++ pstring attr ++ value)
  | .IXRcond => some []
  | .IXTmove dirfid newname => some (PBIT32 dirfid ++ pstring newname)
  | .IXRmove => some []
  | .other .. => none

inductive Packed
  | sysfatal
  -- The value returned and the contents of the buffer.
  | ret (n : UInt32) (ap : List UInt8)
  deriving DecidableEq

-- Lays `bytes` on top of the start of `ap`. A result longer than `ap` is a buffer overrun.
def overlay (bytes ap : List UInt8) : List UInt8 :=
  bytes ++ ap.drop bytes.length

def ixpack (f : IXcall) (ap : List UInt8) : Packed :=
  match ixpackedsize f with
  | none => .sysfatal
  | some size =>
    if size = 0 ∨ size.toNat > ap.length then .ret 0 ap else
    match ixpackBody f with
    | none => .ret 0 (overlay (PBIT8 f.type) ap)
    | some body =>
      let bytes := PBIT8 f.type ++ body
      if size.toNat ≠ bytes.length then .ret 0 (overlay bytes ap) else .ret size (overlay bytes ap)

-- How `ixunpack` stops short: it returns 0, or it loads a byte outside the buffer.
inductive Stop
  | ret0
  | outside
  deriving DecidableEq

-- The state holds the bytes from `p` up to `ep`.
abbrev Unpack := StateT (List UInt8) (Except Stop)

-- `if(p+n > ep) return 0;`
def need (n : Nat) : Unpack Unit :=
  fun p => if n ≤ p.length then .ok ((), p) else .error .ret0

-- Loads the `n` bytes at `p` and advances over them. No check is made by the code here.
def load (n : Nat) : Unpack (List UInt8) :=
  fun p => if n ≤ p.length then .ok (p.take n, p.drop n) else .error .outside

def GBIT8  : Unpack UInt8  := return .ofNat (decode (← load BIT8SZ))
def GBIT16 : Unpack UInt16 := return .ofNat (decode (← load BIT16SZ))
def GBIT32 : Unpack UInt32 := return .ofNat (decode (← load BIT32SZ))
def GBIT64 : Unpack UInt64 := return .ofNat (decode (← load BIT64SZ))

-- The string is moved down by one byte, over its own length field, to make room for its `\0`.
-- Those two bytes have been read by then and no other field overlaps them. A nil result makes
-- every caller return 0, some of them only at the end of `ixunpack`.
def gstring : Unpack (Option CStr) := do
  need BIT16SZ
  let n ← GBIT16
  need n.toNat
  return some (.ofMem (← load n.toNat))

-- `f->data = p; f->count = ep - p;`
def remaining : Unpack (List UInt8) := get

-- `if(f->op >= CMAX) return 0;`
def checkop (op : UInt8) : Unpack Unit :=
  fun p => if op ≥ CMAX then .error .ret0 else .ok ((), p)

def ixunpackBody : IXtype → Unpack IXcall
  | .IXTversion => do need BIT32SZ; return .IXTversion (← GBIT32) (← gstring)
  | .IXRversion => do need BIT32SZ; return .IXRversion (← GBIT32) (← gstring)
  | .IXTattach => do return .IXTattach (← gstring) (← gstring)
  | .IXRattach => do need BIT32SZ; return .IXRattach (← GBIT32)
  | .IXTfid => do need BIT32SZ; return .IXTfid (← GBIT32)
  | .IXRfid => return .IXRfid
  | .IXRerror => return .IXRerror (← gstring)
  | .IXTclone => do need BIT8SZ; return .IXTclone (← GBIT8)
  | .IXRclone => do need BIT32SZ; return .IXRclone (← GBIT32)
  | .IXTwalk => return .IXTwalk (← gstring)
  | .IXRwalk => return .IXRwalk
  | .IXTopen => do need BIT8SZ; return .IXTopen (← GBIT8)
  | .IXRopen => return .IXRopen
  | .IXTcreate => do
    let name ← gstring
    need (BIT32SZ + BIT8SZ)
    return .IXTcreate name (← GBIT32) (← GBIT8)
  | .IXRcreate => return .IXRcreate
  | .IXTread => do
    need (BIT16SZ + BIT64SZ + BIT32SZ)
    return .IXTread (← GBIT16) (← GBIT64) (← GBIT32)
  | .IXRread => return .IXRread (← remaining)
  -- Only the room for one of the two offsets is checked.
  | .IXTwrite => do need BIT64SZ; return .IXTwrite (← GBIT64) (← GBIT64) (← remaining)
  | .IXRwrite => do need (BIT32SZ + BIT64SZ); return .IXRwrite (← GBIT64) (← GBIT32)
  | .IXTclunk => return .IXTclunk
  | .IXRclunk => return .IXRclunk
  | .IXTremove => return .IXTremove
  | .IXRremove => return .IXRremove
  | .IXTattr => return .IXTattr (← gstring)
  | .IXRattr => return .IXRattr (← remaining)
  | .IXTwattr => return .IXTwattr (← gstring) (← remaining)
  | .IXRwattr => return .IXRwattr
  | .IXTcond => do
    need BIT8SZ
    let op ← GBIT8
    checkop op
    return .IXTcond op (← gstring) (← remaining)
  | .IXRcond => return .IXRcond
  | .IXTmove => do need BIT32SZ; return .IXTmove (← GBIT32) (← gstring)
  | .IXRmove => return .IXRmove

-- The call and the `p - ap` that is returned with it.
def ixunpack (ap : List UInt8) : Except Stop (IXcall × Nat) :=
  let unpack : Unpack IXcall := do
    need BIT8SZ
    match IXtype.ofCode (← GBIT8) with
    | none => throw .ret0
    | some type => ixunpackBody type
  match unpack ap with
  | .ok (f, p) => .ok (f, ap.length - p.length)
  | .error e => .error e

end Creepy
