import Nix.Creepy.Cfg
import Nix.Creepy.Fblk
import Nix.Libc.Dir

-- The attributes of a file. The file is melted, and the caller has it locked.
namespace Creepy.Attr

section

open Fblk (Data ulong maxfsz)
open Cfg (Users bytes)
open LittleEndian (encode decode)

def DMDIR : UInt64 := 0x80000000
def DMAPPEND : UInt64 := 0x40000000
def DMUSERS : UInt64 := 0x01000000

-- The names in memory: that of the file, and those of the users that the numbers are for.
structure Mfile where
  name : List UInt8
  uid  : List UInt8
  gid  : List UInt8
  muid : List UInt8
deriving DecidableEq

structure File where
  id     : UInt64
  mode   : UInt64
  atime  : UInt64
  mtime  : UInt64
  length : UInt64
  uid    : UInt64
  gid    : UInt64
  muid   : UInt64
  asize  : Nat
  embed  : Data
  dptr   : Nat → Sparse Data 0
  iptr   : (i : Nat) → Sparse Data (i + 1)
  mf     : Mfile

-- The result of a write, and the file that it leaves.
abbrev Write := File × Except String Nat

-- The string that a buffer starts with, and the number.
def cstr (buf : List UInt8) : List UInt8 :=
  buf.takeWhile (· ≠ 0)

def u64 (buf : List UInt8) : UInt64 :=
  .ofNat (decode buf)

def ended (buf : List UInt8) : Bool :=
  buf.getLast? = some 0

def text (s : List UInt8) : String :=
  .ofList <| s.map fun c => .ofNat c.toNat

namespace File

variable (f : File) (t : Users) (buf : List UInt8) (len : Nat)

def toFblk : Fblk.File where
  dir    := f.mode &&& DMDIR ≠ 0
  append := f.mode &&& DMAPPEND ≠ 0
  asize  := f.asize
  length := f.length.toNat
  embed  := f.embed
  dptr   := f.dptr
  iptr   := f.iptr

def embedattrsz : Nat :=
  f.toFblk.embedattrsz

-- `pmeta` puts the name at the start of `embed`.
def wname : Write :=
  if ¬ended buf then (f, .error "name must end in \\0") else
  let name := cstr buf
  if name.length + 1 > f.embedattrsz then (f, .error "no room to grow metadata") else
  ({ f with mf.name := name, embed := overwrite f.embed 0 (name ++ [0]) }, .ok buf.length)

def rstr (s : List UInt8) : Except String (List UInt8) :=
  if s.length + 1 > len then .error "buffer too short" else .ok (s ++ [0])

def rname := rstr len f.mf.name
def ruid := rstr len f.mf.uid
def rgid := rstr len f.mf.gid

def chkusr : Except String UInt64 :=
  if ¬ended buf then .error "name must end in \\0" else
  let id := t.usrid (cstr buf)
  if id < 0 then .error ("unknown user '" ++ text (cstr buf) ++ "'") else .ok (.ofNat id.toNat)

def wuid : Write :=
  match chkusr t buf with
  | .error e => (f, .error e)
  | .ok id   => ({ f with uid := id }, .ok buf.length)

def wgid : Write :=
  match chkusr t buf with
  | .error e => (f, .error e)
  | .ok id   => ({ f with gid := id }, .ok buf.length)

def r64 (v : UInt64) : Except String (List UInt8) :=
  .ok (encode 8 v.toNat)

def rid := r64 f.id

def watime : Write :=
  ({ f with atime := u64 buf }, .ok 8)

def ratime := r64 f.atime

def wmtime : Write :=
  ({ f with mtime := u64 buf }, .ok 8)

def rmtime := r64 f.mtime

def wmode : Write :=
  ({ f with mode := u64 buf ||| (f.mode &&& DMUSERS) }, .ok 8)

def rmode := r64 (f.mode &&& ~~~DMUSERS)

-- What is done to the data when there are too many of them.
def resized (sz : UInt64) : Write :=
  if f.mode &&& DMDIR ≠ 0 then (f, .error "can't resize a directory") else
  if sz.toNat > maxfsz then (f, .error "max file size exceeded") else
  match f.toFblk.resized sz.toNat with
  | .error _ => (f, .error "fatal")
  | .ok g    => ({ f with embed := g.embed, dptr := g.dptr, iptr := g.iptr }, .ok 8)

def wlength : Write :=
  let f := { f with length := u64 buf }
  f.resized f.length

def rlength := r64 f.length

end File

structure Adef where
  name  : String
  sz    : Nat
  wattr : Option (Users → File → List UInt8 → Write)
  rattr : File → Nat → Except String (List UInt8)

-- The names of the attributes, as many as there is room for.
def rstar (len : Nat) : List UInt8 :=
  let names := ["name", "id", "atime", "mtime", "length", "uid", "gid", "muid", "mode"]
  (((names.map (· ++ " ")).flatMap bytes).take (len - 1)).dropLast ++ [0]

def adef : List Adef := [
  { name := "name",   sz := 0, wattr := some fun _ f buf => f.wname buf,   rattr := fun f len => f.rname len },
  { name := "id",     sz := 8, wattr := none,                              rattr := fun f _ => f.rid },
  { name := "atime",  sz := 8, wattr := some fun _ f buf => f.watime buf,  rattr := fun f _ => f.ratime },
  { name := "mtime",  sz := 8, wattr := some fun _ f buf => f.wmtime buf,  rattr := fun f _ => f.rmtime },
  { name := "length", sz := 8, wattr := some fun _ f buf => f.wlength buf, rattr := fun f _ => f.rlength },
  { name := "uid",    sz := 0, wattr := some fun t f buf => f.wuid t buf,  rattr := fun f len => f.ruid len },
  { name := "gid",    sz := 0, wattr := some fun t f buf => f.wgid t buf,  rattr := fun f len => f.rgid len },
  { name := "muid",   sz := 0, wattr := some fun t f buf => f.wuid t buf,  rattr := fun f len => f.ruid len },
  { name := "mode",   sz := 8, wattr := some fun _ f buf => f.wmode buf,   rattr := fun f _ => f.rmode },
  { name := "*",      sz := 0, wattr := none,                              rattr := fun _ len => .ok (rstar len) }]

-- `full` tells what `fsfull` does.
def dfwattr (full : Bool) (t : Users) (f : File) (name : String) (val : List UInt8) : Write :=
  if full then (f, .error "file system full") else
  match adef.find? (·.name = name) with
  | none   => (f, .error "bug: user defined attributes not yet implemented")
  | some a =>
    match a.wattr with
    | none       => (f, .error ("can't write " ++ name))
    | some wattr => if a.sz ≠ 0 ∧ a.sz ≠ val.length then (f, .error "wrong length for attribute") else wattr t f val

def dfrattr (f : File) (name : String) (count : Nat) : Except String (List UInt8) :=
  match adef.find? (·.name = name) with
  | none   => .error "no such attribute"
  | some a => if a.sz ≠ 0 ∧ count < a.sz then .error "buffer too short for attribute" else a.rattr f count

end

open Fblk (maxfsz)
open Cfg (Users bytes)
open LittleEndian (encode decode)

variable {f f' : File} {t : Users} {full : Bool} {name other : String} {val : List UInt8} {a : Adef} {count : Nat}

-- The data of a file are behind its attributes, and in blocks.
structure SameData (f f' : File) : Prop where
  asize : f'.asize = f.asize
  embed : ∀ k ≥ f.embedattrsz, f'.embed k = f.embed k
  dptr  : f'.dptr = f.dptr
  iptr  : f'.iptr = f.iptr

-- What a request to write an attribute is to do: if it succeeds it is the value that is read then, and no other attribute
-- changes; otherwise nothing does.
def Kept (full : Bool) (t : Users) (f : File) (name : String) (val : List UInt8) : Prop :=
  match dfwattr full t f name val with
  | (f', .ok _)    =>
    (∀ count ≥ val.length, dfrattr f' name count = .ok val) ∧
      (∀ other ≠ name, ∀ count, dfrattr f' other count = dfrattr f other count) ∧ (name ≠ "length" → SameData f f')
  | (f', .error _) => (∀ other count, dfrattr f' other count = dfrattr f other count) ∧ SameData f f'

-- The value is a string with nothing behind it; the name of the user in memory is the one that is written; the bit that
-- marks the users file is not set; the length is one that the file may have, or that it has.
def Plain (t : Users) (f : File) (name : String) (val : List UInt8) : Prop :=
  if name = "name" then ended val → (cstr val).length + 1 ≤ f.embedattrsz → val = cstr val ++ [0]
  else if name = "uid" ∨ name = "muid" then ended val → 0 ≤ t.usrid (cstr val) → val = f.mf.uid ++ [0]
  else if name = "gid" then ended val → 0 ≤ t.usrid (cstr val) → val = f.mf.gid ++ [0]
  else if name = "mode" then val.length = 8 → u64 val &&& DMUSERS = 0
  else if name = "length" then
    val.length = 8 → f.mode &&& DMDIR ≠ 0 ∨ maxfsz < (u64 val).toNat → u64 val = f.length
  else True

theorem SameData.refl (f : File) : SameData f f :=
  ⟨rfl, fun _ _ => rfl, rfl, rfl⟩

theorem dfrattr_congr (h : ∀ a ∈ adef, a.name = other → a.rattr f' = a.rattr f) (count : Nat) :
    dfrattr f' other count = dfrattr f other count := by
  rw [dfrattr, dfrattr]
  cases ha : adef.find? (·.name = other)
  case none => rfl
  case some a =>
    have hname : a.name = other := of_decide_eq_true (List.find?_some (p := fun a : Adef => decide (a.name = other)) ha)
    simp only [h a (List.mem_of_find?_eq_some ha) hname]

theorem kept_of_error {e : String} (h : dfwattr full t f name val = (f, .error e)) : Kept full t f name val := by
  rw [Kept, h]
  exact ⟨fun _ _ => rfl, .refl f⟩

theorem kept_of_ok {n : Nat} (h : dfwattr full t f name val = (f', .ok n))
    (hother : ∀ a ∈ adef, a.name ≠ name → a.rattr f' = a.rattr f) (hdata : name ≠ "length" → SameData f f') :
    Kept full t f name val ↔ ∀ count ≥ val.length, dfrattr f' name count = .ok val := by
  rw [Kept, h]
  refine ⟨And.left, fun hread => ⟨hread, fun other hne count => ?_, hdata⟩⟩
  exact dfrattr_congr (fun a ha he => hother a ha (he ▸ hne)) count

theorem dfwattr_full : dfwattr true t f name val = (f, .error "file system full") :=
  rfl

theorem encode_u64 (h : val.length = 8) : encode 8 (u64 val).toNat = val :=
  Libc.encode_ofNat64 h

theorem rstr_iff {s : List UInt8} : (∀ count ≥ val.length, File.rstr count s = .ok val) ↔ val = s ++ [0] := by
  constructor
  case mp =>
    intro h
    have hlen := h (val.length + s.length + 1) (by omega)
    rw [File.rstr, if_neg (by omega)] at hlen
    exact (Except.ok.inj hlen).symm
  case mpr =>
    intro h count hcount
    have hlen : val.length = s.length + 1 := by rw [h, List.length_append, List.length_singleton]
    rw [File.rstr, if_neg (by omega), h]

theorem r64_iff {v : UInt64} (h : val.length = 8) :
    (∀ count ≥ val.length, (if 8 ≠ 0 ∧ count < 8 then .error "buffer too short for attribute" else File.r64 v) = .ok val) ↔
      v = u64 val := by
  constructor
  case mp =>
    intro hread
    have hval := hread 8 (by omega)
    rw [if_neg (by omega), File.r64, Except.ok.injEq] at hval
    rw [u64, ← hval, LittleEndian.decode_encode v.toNat_lt, UInt64.ofNat_toNat]
  case mpr =>
    intro hv count hcount
    rw [if_neg (by omega), File.r64, hv, encode_u64 h]

-- The bits that are kept from the mode are those that are not in the number.
theorem masked_iff {v m d : UInt64} : (v ||| (m &&& d)) &&& ~~~d = v ↔ v &&& d = 0 := by
  simp only [← UInt64.toBitVec_inj, UInt64.toBitVec_and, UInt64.toBitVec_or, UInt64.toBitVec_not, UInt64.toBitVec_zero]
  constructor
  all_goals
    intro h
    apply BitVec.eq_of_getLsbD_eq
    intro i hi
    have hbit := congrArg (BitVec.getLsbD · i) h
    simp only [BitVec.getLsbD_and, BitVec.getLsbD_or, BitVec.getLsbD_not, BitVec.getLsbD_zero, hi, decide_true,
      Bool.true_and] at hbit ⊢
    revert hbit
    generalize v.toBitVec.getLsbD i = a, m.toBitVec.getLsbD i = b, d.toBitVec.getLsbD i = c
    revert a b c
    decide

theorem dfwattr_attr {wattr} (ha : adef.find? (·.name = name) = some a) (hw : a.wattr = some wattr) :
    dfwattr false t f name val =
      if a.sz ≠ 0 ∧ a.sz ≠ val.length then (f, .error "wrong length for attribute") else wattr t f val := by
  rw [dfwattr, if_neg Bool.false_ne_true, ha]
  simp only [hw]

theorem dfrattr_attr (ha : adef.find? (·.name = name) = some a) :
    dfrattr f name count =
      if a.sz ≠ 0 ∧ count < a.sz then .error "buffer too short for attribute" else a.rattr f count := by
  rw [dfrattr, ha]

theorem wname_kept : Kept false t f "name" val ↔ Plain t f "name" val := by
  have hw : dfwattr false t f "name" val = f.wname val := (dfwattr_attr rfl rfl).trans (if_neg fun h => h.left rfl)
  rw [Plain, if_pos rfl]
  by_cases hend : ended val
  case neg =>
    rw [File.wname, if_pos hend] at hw
    exact iff_of_true (kept_of_error hw) fun h => absurd h hend
  by_cases hlen : (cstr val).length + 1 ≤ f.embedattrsz
  case neg =>
    rw [File.wname, if_neg (not_not.mpr hend), if_pos (by omega)] at hw
    exact iff_of_true (kept_of_error hw) fun _ h => absurd h hlen
  rw [File.wname, if_neg (not_not.mpr hend), if_neg (by omega)] at hw
  have hdata : ∀ k ≥ f.embedattrsz, overwrite f.embed 0 (cstr val ++ [0]) k = f.embed k := by
    intro k hk
    apply overwrite_of_le
    rw [List.length_append, List.length_singleton]
    omega
  rw [kept_of_ok hw (by simp [adef]; and_intros <;> rfl) fun _ => ⟨rfl, hdata, rfl, rfl⟩]
  simp only [dfrattr_attr (show adef.find? (·.name = "name") = _ from rfl)]
  exact rstr_iff.trans ⟨fun h _ _ => h, fun h => h hend hlen⟩

-- A name of a user is looked up, and the number is put where `set` puts it, while `s` is what is read.
theorem chkusr_kept (set : UInt64 → File) {s : List UInt8}
    (hw : dfwattr false t f name val =
      match File.chkusr t val with
      | .error e => (f, .error e)
      | .ok id   => (set id, .ok val.length))
    (hother : ∀ id, ∀ a ∈ adef, a.name ≠ name → a.rattr (set id) = a.rattr f) (hdata : ∀ id, SameData f (set id))
    (hread : ∀ id count, dfrattr (set id) name count = File.rstr count s) :
    Kept false t f name val ↔ (ended val → 0 ≤ t.usrid (cstr val) → val = s ++ [0]) := by
  by_cases hend : ended val
  case neg =>
    rw [File.chkusr, if_pos hend] at hw
    exact iff_of_true (kept_of_error hw) fun h => absurd h hend
  by_cases hid : t.usrid (cstr val) < 0
  case pos =>
    rw [File.chkusr, if_neg (not_not.mpr hend)] at hw
    simp only [hid, if_true] at hw
    exact iff_of_true (kept_of_error hw) fun _ h => absurd hid (not_lt.mpr h)
  rw [File.chkusr, if_neg (not_not.mpr hend)] at hw
  simp only [hid, if_false] at hw
  rw [kept_of_ok hw (hother _) fun _ => hdata _]
  simp only [hread]
  exact rstr_iff.trans ⟨fun h _ _ => h, fun h => h hend (not_lt.mp hid)⟩

theorem wuid_kept : Kept false t f "uid" val ↔ Plain t f "uid" val := by
  have hw : dfwattr false t f "uid" val = f.wuid t val := (dfwattr_attr rfl rfl).trans (if_neg fun h => h.left rfl)
  rw [Plain, if_neg (by decide), if_pos (.inl rfl)]
  apply chkusr_kept (fun id => { f with uid := id }) hw
  case hother => intro id; simp [adef]; and_intros <;> rfl
  case hdata => exact fun _ => ⟨rfl, fun _ _ => rfl, rfl, rfl⟩
  case hread => exact fun _ _ => (dfrattr_attr rfl).trans (if_neg fun h => h.left rfl)

theorem wmuid_kept : Kept false t f "muid" val ↔ Plain t f "muid" val := by
  have hw : dfwattr false t f "muid" val = f.wuid t val := (dfwattr_attr rfl rfl).trans (if_neg fun h => h.left rfl)
  rw [Plain, if_neg (by decide), if_pos (.inr rfl)]
  apply chkusr_kept (fun id => { f with uid := id }) hw
  case hother => intro id; simp [adef]; and_intros <;> rfl
  case hdata => exact fun _ => ⟨rfl, fun _ _ => rfl, rfl, rfl⟩
  case hread => exact fun _ _ => (dfrattr_attr rfl).trans (if_neg fun h => h.left rfl)

theorem wgid_kept : Kept false t f "gid" val ↔ Plain t f "gid" val := by
  have hw : dfwattr false t f "gid" val = f.wgid t val := (dfwattr_attr rfl rfl).trans (if_neg fun h => h.left rfl)
  rw [Plain, if_neg (by decide), if_neg (by decide), if_pos rfl]
  apply chkusr_kept (fun id => { f with gid := id }) hw
  case hother => intro id; simp [adef]; and_intros <;> rfl
  case hdata => exact fun _ => ⟨rfl, fun _ _ => rfl, rfl, rfl⟩
  case hread => exact fun _ _ => (dfrattr_attr rfl).trans (if_neg fun h => h.left rfl)

theorem kept_of_length {wattr} (ha : adef.find? (·.name = name) = some a) (hw : a.wattr = some wattr)
    (h : a.sz ≠ 0 ∧ a.sz ≠ val.length) : Kept false t f name val :=
  kept_of_error ((dfwattr_attr ha hw).trans (if_pos h))

theorem number_kept {wattr} {n : Nat} (g : File) (v : UInt64) (ha : adef.find? (·.name = name) = some a) (hsz : a.sz = 8)
    (hw : a.wattr = some wattr) (hok : wattr t f val = (g, .ok n)) (hread : ∀ count, a.rattr g count = File.r64 v)
    (hother : ∀ b ∈ adef, b.name ≠ name → b.rattr g = b.rattr f) (hdata : SameData f g) :
    Kept false t f name val ↔ (val.length = 8 → v = u64 val) := by
  by_cases hlen : val.length = 8
  case neg => exact iff_of_true (kept_of_length ha hw (by omega)) fun h => absurd h hlen
  have hwrite : dfwattr false t f name val = (g, .ok n) := by rw [dfwattr_attr ha hw, if_neg (by omega), hok]
  rw [kept_of_ok hwrite hother fun _ => hdata]
  simp only [dfrattr_attr ha, hread, hsz]
  exact (r64_iff hlen).trans ⟨fun h _ => h, fun h => h hlen⟩

theorem watime_kept : Kept false t f "atime" val := by
  apply (number_kept { f with atime := u64 val } (u64 val) rfl rfl rfl rfl (fun _ => rfl) ?_ ?_).mpr fun _ => rfl
  · simp [adef]
    and_intros <;> rfl
  · exact ⟨rfl, fun _ _ => rfl, rfl, rfl⟩

theorem wmtime_kept : Kept false t f "mtime" val := by
  apply (number_kept { f with mtime := u64 val } (u64 val) rfl rfl rfl rfl (fun _ => rfl) ?_ ?_).mpr fun _ => rfl
  · simp [adef]
    and_intros <;> rfl
  · exact ⟨rfl, fun _ _ => rfl, rfl, rfl⟩

theorem wmode_kept : Kept false t f "mode" val ↔ Plain t f "mode" val := by
  rw [Plain, if_neg (by decide), if_neg (by decide), if_neg (by decide), if_pos rfl]
  apply (number_kept { f with mode := u64 val ||| (f.mode &&& DMUSERS) } _ rfl rfl rfl rfl (fun _ => rfl) ?_ ?_).trans
  · exact imp_congr_right fun _ => masked_iff
  · simp [adef]
    and_intros <;> rfl
  · exact ⟨rfl, fun _ _ => rfl, rfl, rfl⟩

theorem resized_ok (hdir : ¬f.mode &&& DMDIR ≠ 0) (hmax : f.length.toNat ≤ maxfsz) :
    f.resized f.length = (f, .ok 8) := by
  have hdir' : ¬f.toFblk.dir = true := by rwa [File.toFblk, decide_eq_true_iff]
  have hres : f.toFblk.resized f.length.toNat = .ok f.toFblk := by
    rw [Fblk.File.resized, if_neg hdir', if_neg (not_lt.mpr hmax), if_pos (show f.length.toNat ≥ f.toFblk.length from le_refl _)]
  rw [File.resized, if_neg hdir, if_neg (not_lt.mpr hmax), hres]
  rfl

theorem resized_error (f : File) (sz : UInt64) (h : f.mode &&& DMDIR ≠ 0 ∨ maxfsz < sz.toNat) :
    ∃ e, f.resized sz = (f, .error e) := by
  rw [File.resized]
  split
  case isTrue => exact ⟨_, rfl⟩
  case isFalse hdir => exact ⟨_, if_pos (h.resolve_left hdir)⟩

theorem wlength_ok (hdir : ¬f.mode &&& DMDIR ≠ 0) (hmax : (u64 val).toNat ≤ maxfsz) : Kept false t f "length" val := by
  have hok : f.wlength val = ({ f with length := u64 val }, .ok 8) :=
    resized_ok (f := { f with length := u64 val }) hdir hmax
  apply (number_kept { f with length := u64 val } (u64 val) rfl rfl rfl hok (fun _ => rfl) ?_ ?_).mpr fun _ => rfl
  · simp [adef]
    and_intros <;> rfl
  · exact ⟨rfl, fun _ _ => rfl, rfl, rfl⟩

theorem wlength_error (hlen : val.length = 8) (h : f.mode &&& DMDIR ≠ 0 ∨ maxfsz < (u64 val).toNat) :
    Kept false t f "length" val ↔ u64 val = f.length := by
  obtain ⟨e, herr⟩ := resized_error { f with length := u64 val } (u64 val) h
  have hw : dfwattr false t f "length" val = ({ f with length := u64 val }, .error e) := by
    rw [dfwattr_attr rfl rfl, if_neg fun h => h.right hlen.symm]
    exact herr
  rw [Kept, hw]
  constructor
  case mp =>
    intro hkept
    have hread := hkept.left "length" 8
    rw [dfrattr_attr rfl, dfrattr_attr rfl, if_neg (by simp), if_neg (by simp)] at hread
    have henc : encode 8 (u64 val).toNat = encode 8 f.length.toNat := Except.ok.inj hread
    have hdec := congrArg decode henc
    rw [LittleEndian.decode_encode (u64 val).toNat_lt, LittleEndian.decode_encode f.length.toNat_lt] at hdec
    exact UInt64.toNat_inj.mp hdec
  case mpr =>
    intro hv
    rw [hv]
    exact ⟨fun _ _ => rfl, .refl f⟩

theorem wlength_kept : Kept false t f "length" val ↔ Plain t f "length" val := by
  rw [Plain, if_neg (by decide), if_neg (by decide), if_neg (by decide), if_neg (by decide), if_pos rfl]
  by_cases hlen : val.length = 8
  case neg => exact iff_of_true (kept_of_length rfl rfl ⟨by decide, Ne.symm hlen⟩) fun h => absurd h hlen
  by_cases hbad : f.mode &&& DMDIR ≠ 0 ∨ maxfsz < (u64 val).toNat
  case pos => exact (wlength_error hlen hbad).trans ⟨fun h _ _ => h, fun h => h hlen hbad⟩
  case neg =>
    obtain ⟨hdir, hmax⟩ := not_or.mp hbad
    exact iff_of_true (wlength_ok hdir (not_lt.mp hmax)) fun _ h => absurd h hbad

theorem unwritable_kept (ha : adef.find? (·.name = name) = some a) (hw : a.wattr = none) : Kept false t f name val := by
  have herr : dfwattr false t f name val = (f, .error ("can't write " ++ name)) := by
    rw [dfwattr, if_neg Bool.false_ne_true, ha]
    simp only [hw]
  exact kept_of_error herr

theorem unknown_kept (h : ∀ a ∈ adef, a.name ≠ name) : Kept false t f name val := by
  have hnone : adef.find? (·.name = name) = none := List.find?_eq_none.mpr fun a ha => by simpa using h a ha
  have herr : dfwattr false t f name val = (f, .error "bug: user defined attributes not yet implemented") := by
    rw [dfwattr, if_neg Bool.false_ne_true, hnone]
  exact kept_of_error herr

theorem plain_of_not_mem (h : name ∉ ["name", "uid", "muid", "gid", "mode", "length"]) : Plain t f name val := by
  simp only [List.mem_cons, List.not_mem_nil, or_false, not_or] at h
  obtain ⟨hname, huid, hmuid, hgid, hmode, hlength⟩ := h
  simp only [Plain, hname, huid, hmuid, hgid, hmode, hlength, or_self, if_false]

theorem kept_iff : Kept full t f name val ↔ full = true ∨ Plain t f name val := by
  cases full
  case true => exact iff_of_true (kept_of_error dfwattr_full) (.inl rfl)
  case false =>
    rw [or_iff_right Bool.false_ne_true]
    by_cases hin : ∃ a ∈ adef, a.name = name
    case neg =>
      have hnames : ∀ s ∈ ["name", "uid", "muid", "gid", "mode", "length"], ∃ a ∈ adef, a.name = s := by decide
      exact iff_of_true (unknown_kept fun a ha he => hin ⟨a, ha, he⟩) (plain_of_not_mem fun hmem => hin (hnames name hmem))
    case pos =>
      obtain ⟨a, ha, rfl⟩ := hin
      simp only [adef, List.mem_cons, List.not_mem_nil, or_false] at ha
      rcases ha with rfl | rfl | rfl | rfl | rfl | rfl | rfl | rfl | rfl | rfl
      · exact wname_kept
      · exact iff_of_true (unwritable_kept rfl rfl) (plain_of_not_mem (by decide))
      · exact iff_of_true watime_kept (plain_of_not_mem (by decide))
      · exact iff_of_true wmtime_kept (plain_of_not_mem (by decide))
      · exact wlength_kept
      · exact wuid_kept
      · exact wgid_kept
      · exact wmuid_kept
      · exact wmode_kept
      · exact iff_of_true (unwritable_kept rfl rfl) (plain_of_not_mem (by decide))

-- A request, with the users and the room that there are when it is made.
structure Req where
  full  : Bool
  users : Users
  name  : String
  val   : List UInt8

def Req.write (r : Req) (f : File) : Write :=
  dfwattr r.full r.users f r.name r.val

-- `P` holds of every request of a sequence and the file that it is made on.
def Along (P : Req → File → Prop) : List Req → File → Prop
  | [], _      => True
  | r :: rs, f => P r f ∧ Along P rs (r.write f).1

def rob : Users where
  usrs   := [{ name := bytes "rob", id := 1, enabled := true, lead := none, members := [] }]
  uwrite := none
  uidgen := 2

def blank (mode : UInt64) : File where
  id     := 0
  mode   := mode
  atime  := 0
  mtime  := 0
  length := 0
  uid    := 0
  gid    := 0
  muid   := 0
  asize  := 0
  embed  := fun _ => 0
  dptr   := fun _ => .nil
  iptr   := fun _ => .nil
  mf     := { name := bytes "f", uid := bytes "none", gid := bytes "none", muid := bytes "none" }

-- The file after a sequence of requests.
def after (rs : List Req) (f : File) : File :=
  rs.foldl (fun f r => (r.write f).1) f

-- Requests for other attributes, and those that fail, do not change what is read.
theorem dfrattr_after {rs : List Req} (h : Along (fun r f => Kept r.full r.users f r.name r.val) rs f)
    (hother : ∀ r ∈ rs, r.name ≠ name) (count : Nat) : dfrattr (after rs f) name count = dfrattr f name count := by
  induction rs generalizing f
  case nil => rfl
  case cons r rs ih =>
    have hstep : dfrattr (r.write f).1 name count = dfrattr f name count := by
      have hkept : Kept r.full r.users f r.name r.val := h.left
      rw [Kept] at hkept
      rw [Req.write]
      split at hkept
      case h_1 he => exact he ▸ hkept.right.left name (hother r List.mem_cons_self).symm count
      case h_2 he => exact he ▸ hkept.left name count
    exact (ih h.right fun r' hr => hother r' (List.mem_cons_of_mem _ hr)).trans hstep

theorem Along.imp {P Q : Req → File → Prop} {rs : List Req} (h : ∀ r f, P r f → Q r f) (hrs : Along P rs f) :
    Along Q rs f := by
  induction rs generalizing f
  case nil => trivial
  case cons r rs ih => exact ⟨h r f hrs.left, ih hrs.right⟩

end Creepy.Attr
