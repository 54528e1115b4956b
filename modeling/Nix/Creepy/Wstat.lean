import Nix.Creepy.Access
import Nix.Creepy.Attr

-- A change to the attributes of a file, which are checked first and then written one by one.
namespace Creepy.Wstat

section

open Access (Kind AWRITE)
open Attr (File DMDIR DMAPPEND DMUSERS dfwattr text)
open LittleEndian (encode)

abbrev Sd := Libc.Dir Libc.CStr

def DMEXCL : UInt64 := 0x20000000
def DMTMP : UInt64 := 0x04000000
def DMBITS : UInt64 := DMDIR ||| DMAPPEND ||| DMEXCL ||| DMTMP ||| 0o777
def NSPERSEC : UInt64 := 1000000000

-- There is an error, or the process dies.
inductive Stop
  | error (e : String)
  | fatal
deriving DecidableEq

-- What is there for a request, but for the file: the users by their numbers and by their names, the fid, the kind of the
-- file, the directory that it is in with the names that are there, the error that `dfmelt` raises if any, and what
-- `fsfull` finds when an attribute is written.
structure Ctx (U : Type*) where
  ids      : Access.Users U
  names    : Cfg.Users
  uid      : BitVec 32
  auth     : Bool
  archived : Bool
  kind     : Kind
  parent   : Access.File
  siblings : List (List UInt8)
  melt     : Option String
  full     : String → Bool

def noname : Libc.CStr := ⟨[], Libc.nulfree_nil⟩

-- A file as access to it is checked.
def access (kind : Kind) (f : File) : Access.File where
  kind  := kind
  name  := text f.mf.name
  mode  := f.mode.toBitVec
  uid   := f.uid.toBitVec
  gid   := f.gid.toBitVec
  opens := 0

def refuse (c : Prop) [Decidable c] (e : String) : Except Stop Unit :=
  if c then .error (.error e) else .ok ()

namespace Ctx

variable {U : Type*} (c : Ctx U) (f : File) (sd : Sd)

def allowed (uid : UInt64) : Bool :=
  c.ids.allowed (uid.toBitVec.setWidth 32)

def leader (gid : UInt64) (lead : BitVec 32) : Bool :=
  (c.ids.finduid (gid.toBitVec.setWidth 32)).any fun u =>
    match (c.ids.usr u).lead with
    | some l => (c.ids.usr l).id = lead
    | none   => c.ids.findmember u lead

def usrid (name : Libc.CStr) : Int :=
  c.names.usrid name.bytes

def member (name : Libc.CStr) : Bool :=
  c.ids.member (.ofInt 32 (c.usrid name)) c.uid

def isro : Bool :=
  Access.isro (access c.kind f)

def accessok (f : Access.File) : Except Stop Unit :=
  (c.ids.dfaccessok f c.uid AWRITE).mapError .error

-- the owner or the leader of the group
def owner : Bool :=
  c.uid.signExtend 64 = f.uid.toBitVec || c.leader f.gid c.uid

-- What is done before the fields are looked at.
def enter : Except Stop Unit := do
  refuse c.auth "wstat on auth fid"
  refuse (c.ids.writedenied c.uid) "user can't write"
  refuse (c.archived ∨ c.isro f) "can't wstat archived or built-in files"
  match c.melt with
  | some e => .error (.error e)
  | none   => refuse (f.mode &&& DMUSERS ≠ 0) "can't wstat the users file"

-- The checks of the fields. Those that are not to be written are nulled.
def chklength : Except Stop Sd :=
  if sd.length ≠ ~~~0 ∧ sd.length ≠ f.length then do
    refuse (f.mode &&& DMDIR ≠ 0) "can't resize a directory"
    refuse (sd.length ≠ 0) "can't truncate to non-zero length"
    c.accessok (access c.kind f)
    .ok sd
  else .ok { sd with length := ~~~0 }

-- The file itself is searched for the name. An error is caught, also the one that is raised when the name is there.
def dfwalk : Except Stop Unit :=
  if sd.name.bytes = Cfg.bytes ".." ∨ f.mode &&& DMDIR = 0 then .error .fatal else .ok ()

def chkname : Except Stop Sd :=
  if sd.name.bytes ≠ [] ∧ f.mf.name ≠ sd.name.bytes then do
    refuse (c.isro f ∨ c.kind = .active) "can't rename built-in files"
    c.accessok c.parent
    dfwalk f sd
    .ok sd
  else .ok { sd with name := noname }

def chkowner (name : Libc.CStr) : Except Stop Unit :=
  if c.allowed f.uid then .ok () else do
    refuse (¬c.owner f) "not the owner or group leader"
    refuse (¬c.member name) "you are not a member"

def chkuid : Except Stop Sd :=
  if sd.uid.bytes ≠ [] ∧ sd.uid.bytes ≠ f.mf.uid then do
    c.chkowner f sd.uid
    .ok sd
  else .ok { sd with uid := noname }

def chkgid : Except Stop Sd :=
  if sd.gid.bytes ≠ [] ∧ sd.gid.bytes ≠ f.mf.gid then do
    c.chkowner f sd.gid
    .ok sd
  else .ok { sd with gid := noname }

def chkmuid : Except Stop Sd :=
  if sd.muid.bytes ≠ [] ∧ sd.muid.bytes ≠ f.mf.muid then
    .ok (if c.allowed f.uid then sd else { sd with muid := noname })
  else .ok { sd with muid := noname }

def chkmode : Except Stop Sd :=
  if sd.mode ≠ ~~~0 ∧ f.mode ≠ sd.mode.toUInt64 then do
    refuse (sd.mode.toUInt64 &&& DMBITS ≠ sd.mode.toUInt64) "unknown bit set in mode"
    refuse (¬c.allowed f.uid ∧ ¬c.owner f) "not the owner or group leader"
    refuse ((sd.mode.toUInt64 &&& DMDIR) ^^^ (f.mode &&& DMDIR) ≠ 0) "attempt to change DMDIR"
    .ok sd
  else .ok { sd with mode := ~~~0 }

def chkatime : Except Stop Sd :=
  if sd.atime ≠ ~~~0 ∧ f.atime ≠ sd.atime.toUInt64 then
    .ok (if c.allowed f.uid then sd else { sd with atime := ~~~0 })
  else .ok { sd with atime := ~~~0 }

def chkmtime : Except Stop Sd :=
  if sd.mtime ≠ ~~~0 ∧ f.mtime ≠ sd.mtime.toUInt64 then do
    refuse (¬c.allowed f.uid ∧ ¬c.owner f) "not the owner or group leader"
    .ok sd
  else .ok { sd with mtime := ~~~0 }

def check : Except Stop Sd := do
  let sd ← c.chklength f sd
  let sd ← c.chkname f sd
  let sd ← c.chkuid f sd
  let sd ← c.chkgid f sd
  let sd ← c.chkmuid f sd
  let sd ← c.chkmode f sd
  let sd ← c.chkatime f sd
  c.chkmtime f sd

end Ctx

-- A write is asked for, or not.
def wanted (p : Prop) [Decidable p] (name : String) (val : List UInt8) : List (String × List UInt8) :=
  if p then [(name, val)] else []

def wstatint (v : UInt64) : List UInt8 :=
  encode 8 v.toNat

def wstatstr (s : Libc.CStr) : List UInt8 :=
  s.bytes ++ [0]

def writes (sd : Sd) : List (String × List UInt8) :=
  wanted (sd.length ≠ ~~~0) "length" (wstatint sd.length) ++
  wanted (sd.name.bytes ≠ []) "name" (wstatstr sd.name) ++
  wanted (sd.uid.bytes ≠ []) "uid" (wstatstr sd.uid) ++
  wanted (sd.gid.bytes ≠ []) "gid" (wstatstr sd.gid) ++
  wanted (sd.muid.bytes ≠ []) "muid" (wstatstr sd.muid) ++
  wanted (sd.mode ≠ ~~~0) "mode" (wstatint sd.mode.toUInt64) ++
  wanted (sd.atime ≠ ~~~0) "atime" (wstatint sd.atime.toUInt64) ++
  wanted (sd.mtime ≠ ~~~0) "mtime" (wstatint sd.mtime.toUInt64)

abbrev Outcome := File × Except Stop Unit

-- `fsfull` does not come back when the disk is full.
def wattrs {U : Type*} (c : Ctx U) : List (String × List UInt8) → File → Outcome
  | [], f => (f, .ok ())
  | (name, val) :: ws, f =>
    if c.full name then (f, .error .fatal) else
    match dfwattr false c.names f name val with
    | (f, .ok _)    => wattrs c ws f
    | (f, .error e) => (f, .error (.error e))

-- There is no message to look at if `convM2D` finds it bad.
def rwstat {U : Type*} (c : Ctx U) (f : File) (sd : Option Sd) : Outcome :=
  match sd with
  | none    => (f, .error (.error "convM2D: bad stat"))
  | some sd =>
    match (do c.enter f; c.check f sd) with
    | .error e => (f, .error e)
    | .ok sd   => wattrs c (writes sd) f

-- The fields of `pack9dir` that a request can change.
structure Shown where
  name   : List UInt8
  uid    : List UInt8
  gid    : List UInt8
  muid   : List UInt8
  mode   : UInt32
  atime  : UInt32
  mtime  : UInt32
  length : UInt64
deriving DecidableEq

def pack9dir (f : File) : Shown where
  name   := f.mf.name
  uid    := f.mf.uid
  gid    := f.mf.gid
  muid   := f.mf.muid
  mode   := f.mode.toUInt32
  atime  := f.atime.toUInt32
  mtime  := (f.mtime / NSPERSEC).toUInt32
  length := if f.mode &&& DMDIR ≠ 0 then 0 else f.length

end

open Access (Kind)
open Attr (File DMDIR DMUSERS)

variable {U : Type*} {c : Ctx U} {f : File} {sd : Sd}

-- The attributes that a message asks to change.
section

variable (f : File) (sd : Sd)

def AsksLength : Prop := sd.length ≠ ~~~0 ∧ sd.length ≠ f.length
def AsksName : Prop := sd.name.bytes ≠ [] ∧ f.mf.name ≠ sd.name.bytes
def AsksUid : Prop := sd.uid.bytes ≠ [] ∧ sd.uid.bytes ≠ f.mf.uid
def AsksGid : Prop := sd.gid.bytes ≠ [] ∧ sd.gid.bytes ≠ f.mf.gid
def AsksMuid : Prop := sd.muid.bytes ≠ [] ∧ sd.muid.bytes ≠ f.mf.muid
def AsksMode : Prop := sd.mode ≠ ~~~0 ∧ f.mode ≠ sd.mode.toUInt64
def AsksAtime : Prop := sd.atime ≠ ~~~0 ∧ f.atime ≠ sd.atime.toUInt64
def AsksMtime : Prop := sd.mtime ≠ ~~~0 ∧ f.mtime ≠ sd.mtime.toUInt64

instance : Decidable (AsksLength f sd) := inferInstanceAs (Decidable (_ ∧ _))
instance : Decidable (AsksName f sd) := inferInstanceAs (Decidable (_ ∧ _))
instance : Decidable (AsksUid f sd) := inferInstanceAs (Decidable (_ ∧ _))
instance : Decidable (AsksGid f sd) := inferInstanceAs (Decidable (_ ∧ _))
instance : Decidable (AsksMuid f sd) := inferInstanceAs (Decidable (_ ∧ _))
instance : Decidable (AsksMode f sd) := inferInstanceAs (Decidable (_ ∧ _))
instance : Decidable (AsksAtime f sd) := inferInstanceAs (Decidable (_ ∧ _))
instance : Decidable (AsksMtime f sd) := inferInstanceAs (Decidable (_ ∧ _))

-- The file is searched as a directory, which it has to be.
def Dies : Prop := AsksName f sd ∧ (sd.name.bytes = Cfg.bytes ".." ∨ f.mode &&& DMDIR = 0)

end

namespace Ctx

variable (c : Ctx U) (f : File) (sd : Sd)

-- What the request must meet, and what must be met for each field.
def Enters : Prop :=
  c.auth = false ∧ c.ids.writedenied c.uid = false ∧ ¬(c.archived = true ∨ c.isro f = true) ∧ c.melt = none ∧
    f.mode &&& DMUSERS = 0

def Accessible (g : Access.File) : Prop :=
  c.ids.dfaccessok g c.uid Access.AWRITE = .ok ()

def LengthOk : Prop :=
  AsksLength f sd → f.mode &&& DMDIR = 0 ∧ sd.length = 0 ∧ c.Accessible (access c.kind f)

def NameOk : Prop :=
  AsksName f sd → ¬(c.isro f = true ∨ c.kind = .active) ∧ c.Accessible c.parent

def OwnerOk (name : Libc.CStr) : Prop :=
  c.allowed f.uid = true ∨ c.owner f = true ∧ c.member name = true

def ModeOk : Prop :=
  AsksMode f sd → sd.mode.toUInt64 &&& DMBITS = sd.mode.toUInt64 ∧ (c.allowed f.uid = true ∨ c.owner f = true) ∧
    (sd.mode.toUInt64 &&& DMDIR) ^^^ (f.mode &&& DMDIR) = 0

structure OthersOk : Prop where
  uid   : AsksUid f sd → c.OwnerOk f sd.uid
  gid   : AsksGid f sd → c.OwnerOk f sd.gid
  mode  : c.ModeOk f sd
  mtime : AsksMtime f sd → c.allowed f.uid = true ∨ c.owner f = true

-- What is left of the message.
def asked : Sd :=
  { sd with
    length := if AsksLength f sd then sd.length else ~~~0
    name   := if AsksName f sd then sd.name else noname
    uid    := if AsksUid f sd then sd.uid else noname
    gid    := if AsksGid f sd then sd.gid else noname
    muid   := if AsksMuid f sd ∧ c.allowed f.uid = true then sd.muid else noname
    mode   := if AsksMode f sd then sd.mode else ~~~0
    atime  := if AsksAtime f sd ∧ c.allowed f.uid = true then sd.atime else ~~~0
    mtime  := if AsksMtime f sd then sd.mtime else ~~~0 }

end Ctx

-- A check comes to a result, or raises an error.
def Checks {α : Type} (x : Except Stop α) (ok : Prop) (r : Except Stop α) : Prop :=
  ok ∧ x = r ∨ ¬ok ∧ ∃ e, x = .error (.error e)

theorem Checks.bind {α β : Type} {x : Except Stop α} {k : α → Except Stop β} {p q : Prop} {a : α} {r : Except Stop β}
    (hx : Checks x p (.ok a)) (hk : Checks (k a) q r) : Checks (x >>= k) (p ∧ q) r := by
  rcases hx with ⟨hp, rfl⟩ | ⟨hp, e, rfl⟩
  case inl =>
    rcases hk with ⟨hq, he⟩ | ⟨hq, e, he⟩
    · exact .inl ⟨⟨hp, hq⟩, he⟩
    · exact .inr ⟨fun h => hq h.right, e, he⟩
  case inr => exact .inr ⟨fun h => hp h.left, e, rfl⟩

theorem Checks.stop {α β : Type} {x : Except Stop α} {k : α → Except Stop β} {p : Prop} {e : Stop}
    (hx : Checks x p (.error e)) : Checks (x >>= k) p (.error e) := by
  rcases hx with ⟨hp, rfl⟩ | ⟨hp, e', rfl⟩
  · exact .inl ⟨hp, rfl⟩
  · exact .inr ⟨hp, e', rfl⟩

theorem Checks.pure {α : Type} (r : Except Stop α) : Checks r True r :=
  .inl ⟨trivial, rfl⟩

theorem Checks.congr {α : Type} {x r r' : Except Stop α} {p q : Prop} (h : Checks x p r) (hpq : p ↔ q) (hr : r = r') :
    Checks x q r' :=
  hr ▸ propext hpq ▸ h

theorem checks_refuse (p : Prop) [Decidable p] (e : String) : Checks (refuse p e) (¬p) (.ok ()) := by
  rw [refuse]
  split
  case isTrue h => exact .inr ⟨not_not.mpr h, e, rfl⟩
  case isFalse h => exact .inl ⟨h, rfl⟩

theorem checks_accessok (c : Ctx U) (g : Access.File) : Checks (c.accessok g) (c.Accessible g) (.ok ()) := by
  rw [Ctx.accessok, Ctx.Accessible]
  cases c.ids.dfaccessok g c.uid Access.AWRITE
  case error e => exact .inr ⟨nofun, e, rfl⟩
  case ok => exact .inl ⟨rfl, rfl⟩

-- A field is checked if the message asks for a change of it, and nulled otherwise.
theorem checks_ite {p ok : Prop} [Decidable p] {x r : Except Stop Sd} {b : Sd} (h : p → Checks x ok r) :
    Checks (if p then x else .ok b) (p → ok) (if p then r else .ok b) := by
  split
  case isTrue hp => exact (h hp).congr ⟨fun hok _ => hok, fun hok => hok hp⟩ rfl
  case isFalse hp => exact .inl ⟨fun h => absurd h hp, rfl⟩

theorem checks_enter (c : Ctx U) (f : File) : Checks (c.enter f) (c.Enters f) (.ok ()) := by
  have hmelt : Checks (match c.melt with
      | some e => .error (.error e)
      | none   => refuse (f.mode &&& DMUSERS ≠ 0) "can't wstat the users file")
      (c.melt = none ∧ f.mode &&& DMUSERS = 0) (.ok ()) := by
    cases c.melt
    case some e => exact .inr ⟨nofun, e, rfl⟩
    case none => exact (checks_refuse _ _).congr ⟨fun h => ⟨rfl, not_not.mp h⟩, fun h => not_not.mpr h.right⟩ rfl
  apply Checks.congr
  · exact (checks_refuse _ _).bind <| (checks_refuse _ _).bind <| (checks_refuse _ _).bind hmelt
  · simp only [Ctx.Enters, Bool.not_eq_true]
  · rfl

theorem checks_length (c : Ctx U) (f : File) (sd : Sd) :
    Checks (c.chklength f sd) (c.LengthOk f sd)
      (.ok { sd with length := if AsksLength f sd then sd.length else ~~~0 }) := by
  have h : Checks (c.chklength f sd)
      (AsksLength f sd → ¬f.mode &&& DMDIR ≠ 0 ∧ ¬sd.length ≠ 0 ∧ c.Accessible (access c.kind f) ∧ True)
      (if AsksLength f sd then .ok sd else .ok { sd with length := ~~~0 }) :=
    checks_ite fun _ => (checks_refuse _ _).bind <| (checks_refuse _ _).bind <|
      (checks_accessok _ _).bind <| .pure (.ok sd)
  apply h.congr
  · simp only [Ctx.LengthOk, not_not, and_true]
  · split <;> rfl

theorem checks_owner (c : Ctx U) (f : File) (name : Libc.CStr) : Checks (c.chkowner f name) (c.OwnerOk f name) (.ok ()) := by
  rw [Ctx.chkowner, Ctx.OwnerOk]
  split
  case isTrue hall => exact (Checks.pure (.ok ())).congr ⟨fun _ => .inl hall, fun _ => trivial⟩ rfl
  case isFalse hall =>
    apply ((checks_refuse _ _).bind <| checks_refuse _ _).congr
    · simp only [not_not, hall, Bool.false_eq_true, false_or]
    · rfl

theorem checks_uid (c : Ctx U) (f : File) (sd : Sd) :
    Checks (c.chkuid f sd) (AsksUid f sd → c.OwnerOk f sd.uid)
      (.ok { sd with uid := if AsksUid f sd then sd.uid else noname }) := by
  have h : Checks (c.chkuid f sd) (AsksUid f sd → c.OwnerOk f sd.uid ∧ True)
      (if AsksUid f sd then .ok sd else .ok { sd with uid := noname }) :=
    checks_ite fun _ => (checks_owner c f sd.uid).bind <| .pure (.ok sd)
  apply h.congr
  · simp only [and_true]
  · split <;> rfl

theorem checks_gid (c : Ctx U) (f : File) (sd : Sd) :
    Checks (c.chkgid f sd) (AsksGid f sd → c.OwnerOk f sd.gid)
      (.ok { sd with gid := if AsksGid f sd then sd.gid else noname }) := by
  have h : Checks (c.chkgid f sd) (AsksGid f sd → c.OwnerOk f sd.gid ∧ True)
      (if AsksGid f sd then .ok sd else .ok { sd with gid := noname }) :=
    checks_ite fun _ => (checks_owner c f sd.gid).bind <| .pure (.ok sd)
  apply h.congr
  · simp only [and_true]
  · split <;> rfl

theorem chkmuid_eq (c : Ctx U) (f : File) (sd : Sd) :
    c.chkmuid f sd = .ok { sd with muid := if AsksMuid f sd ∧ c.allowed f.uid = true then sd.muid else noname } := by
  rw [Ctx.chkmuid]
  split
  case isTrue hp =>
    have hasks : AsksMuid f sd := hp
    cases c.allowed f.uid
    case false => simp
    case true => simp [hasks]
  case isFalse hp =>
    have hasks : ¬AsksMuid f sd := hp
    rw [if_neg fun h => hasks h.left]

theorem chkatime_eq (c : Ctx U) (f : File) (sd : Sd) :
    c.chkatime f sd = .ok { sd with atime := if AsksAtime f sd ∧ c.allowed f.uid = true then sd.atime else ~~~0 } := by
  rw [Ctx.chkatime]
  split
  case isTrue hp =>
    have hasks : AsksAtime f sd := hp
    cases c.allowed f.uid
    case false => simp
    case true => simp [hasks]
  case isFalse hp =>
    have hasks : ¬AsksAtime f sd := hp
    rw [if_neg fun h => hasks h.left]

theorem checks_mode (c : Ctx U) (f : File) (sd : Sd) :
    Checks (c.chkmode f sd) (c.ModeOk f sd) (.ok { sd with mode := if AsksMode f sd then sd.mode else ~~~0 }) := by
  have h : Checks (c.chkmode f sd)
      (AsksMode f sd → ¬sd.mode.toUInt64 &&& DMBITS ≠ sd.mode.toUInt64 ∧
        ¬(¬c.allowed f.uid = true ∧ ¬c.owner f = true) ∧
        ¬(sd.mode.toUInt64 &&& DMDIR) ^^^ (f.mode &&& DMDIR) ≠ 0 ∧ True)
      (if AsksMode f sd then .ok sd else .ok { sd with mode := ~~~0 }) :=
    checks_ite fun _ => (checks_refuse _ _).bind <| (checks_refuse _ _).bind <|
      (checks_refuse _ _).bind <| .pure (.ok sd)
  apply h.congr
  · simp only [Ctx.ModeOk, not_and_or, not_not, and_true]
  · split <;> rfl

theorem checks_mtime (c : Ctx U) (f : File) (sd : Sd) :
    Checks (c.chkmtime f sd) (AsksMtime f sd → c.allowed f.uid = true ∨ c.owner f = true)
      (.ok { sd with mtime := if AsksMtime f sd then sd.mtime else ~~~0 }) := by
  have h : Checks (c.chkmtime f sd) (AsksMtime f sd → ¬(¬c.allowed f.uid = true ∧ ¬c.owner f = true) ∧ True)
      (if AsksMtime f sd then .ok sd else .ok { sd with mtime := ~~~0 }) :=
    checks_ite fun _ => (checks_refuse _ _).bind <| .pure (.ok sd)
  apply h.congr
  · simp only [not_and_or, not_not, and_true]
  · split <;> rfl

theorem checks_name (c : Ctx U) (f : File) (sd : Sd) (h : ¬Dies f sd) :
    Checks (c.chkname f sd) (c.NameOk f sd) (.ok { sd with name := if AsksName f sd then sd.name else noname }) := by
  have hname : Checks (c.chkname f sd)
      (AsksName f sd → ¬(c.isro f = true ∨ c.kind = .active) ∧ c.Accessible c.parent ∧ True ∧ True)
      (if AsksName f sd then .ok sd else .ok { sd with name := noname }) := by
    apply checks_ite
    intro hasks
    have hwalk : Ctx.dfwalk f sd = .ok () := if_neg fun hd => h ⟨hasks, hd⟩
    rw [hwalk]
    exact (checks_refuse _ _).bind <| (checks_accessok _ _).bind <| (Checks.pure _).bind <| .pure (.ok sd)
  apply hname.congr
  · simp only [Ctx.NameOk, and_true]
  · split <;> rfl

theorem checks_name_dies (c : Ctx U) (f : File) (sd : Sd) (h : Dies f sd) : Checks (c.chkname f sd) (c.NameOk f sd) (.error .fatal) := by
  have hname : Checks (c.chkname f sd)
      (AsksName f sd → ¬(c.isro f = true ∨ c.kind = .active) ∧ c.Accessible c.parent ∧ True)
      (if AsksName f sd then .error .fatal else .ok { sd with name := noname }) := by
    apply checks_ite
    intro _
    have hwalk : Ctx.dfwalk f sd = .error .fatal := if_pos h.right
    rw [hwalk]
    exact (checks_refuse _ _).bind <| (checks_accessok _ _).bind <| .pure (.error .fatal)
  apply hname.congr
  · simp only [Ctx.NameOk, and_true]
  · exact if_pos h.left

theorem checks_others (c : Ctx U) (f : File) (sd : Sd) :
    Checks (do
        let sd ← c.chkuid f sd
        let sd ← c.chkgid f sd
        let sd ← c.chkmuid f sd
        let sd ← c.chkmode f sd
        let sd ← c.chkatime f sd
        c.chkmtime f sd)
      (c.OthersOk f sd)
      (.ok { c.asked f sd with length := sd.length, name := sd.name }) := by
  have hok : (AsksUid f sd → c.OwnerOk f sd.uid) ∧ (AsksGid f sd → c.OwnerOk f sd.gid) ∧ True ∧ c.ModeOk f sd ∧ True ∧
      (AsksMtime f sd → c.allowed f.uid = true ∨ c.owner f = true) ↔ c.OthersOk f sd :=
    ⟨fun ⟨huid, hgid, _, hmode, _, hmtime⟩ => ⟨huid, hgid, hmode, hmtime⟩,
      fun h => ⟨h.uid, h.gid, trivial, h.mode, trivial, h.mtime⟩⟩
  rw [← hok]
  refine (checks_uid c f sd).bind ?_
  refine (checks_gid c f _).bind ?_
  refine Checks.bind (.inl ⟨trivial, chkmuid_eq c f _⟩) ?_
  refine (checks_mode c f _).bind ?_
  refine Checks.bind (.inl ⟨trivial, chkatime_eq c f _⟩) ?_
  exact checks_mtime c f _

theorem checks_check (c : Ctx U) (h : ¬Dies f sd) :
    Checks (do c.enter f; c.check f sd) (c.Enters f ∧ c.LengthOk f sd ∧ c.NameOk f sd ∧ c.OthersOk f sd)
      (.ok (c.asked f sd)) := by
  refine (checks_enter c f).bind ?_
  refine (checks_length c f sd).bind ?_
  refine (checks_name c f _ ?_).bind ?_
  · exact h
  · apply (checks_others c f _).congr
    · exact ⟨fun h => ⟨h.uid, h.gid, h.mode, h.mtime⟩, fun h => ⟨h.uid, h.gid, h.mode, h.mtime⟩⟩
    · rfl

theorem checks_check_dies (c : Ctx U) (h : Dies f sd) :
    Checks (do c.enter f; c.check f sd) (c.Enters f ∧ c.LengthOk f sd ∧ c.NameOk f sd) (.error .fatal) := by
  refine (checks_enter c f).bind ?_
  refine (checks_length c f sd).bind ?_
  refine (checks_name_dies c f _ ?_).stop
  exact h

end Creepy.Wstat
