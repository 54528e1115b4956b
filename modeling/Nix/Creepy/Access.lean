import Mathlib.Data.List.Basic
import Nix.Lib.Except

-- Who may open a file, and who may walk through it.
namespace Creepy.Access

def AEXEC : BitVec 32 := 1
def AWRITE : BitVec 32 := 2
def AREAD : BitVec 32 := 4

def OREAD : BitVec 32 := 0
def OWRITE : BitVec 32 := 1
def OTRUNC : BitVec 32 := 16
def ORCLOSE : BitVec 32 := 64

def DMDIR : BitVec 64 := 0x80000000
def DMAPPEND : BitVec 64 := 0x40000000
def DMEXCL : BitVec 64 := 0x20000000
def DMUSERS : BitVec 64 := 0x01000000

-- `U` are the pointers to users.
structure Usr (U : Type*) where
  id      : BitVec 32
  allow   : Bool
  lead    : Option U
  members : List U

structure Users (U : Type*) where
  usr    : U → Usr U
  -- those that have an id, in all the chains of the hash
  uids   : List U
  uwrite : Option U
  unique : ∀ u ∈ uids, ∀ u' ∈ uids, (usr u).id = (usr u').id → u = u'

inductive Kind
  | root
  | archive
  | active
  | cons
  | stats
  | file
  deriving DecidableEq

structure File where
  kind  : Kind
  name  : String
  mode  : BitVec 64
  uid   : BitVec 64
  gid   : BitVec 64
  opens : Nat
  deriving DecidableEq

-- The last file of a path, and the directories above it, with the nearest first.
structure Path where
  f    : File
  dirs : List File
  deriving DecidableEq

structure Fid where
  uid      : BitVec 32
  path     : Path
  archived : Bool
  isopen   : Bool

-- The files on the disk. `followmelted` is the most recent version of a file, and `dfmelt` makes one
-- that can be written, with the metadata of the most recent one.
structure Tree where
  followmelted : File → File
  dfmelt       : Path → Path
  dfwalk       : File → String → Option File
  archwalk     : String → Except String File
  melted       : ∀ p, (dfmelt p).f = followmelted p.f

namespace Users

variable {U : Type*} (t : Users U)

def finduid (uid : BitVec 32) : Option U :=
  t.uids.find? fun u => (t.usr u).id = uid

def findmember (u : U) (member : BitVec 32) : Bool :=
  (t.usr u).members.any fun m => (t.usr m).id = member

def member (uid member : BitVec 32) : Bool :=
  uid = member || (t.finduid uid).any fun u =>
    (t.usr u).lead.any (fun l => (t.usr l).id = member) || t.findmember u member

def allowed (uid : BitVec 32) : Bool :=
  (t.finduid uid).any fun u => (t.usr u).allow

def writedenied (uid : BitVec 32) : Bool :=
  t.uwrite.any fun u => !t.findmember u uid

def dfaccessok (f : File) (uid bits : BitVec 32) : Except String Unit :=
  let bits := bits &&& 3
  let mode := (f.mode &&& 0o777).setWidth 32
  if t.allowed uid then .ok ()
  else if mode &&& bits = bits then .ok ()
  else if t.member (f.gid.setWidth 32) uid ∧ (mode >>> 3) &&& bits = bits then .ok ()
  else if f.uid = uid.signExtend 64 ∧ (mode >>> 3 >>> 3) &&& bits = bits then .ok ()
  else .error "permission denied"

end Users

def isro (f : File) : Bool :=
  f.kind = .archive || f.kind = .root || f.kind = .cons || f.kind = .stats

-- A request is refused, if it has to be.
def refuse (c : Prop) [Decidable c] (err : String) : Except String Unit :=
  if c then .error err else .ok ()

-- The access that a file is opened for.
def amode (mode : BitVec 32) : BitVec 32 :=
  (if mode &&& 3 ≠ OREAD ∨ mode &&& OTRUNC ≠ 0 then AWRITE else 0) |||
    (if mode &&& 3 ≠ OWRITE then AREAD else 0)

namespace Path

-- All the files of a path, from the root.
def files (p : Path) : List File :=
  p.dirs.reverse ++ [p.f]

def addelem (p : Path) (f : File) : Path where
  f    := f
  dirs := p.f :: p.dirs

def dropelem (p : Path) : Path :=
  match p.dirs with
  | []        => p
  | d :: dirs => { f := d, dirs := dirs }

end Path

namespace Tree

variable {U : Type*} (d : Tree) (t : Users U)

def dflast (p : Path) : Path where
  f    := d.followmelted p.f
  dirs := p.dirs.map d.followmelted

-- The path of a fid that is opened, and the version of its file that is looked at. For reading it is
-- the one that the fid had before its path is brought up to date.
def openpath (fid : Fid) (mode : BitVec 32) : Path × File :=
  if amode mode = AREAD then (d.dflast fid.path, fid.path.f)
  else if fid.path.f.kind = .cons then (fid.path, fid.path.f)
  else (d.dfmelt fid.path, (d.dfmelt fid.path).f)

-- A file that is removed when it is closed.
def rclose (fid : Fid) (p : Path) (f : File) : Except String Unit := do
  refuse (fid.archived ∨ isro f) "can't remove an archived or built-in file"
  refuse (f.mode &&& DMUSERS ≠ 0) "can't remove /users"
  match p.dirs.head? with
  | some dir => t.dfaccessok dir fid.uid AWRITE
  | none     => return

def fidopen (fid : Fid) (mode : BitVec 32) : Except String Unit := do
  let (p, f) := d.openpath fid mode
  let k := fid.path.f.kind
  refuse fid.isopen "fid already open"
  refuse (mode ≠ OREAD ∧ (k = .root ∨ k = .archive ∨ fid.archived)) "can't write archived or built-in files"
  refuse (mode ≠ OREAD ∧ t.writedenied fid.uid) "user can't write"
  refuse (mode ≠ OREAD ∧ f.kind ≠ .root ∧ p.dirs.head?.any (·.mode &&& DMAPPEND ≠ 0)) "directory is append only"
  refuse (mode ≠ OREAD ∧ f.mode &&& DMDIR ≠ 0) "wrong open mode for a directory"
  t.dfaccessok f fid.uid (amode mode)
  if mode &&& ORCLOSE = 0 then return else rclose t fid p f
  refuse (f.mode &&& DMEXCL ≠ 0 ∧ f.opens ≠ 0 ∧ (f.kind ≠ .cons ∨ amode mode ≠ AWRITE))
    "exclusive use file already open"

-- The loop of `timewalk`, which follows the names of a path in a version of the past.
def walkpast (uid : BitVec 32) (f : File) : List String → Except String File
  | [] => .ok f
  | name :: names => do
    t.dfaccessok f uid AEXEC
    match d.dfwalk f name with
    | some nf => walkpast uid nf names
    | none    => throw "file not found"

def timewalk (p : Path) (wname : String) (uid : BitVec 32) : Except String File := do
  let isarch : Bool := p.files[1]?.any (·.kind = .archive)
  refuse (p.files.length < 2 ∨ isarch ∧ p.files.length < 3) "file not found"
  let af ← d.archwalk wname
  let f ← d.walkpast t uid af <| (p.files.drop <| if isarch then 3 else 2).map File.name
  refuse (f.mode &&& DMDIR = 0) "file not found"
  return f

def fidwalk (fid : Fid) (wname : String) : Except String Path :=
  let p := d.dflast fid.path
  if wname = "." then return p
  else if wname = ".." then return p.dropelem
  else do
    t.dfaccessok p.f fid.uid AEXEC
    match d.dfwalk p.f wname with
    | some nf => return p.addelem nf
    | none =>
      if p.f.kind = .archive then return p.addelem (← d.archwalk wname)
      else if wname.front = '@' ∧ p.f.kind ≠ .cons ∧ p.f.kind ≠ .stats then
        return p.addelem (← d.timewalk t p (wname.drop 1).toString fid.uid)
      else throw "file not found"

end Tree

-- The three parts of a mode, in the order in which they are looked at.
inductive Class
  | other
  | group
  | owner

namespace Class

def bits (f : File) : Class → BitVec 32
  | other => (f.mode &&& 0o777).setWidth 32
  | group => (f.mode &&& 0o777).setWidth 32 >>> 3
  | owner => (f.mode &&& 0o777).setWidth 32 >>> 3 >>> 3

variable {U : Type*}

-- The class is one of those of the user.
def Applies (t : Users U) (f : File) (uid : BitVec 32) : Class → Prop
  | other => True
  | group =>
    f.gid.setWidth 32 = uid ∨ ∃ u ∈ t.uids, (t.usr u).id = f.gid.setWidth 32 ∧
      ((∃ l, (t.usr u).lead = some l ∧ (t.usr l).id = uid) ∨ ∃ m ∈ (t.usr u).members, (t.usr m).id = uid)
  | owner => f.uid = uid.signExtend 64

-- The class has one of the bits, if it is asked for.
def Has (f : File) (bits access : BitVec 32) (c : Class) : Prop :=
  bits &&& access ≠ 0 → c.bits f &&& access ≠ 0

end Class

section

variable {U : Type*} (t : Users U)

-- Permissions are not checked for the user.
def Allowed (uid : BitVec 32) : Prop :=
  ∃ u ∈ t.uids, (t.usr u).id = uid ∧ (t.usr u).allow

def Granted (f : File) (uid bits : BitVec 32) : Prop :=
  Allowed t uid ∨
    ∃ c : Class, c.Applies t f uid ∧ c.Has f bits AREAD ∧ c.Has f bits AWRITE ∧ c.Has f bits AEXEC

-- Reading is asked for along with what a class of the user has, and none of them has all of it.
def Missed (f : File) (uid bits : BitVec 32) : Prop :=
  bits &&& AREAD ≠ 0 ∧ ¬Granted t f uid bits ∧
    ∃ c : Class, c.Applies t f uid ∧ c.Has f bits AWRITE ∧ c.Has f bits AEXEC

end

section

variable {U : Type*} {t : Users U}

theorem and_twoPow_ne_zero {x : BitVec 32} {i : Nat} (hi : i < 32) :
    x &&& BitVec.twoPow 32 i ≠ 0 ↔ x.getLsbD i := by
  rw [BitVec.and_twoPow]
  cases x.getLsbD i
  case false => simp
  case true =>
    have : BitVec.twoPow 32 i ≠ 0 := fun h => by
      have := congrArg (fun x => x.getLsbD i) h
      simp [hi] at this
    simpa using this

theorem and_bits_eq {x bits : BitVec 32} :
    x &&& (bits &&& 3) = bits &&& 3 ↔
      (bits &&& AWRITE ≠ 0 → x &&& AWRITE ≠ 0) ∧ (bits &&& AEXEC ≠ 0 → x &&& AEXEC ≠ 0) := by
  have hw : AWRITE = BitVec.twoPow 32 1 := by decide
  have he : AEXEC = BitVec.twoPow 32 0 := by decide
  have h3 i : (3 : BitVec 32).getLsbD i = decide (i < 2) := by
    have : (3 : BitVec 32) = BitVec.twoPow 32 0 ||| BitVec.twoPow 32 1 := by decide
    rw [this, BitVec.getLsbD_or, BitVec.getLsbD_twoPow, BitVec.getLsbD_twoPow, Bool.eq_iff_iff]
    simp
    omega
  rw [hw, he]
  simp only [and_twoPow_ne_zero (show 1 < 32 by decide), and_twoPow_ne_zero (show 0 < 32 by decide)]
  constructor
  case mp =>
    intro h
    have hbit i : i < 2 → bits.getLsbD i → x.getLsbD i := fun hi hb => by
      have := congrArg (fun y => y.getLsbD i) h
      simp only [BitVec.getLsbD_and, h3, hi, hb, decide_true, Bool.and_true] at this
      exact this
    exact ⟨hbit 1 (by decide), hbit 0 (by decide)⟩
  case mpr =>
    intro ⟨h₁, h₀⟩
    refine BitVec.eq_of_getLsbD_eq fun i _ => ?_
    simp only [BitVec.getLsbD_and, h3]
    match i with
    | 0     => cases hb : bits.getLsbD 0 <;> simp_all
    | 1     => cases hb : bits.getLsbD 1 <;> simp_all
    | i + 2 => simp [show ¬i + 2 < 2 by omega]

theorem finduid_eq_some {u : U} {uid : BitVec 32} : t.finduid uid = some u ↔ u ∈ t.uids ∧ (t.usr u).id = uid := by
  rw [Users.finduid]
  constructor
  case mp =>
    intro h
    exact ⟨List.mem_of_find?_eq_some h, by simpa using List.find?_some h⟩
  case mpr =>
    intro ⟨hu, hid⟩
    have hsome : (t.uids.find? fun u => (t.usr u).id = uid).isSome :=
      List.find?_isSome.mpr ⟨u, hu, decide_eq_true hid⟩
    obtain ⟨u', hu'⟩ := Option.isSome_iff_exists.mp hsome
    have hid' : (t.usr u').id = uid := of_decide_eq_true (List.find?_some hu' :)
    rw [hu', t.unique u' (List.mem_of_find?_eq_some hu') u hu (hid'.trans hid.symm)]

theorem allowed_iff : t.allowed uid ↔ Allowed t uid := by
  simp [Users.allowed, Allowed, Option.any_eq_true, finduid_eq_some, and_assoc]

theorem member_iff {f : File} : t.member (f.gid.setWidth 32) uid ↔ Class.group.Applies t f uid := by
  simp [Users.member, Class.Applies, Option.any_eq_true, finduid_eq_some, Users.findmember, and_assoc]

theorem exists_class {p : Class → Prop} : (∃ c, p c) ↔ p .other ∨ p .group ∨ p .owner := by
  constructor
  · rintro ⟨_ | _ | _, h⟩
    · exact .inl h
    · exact .inr <| .inl h
    · exact .inr <| .inr h
  · rintro (h | h | h) <;> exact ⟨_, h⟩

theorem ite_ok_iff {c : Prop} [Decidable c] {x : Except String Unit} :
    (if c then .ok () else x) = .ok () ↔ c ∨ x = .ok () := by
  split
  case isTrue h => exact iff_of_true rfl <| .inl h
  case isFalse h => rw [or_iff_right h]

theorem dfaccessok_eq_ok_iff {f : File} :
    t.dfaccessok f uid bits = .ok () ↔
      Allowed t uid ∨ ∃ c : Class, c.Applies t f uid ∧ c.Has f bits AWRITE ∧ c.Has f bits AEXEC := by
  rw [Users.dfaccessok, ite_ok_iff, ite_ok_iff, ite_ok_iff, ite_ok_iff, exists_class, allowed_iff, member_iff]
  simp only [and_bits_eq, Class.Applies, Class.Has, Class.bits, true_and, reduceCtorEq, or_false]

theorem Granted.dfaccessok {f : File} (h : Granted t f uid bits) : t.dfaccessok f uid bits = .ok () := by
  rw [dfaccessok_eq_ok_iff]
  rcases h with h | ⟨c, hc, -, hw, he⟩
  · exact .inl h
  · exact .inr ⟨c, hc, hw, he⟩

theorem granted_iff_of_dfaccessok {f : File} (h : t.dfaccessok f uid bits = .ok ()) :
    Granted t f uid bits ↔ ¬Missed t f uid bits := by
  constructor
  case mp => exact fun hg hm => hm.right.left hg
  case mpr =>
    intro hm
    rcases dfaccessok_eq_ok_iff.mp h with ha | ⟨c, hc, hw, he⟩
    · exact .inl ha
    · refine Classical.byContradiction fun hg => hm ⟨fun hr => hg ?_, hg, c, hc, hw, he⟩
      exact .inr ⟨c, hc, fun hne => (hne hr).elim, hw, he⟩

theorem dfaccessok_iff_granted_iff {f : File} :
    (t.dfaccessok f uid bits = .ok () ↔ Granted t f uid bits) ↔ ¬Missed t f uid bits := by
  constructor
  case mp =>
    intro h ⟨_, hg, hc⟩
    exact hg <| h.mp <| dfaccessok_eq_ok_iff.mpr <| .inr hc
  case mpr =>
    exact fun h => ⟨fun hok => (granted_iff_of_dfaccessok hok).mpr h, Granted.dfaccessok⟩

theorem granted_exec_of_dfaccessok {f : File} (h : t.dfaccessok f uid AEXEC = .ok ()) : Granted t f uid AEXEC :=
  (granted_iff_of_dfaccessok h).mpr fun hm => hm.left <| by decide

end

namespace Tree

variable {U : Type*} {d : Tree} {t : Users U}

theorem openpath_snd (h : d.followmelted fid.path.f = fid.path.f) : (d.openpath fid mode).snd = fid.path.f := by
  rw [openpath]
  split
  · rfl
  · split
    · rfl
    · rw [d.melted, h]

theorem fidopen_dfaccessok (h : d.fidopen t fid mode = .ok ()) :
    t.dfaccessok (d.openpath fid mode).snd fid.uid (amode mode) = .ok () := by
  -- the checks before it
  iterate 5 obtain ⟨_, -, h⟩ := Except.bind_eq_ok_iff.mp h
  obtain ⟨_, hok, -⟩ := Except.bind_eq_ok_iff.mp h
  exact hok

-- The directories that the loop of `timewalk` goes through.
def crossed (d : Tree) (f : File) : List String → List File
  | [] => []
  | name :: names =>
    match d.dfwalk f name with
    | some nf => f :: d.crossed nf names
    | none    => [f]

theorem walkpast_granted (h : d.walkpast t uid f names = .ok f') : ∀ dir ∈ d.crossed f names, Granted t dir uid AEXEC := by
  induction names generalizing f
  case nil => exact nofun
  case cons name names ih =>
    obtain ⟨_, hok, h⟩ := Except.bind_eq_ok_iff.mp h
    have hf := granted_exec_of_dfaccessok hok
    cases hnf : d.dfwalk f name <;> rw [hnf] at h
    case none => contradiction
    case some nf =>
      rw [crossed, hnf, List.forall_mem_cons]
      exact ⟨hf, ih h⟩

theorem fidwalk_granted (h : d.fidwalk t fid wname = .ok p) (hdot : wname ≠ ".") (hdd : wname ≠ "..") :
    Granted t (d.followmelted fid.path.f) fid.uid AEXEC := by
  simp only [fidwalk, if_neg hdot, if_neg hdd] at h
  obtain ⟨_, hok, -⟩ := Except.bind_eq_ok_iff.mp h
  exact granted_exec_of_dfaccessok hok

end Tree

-- There is nobody with special rights.
def nobody : Users Unit where
  usr _  := { id := 1, allow := false, lead := none, members := [] }
  uids   := []
  uwrite := none
  unique := nofun

-- A file that is all its owner's.
def secret : File where
  kind  := .file
  name  := "secret"
  mode  := 0o600
  uid   := 1
  gid   := 1
  opens := 0

def still : Tree where
  followmelted := id
  dfmelt p     := p
  dfwalk _ _   := none
  archwalk _   := .error "file not found"
  melted _     := rfl

def fidof (uid : BitVec 32) : Fid where
  uid      := uid
  path     := { f := secret, dirs := [] }
  archived := false
  isopen   := false

end Creepy.Access
