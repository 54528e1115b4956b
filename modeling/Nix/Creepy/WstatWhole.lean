import Nix.Creepy.WstatWrites

namespace Creepy.Wstat

open Attr (File DMDIR DMUSERS)

variable {U : Type*} {c : Ctx U} {f g : File} {sd : Sd}

-- What is shown of a file is what a message has for it, where it has something. What it has for `muid` and `atime` is
-- ignored unless the user is allowed to change them.
structure Applied (c : Ctx U) (f : File) (sd : Sd) (st : Shown) : Prop where
  name   : sd.name.bytes ≠ [] → st.name = sd.name.bytes
  uid    : sd.uid.bytes ≠ [] → st.uid = sd.uid.bytes
  gid    : sd.gid.bytes ≠ [] → st.gid = sd.gid.bytes
  muid   : c.allowed f.uid = true → sd.muid.bytes ≠ [] → st.muid = sd.muid.bytes
  mode   : sd.mode ≠ ~~~0 → st.mode = sd.mode
  atime  : c.allowed f.uid = true → sd.atime ≠ ~~~0 → st.atime = sd.atime
  mtime  : sd.mtime ≠ ~~~0 → st.mtime = sd.mtime
  length : sd.length ≠ ~~~0 → st.length = sd.length

-- What a successful request is to have done. A new owner or group is that of a user, and a new name is not that of
-- another file.
structure Done (c : Ctx U) (f : File) (sd : Sd) (g : File) : Prop where
  applied : Applied c f sd (pack9dir g)
  uid     : AsksUid f sd → 0 ≤ c.usrid sd.uid
  gid     : AsksGid f sd → 0 ≤ c.usrid sd.gid
  name    : AsksName f sd → sd.name.bytes ∉ c.siblings

def AllOrNothing (c : Ctx U) (f : File) (sd : Option Sd) : Prop :=
  Judge f (fun g => ∀ s ∈ sd, Done c f s g) (rwstat c f sd)

namespace Ctx

variable (c : Ctx U) (f : File) (sd : Sd)

-- No name of a user is to change in memory, the time is shown as it is written, the length is not that of a directory
-- that has one, and nobody has the name.
structure Plain : Prop where
  uid    : ¬AsksUid f sd
  gid    : ¬AsksGid f sd
  muid   : c.allowed f.uid = true → ¬AsksMuid f sd
  mtime  : sd.mtime ≠ ~~~0 → sd.mtime = 0
  length : f.mode &&& DMDIR ≠ 0 → sd.length ≠ ~~~0 → sd.length = 0
  name   : AsksName f sd → sd.name.bytes ∉ c.siblings

def NameRefused : Prop :=
  AsksName f sd ∧ sd.name.bytes.length + 1 > f.embedattrsz

def UidRefused : Prop :=
  AsksUid f sd ∧ c.usrid sd.uid < 0

def GidRefused : Prop :=
  AsksGid f sd ∧ c.usrid sd.gid < 0

def MuidRefused : Prop :=
  (AsksMuid f sd ∧ c.allowed f.uid = true) ∧ c.usrid sd.muid < 0

-- The writes are made in this order. The disk is not full when one is made, and if one is refused those before it have
-- left what was there.
def Lands : Prop :=
  (AsksLength f sd → c.full "length" = false) ∧ (AsksName f sd → c.full "name" = false) ∧
  (NameRefused f sd → ¬AsksLength f sd) ∧
  (¬NameRefused f sd →
    (AsksUid f sd → c.full "uid" = false) ∧
    (c.UidRefused f sd → ¬AsksLength f sd ∧ ¬AsksName f sd) ∧
    (¬c.UidRefused f sd →
      (AsksGid f sd → c.full "gid" = false) ∧
      (c.GidRefused f sd → ¬AsksLength f sd ∧ ¬AsksName f sd ∧ (AsksUid f sd → idof c sd.uid = f.uid)) ∧
      (¬c.GidRefused f sd →
        (AsksMuid f sd ∧ c.allowed f.uid = true → c.full "muid" = false) ∧
        (c.MuidRefused f sd → ¬AsksLength f sd ∧ ¬AsksName f sd ∧ (AsksUid f sd → idof c sd.uid = f.uid) ∧
          (AsksGid f sd → idof c sd.gid = f.gid)) ∧
        (¬c.MuidRefused f sd →
          (AsksMode f sd → c.full "mode" = false) ∧
          (AsksAtime f sd ∧ c.allowed f.uid = true → c.full "atime" = false) ∧
          (AsksMtime f sd → c.full "mtime" = false) ∧ c.Plain f sd))))

-- A check is not met, or the request is one that lands.
def Whole : Prop :=
  c.Enters f → c.LengthOk f sd → c.NameOk f sd → ¬Dies f sd ∧ (c.OthersOk f sd → c.Lands f sd)

end Ctx

-- The file after each of the writes, in their order, as far as they are asked for and not refused.
section

variable (c : Ctx U) (f : File) (sd : Sd)

def afterlength : File :=
  if AsksLength f sd then { f with length := 0 } else f

def aftername : File :=
  if AsksName f sd then
    { afterlength f sd with
      mf.name := sd.name.bytes
      embed   := overwrite (afterlength f sd).embed 0 (sd.name.bytes ++ [0]) }
  else afterlength f sd

def afteruid : File :=
  if AsksUid f sd then { aftername f sd with uid := idof c sd.uid } else aftername f sd

def aftergid : File :=
  if AsksGid f sd then { afteruid c f sd with gid := idof c sd.gid } else afteruid c f sd

def aftermuid : File :=
  if AsksMuid f sd ∧ c.allowed f.uid = true then { aftergid c f sd with uid := idof c sd.muid } else aftergid c f sd

def aftermode : File :=
  if AsksMode f sd then
    { aftermuid c f sd with mode := sd.mode.toUInt64 ||| ((aftermuid c f sd).mode &&& DMUSERS) }
  else aftermuid c f sd

def afteratime : File :=
  if AsksAtime f sd ∧ c.allowed f.uid = true then { aftermode c f sd with atime := sd.atime.toUInt64 }
  else aftermode c f sd

def aftermtime : File :=
  if AsksMtime f sd then { afteratime c f sd with mtime := sd.mtime.toUInt64 } else afteratime c f sd

end

theorem attrs_afterlength (hlen : c.LengthOk f sd) : attrs (afterlength f sd) = attrs f ↔ ¬AsksLength f sd := by
  rw [afterlength]
  split
  case isTrue h =>
    refine iff_of_false (fun he => ?_) (not_not.mpr h)
    have hzero : 0 = f.length := congrArg Attrs.length he
    exact h.right ((hlen h).right.left.trans hzero)
  case isFalse h => exact iff_of_true rfl h

theorem attrs_aftername (hlen : c.LengthOk f sd) :
    attrs (aftername f sd) = attrs f ↔ ¬AsksLength f sd ∧ ¬AsksName f sd := by
  rw [aftername]
  split
  case isTrue h =>
    refine iff_of_false (fun he => ?_) fun hn => hn.right h
    have hname : sd.name.bytes = f.mf.name := congrArg (fun a => a.mf.name) he
    exact h.right hname.symm
  case isFalse h => rw [attrs_afterlength hlen, and_iff_left h]

theorem afterlength_same :
    (afterlength f sd).uid = f.uid ∧ (afterlength f sd).gid = f.gid ∧ (afterlength f sd).embedattrsz = f.embedattrsz := by
  rw [afterlength]
  split
  · exact ⟨rfl, rfl, rfl⟩
  · exact ⟨rfl, rfl, rfl⟩

theorem aftername_uid : (aftername f sd).uid = f.uid := by
  rw [aftername]
  split
  · exact afterlength_same.left
  · exact afterlength_same.left

theorem afteruid_gid : (afteruid c f sd).gid = f.gid := by
  have hname : (aftername f sd).gid = f.gid := by
    rw [aftername]
    split
    · exact afterlength_same.right.left
    · exact afterlength_same.right.left
  rw [afteruid]
  split
  · exact hname
  · exact hname

theorem attrs_uid {v : UInt64} (h : g.uid = f.uid) : attrs { g with uid := v } = attrs f ↔ attrs g = attrs f ∧ v = f.uid := by
  simp only [attrs, Attrs.mk.injEq, h, true_and]
  grind

theorem attrs_gid {v : UInt64} (h : g.gid = f.gid) : attrs { g with gid := v } = attrs f ↔ attrs g = attrs f ∧ v = f.gid := by
  simp only [attrs, Attrs.mk.injEq, h, true_and]
  grind

theorem attrs_afteruid (hlen : c.LengthOk f sd) :
    attrs (afteruid c f sd) = attrs f ↔
      ¬AsksLength f sd ∧ ¬AsksName f sd ∧ (AsksUid f sd → idof c sd.uid = f.uid) := by
  rw [← and_assoc, ← attrs_aftername hlen, afteruid]
  split
  case isTrue h => rw [attrs_uid aftername_uid, imp_iff_right h]
  case isFalse h => exact (and_iff_left fun hu => absurd hu h).symm

theorem attrs_aftergid (hlen : c.LengthOk f sd) :
    attrs (aftergid c f sd) = attrs f ↔
      ¬AsksLength f sd ∧ ¬AsksName f sd ∧ (AsksUid f sd → idof c sd.uid = f.uid) ∧
        (AsksGid f sd → idof c sd.gid = f.gid) := by
  have hsplit : (¬AsksLength f sd ∧ ¬AsksName f sd ∧ (AsksUid f sd → idof c sd.uid = f.uid) ∧
      (AsksGid f sd → idof c sd.gid = f.gid)) ↔
      attrs (afteruid c f sd) = attrs f ∧ (AsksGid f sd → idof c sd.gid = f.gid) := by
    rw [attrs_afteruid hlen, and_assoc, and_assoc]
  rw [hsplit, aftergid]
  split
  case isTrue h => rw [attrs_gid afteruid_gid, imp_iff_right h]
  case isFalse h => exact (and_iff_left fun hu => absurd hu h).symm

-- The attributes that are shown, as the writes leave them.
structure Fields where
  mf     : Attr.Mfile
  mode   : UInt64
  atime  : UInt64
  mtime  : UInt64
  length : UInt64

def fields (f : File) : Fields where
  mf     := f.mf
  mode   := f.mode
  atime  := f.atime
  mtime  := f.mtime
  length := f.length

theorem fields_afterlength :
    fields (afterlength f sd) = { fields f with length := if AsksLength f sd then 0 else f.length } := by
  rw [afterlength]
  split <;> rfl

theorem fields_aftername :
    fields (aftername f sd) = { fields (afterlength f sd) with
      mf := if AsksName f sd then { (fields (afterlength f sd)).mf with name := sd.name.bytes }
        else (fields (afterlength f sd)).mf } := by
  rw [aftername]
  split <;> rfl

theorem fields_aftermuid : fields (aftermuid c f sd) = fields (aftername f sd) := by
  have huid : fields (afteruid c f sd) = fields (aftername f sd) := by rw [afteruid]; split <;> rfl
  have hgid : fields (aftergid c f sd) = fields (afteruid c f sd) := by rw [aftergid]; split <;> rfl
  have hmuid : fields (aftermuid c f sd) = fields (aftergid c f sd) := by rw [aftermuid]; split <;> rfl
  rw [hmuid, hgid, huid]

theorem fields_aftermode :
    fields (aftermode c f sd) = { fields (aftermuid c f sd) with
      mode := if AsksMode f sd then sd.mode.toUInt64 ||| ((fields (aftermuid c f sd)).mode &&& DMUSERS)
        else (fields (aftermuid c f sd)).mode } := by
  rw [aftermode]
  split <;> rfl

theorem fields_afteratime :
    fields (afteratime c f sd) = { fields (aftermode c f sd) with
      atime := if AsksAtime f sd ∧ c.allowed f.uid = true then sd.atime.toUInt64 else (fields (aftermode c f sd)).atime } := by
  rw [afteratime]
  split <;> rfl

theorem fields_aftermtime :
    fields (aftermtime c f sd) = { fields (afteratime c f sd) with
      mtime := if AsksMtime f sd then sd.mtime.toUInt64 else (fields (afteratime c f sd)).mtime } := by
  rw [aftermtime]
  split <;> rfl

theorem fields_eq (h : f.mode &&& DMUSERS = 0) :
    fields (aftermtime c f sd) =
      { mf     := if AsksName f sd then { f.mf with name := sd.name.bytes } else f.mf
        mode   := if AsksMode f sd then sd.mode.toUInt64 else f.mode
        atime  := if AsksAtime f sd ∧ c.allowed f.uid = true then sd.atime.toUInt64 else f.atime
        mtime  := if AsksMtime f sd then sd.mtime.toUInt64 else f.mtime
        length := if AsksLength f sd then 0 else f.length } := by
  have hmode : sd.mode.toUInt64 ||| (f.mode &&& DMUSERS) = sd.mode.toUInt64 := by rw [h, UInt64.or_zero]
  rw [fields_aftermtime, fields_afteratime, fields_aftermode, fields_aftermuid, fields_aftername, fields_afterlength]
  simp only [fields, hmode]

theorem seconds_iff (v : UInt32) : (v.toUInt64 / NSPERSEC).toUInt32 = v ↔ v = 0 := by
  have hlt := v.toNat_lt
  rw [← UInt32.toNat_inj, ← UInt32.toNat_inj]
  have hdiv : (v.toUInt64 / NSPERSEC).toUInt32.toNat = v.toNat / 1000000000 := by
    have hns : NSPERSEC.toNat = 1000000000 := rfl
    rw [UInt64.toNat_toUInt32, UInt64.toNat_div, hns, UInt32.toNat_toUInt64]
    omega
  rw [hdiv, UInt32.toNat_zero]
  omega

theorem dir_eq (hmode : c.ModeOk f sd) :
    (if AsksMode f sd then sd.mode.toUInt64 else f.mode) &&& DMDIR = f.mode &&& DMDIR := by
  split
  case isTrue h => exact UInt64.xor_eq_zero_iff.mp (hmode h).right.right
  case isFalse => rfl

-- What is shown in the end is what was asked for exactly if the request is a plain one.
theorem applied_iff (hdm : f.mode &&& DMUSERS = 0) (hlen : c.LengthOk f sd) (hmode : c.ModeOk f sd) :
    Applied c f sd (pack9dir (aftermtime c f sd)) ↔
      (¬AsksUid f sd ∧ ¬AsksGid f sd ∧ (c.allowed f.uid = true → ¬AsksMuid f sd)) ∧
      (sd.mtime ≠ ~~~0 → sd.mtime = 0) ∧ (f.mode &&& DMDIR ≠ 0 → sd.length ≠ ~~~0 → sd.length = 0) := by
  have hf : fields (aftermtime c f sd) = _ := fields_eq hdm
  have hmf : (aftermtime c f sd).mf = if AsksName f sd then { f.mf with name := sd.name.bytes } else f.mf :=
    congrArg Fields.mf hf
  have hmd : (aftermtime c f sd).mode = if AsksMode f sd then sd.mode.toUInt64 else f.mode := congrArg Fields.mode hf
  have hat : (aftermtime c f sd).atime =
      if AsksAtime f sd ∧ c.allowed f.uid = true then sd.atime.toUInt64 else f.atime := congrArg Fields.atime hf
  have hmt : (aftermtime c f sd).mtime = if AsksMtime f sd then sd.mtime.toUInt64 else f.mtime :=
    congrArg Fields.mtime hf
  have hln : (aftermtime c f sd).length = if AsksLength f sd then 0 else f.length := congrArg Fields.length hf
  have hnames : (aftermtime c f sd).mf.uid = f.mf.uid ∧ (aftermtime c f sd).mf.gid = f.mf.gid ∧
      (aftermtime c f sd).mf.muid = f.mf.muid := by
    rw [hmf]
    split <;> exact ⟨rfl, rfl, rfl⟩
  have hmtime (hset : sd.mtime ≠ ~~~0) : (aftermtime c f sd).mtime = sd.mtime.toUInt64 := by
    rw [hmt]
    split
    case isTrue => rfl
    case isFalse h => exact not_not.mp fun hne => h ⟨hset, hne⟩
  have hdir : (aftermtime c f sd).mode &&& DMDIR = f.mode &&& DMDIR := hmd ▸ dir_eq hmode
  constructor
  case mp =>
    intro h
    refine ⟨⟨fun hu => hu.right ?uid, fun hg => hg.right ?gid, fun hall hm => hm.right ?muid⟩, fun hset => ?mtime,
      fun hd hset => ?length⟩
    case uid => exact (h.uid hu.left).symm.trans hnames.left
    case gid => exact (h.gid hg.left).symm.trans hnames.right.left
    case muid => exact (h.muid hall hm.left).symm.trans hnames.right.right
    case mtime => exact (seconds_iff _).mp (hmtime hset ▸ h.mtime hset)
    case length =>
      have hshown : (if (aftermtime c f sd).mode &&& DMDIR ≠ 0 then 0 else (aftermtime c f sd).length) = sd.length :=
        h.length hset
      rw [hdir, if_pos hd] at hshown
      exact hshown.symm
  case mpr =>
    intro ⟨⟨huid, hgid, hmuid⟩, hzero, hlength⟩
    constructor
    case name =>
      intro hset
      change (aftermtime c f sd).mf.name = sd.name.bytes
      rw [hmf]
      split
      case isTrue => rfl
      case isFalse h => exact not_not.mp fun hne => h ⟨hset, hne⟩
    case uid => exact fun hset => hnames.left.trans (not_not.mp fun hne => huid ⟨hset, Ne.symm hne⟩)
    case gid => exact fun hset => hnames.right.left.trans (not_not.mp fun hne => hgid ⟨hset, Ne.symm hne⟩)
    case muid =>
      intro hall hset
      exact hnames.right.right.trans (not_not.mp fun hne => hmuid hall ⟨hset, Ne.symm hne⟩)
    case mode =>
      intro hset
      change (aftermtime c f sd).mode.toUInt32 = sd.mode
      have hmode64 : (aftermtime c f sd).mode = sd.mode.toUInt64 := by
        rw [hmd]
        split
        case isTrue => rfl
        case isFalse h => exact not_not.mp fun hne => h ⟨hset, hne⟩
      rw [hmode64, UInt32.toUInt32_toUInt64]
    case atime =>
      intro hall hset
      change (aftermtime c f sd).atime.toUInt32 = sd.atime
      have hatime : (aftermtime c f sd).atime = sd.atime.toUInt64 := by
        rw [hat]
        split
        case isTrue => rfl
        case isFalse h => exact not_not.mp fun hne => h ⟨⟨hset, hne⟩, hall⟩
      rw [hatime, UInt32.toUInt32_toUInt64]
    case mtime =>
      intro hset
      change ((aftermtime c f sd).mtime / NSPERSEC).toUInt32 = sd.mtime
      rw [hmtime hset]
      exact (seconds_iff _).mpr (hzero hset)
    case length =>
      intro hset
      change (if (aftermtime c f sd).mode &&& DMDIR ≠ 0 then 0 else (aftermtime c f sd).length) = sd.length
      rw [hdir]
      split
      case isTrue hd => exact (hlength hd hset).symm
      case isFalse =>
        rw [hln]
        split
        case isTrue hasks => exact (hlen hasks).right.left.symm
        case isFalse hasks => exact (not_not.mp fun hne => hasks ⟨hset, hne⟩).symm

theorem done_iff (hdm : f.mode &&& DMUSERS = 0) (hlen : c.LengthOk f sd) (hmode : c.ModeOk f sd) :
    Done c f sd (aftermtime c f sd) ↔ c.Plain f sd := by
  constructor
  case mp =>
    intro h
    obtain ⟨⟨huid, hgid, hmuid⟩, hmtime, hlength⟩ := (applied_iff hdm hlen hmode).mp h.applied
    exact ⟨huid, hgid, hmuid, hmtime, hlength, h.name⟩
  case mpr =>
    intro h
    have happlied := (applied_iff hdm hlen hmode).mpr ⟨⟨h.uid, h.gid, h.muid⟩, h.mtime, h.length⟩
    exact ⟨happlied, fun hu => absurd hu h.uid, fun hg => absurd hg h.gid, h.name⟩

theorem lands_iff (hdm : f.mode &&& DMUSERS = 0) (hlen : c.LengthOk f sd) (hmode : c.ModeOk f sd) :
    Judge f (Done c f sd) (wattrs c (writes (c.asked f sd)) f) ↔ c.Lands f sd := by
  have hlength : AsksLength f sd → Writes c.names f "length" (wstatint sd.length) False { f with length := 0 } := by
    intro h
    rw [(hlen h).right.left]
    exact writes_length (hlen h).left
  have hname := writes_name (t := c.names) (g := afterlength f sd) sd.name
  rw [afterlength_same.right.right] at hname
  rw [writes_asked, judge_accepted hlength (show afterlength f sd = _ from rfl)]
  rw [judge_wanted (fun _ => hname) (show aftername f sd = _ from rfl), attrs_afterlength hlen]
  rw [judge_wanted (fun _ => writes_uid sd.uid) (show afteruid c f sd = _ from rfl), attrs_aftername hlen]
  rw [judge_wanted (fun _ => writes_gid sd.gid) (show aftergid c f sd = _ from rfl), attrs_afteruid hlen]
  rw [judge_wanted (fun _ => writes_muid sd.muid) (show aftermuid c f sd = _ from rfl), attrs_aftergid hlen]
  rw [judge_accepted (fun _ => writes_mode sd.mode.toUInt64) (show aftermode c f sd = _ from rfl)]
  rw [judge_accepted (fun _ => writes_atime sd.atime.toUInt64) (show afteratime c f sd = _ from rfl)]
  rw [judge_accepted (fun _ => writes_mtime sd.mtime.toUInt64) (show aftermtime c f sd = _ from rfl)]
  rw [wattrs, Judge, done_iff hdm hlen hmode]
  exact Iff.rfl

theorem judge_error {o : Outcome} {P : File → Prop} {e : String} (h : o.snd = .error (.error e)) :
    Judge f P o ↔ attrs o.fst = attrs f := by
  obtain ⟨g, r⟩ := o
  cases h
  rfl

theorem judge_ok {o : Outcome} {P : File → Prop} (h : o.snd = .ok ()) : Judge f P o ↔ P o.fst := by
  obtain ⟨g, r⟩ := o
  cases h
  rfl

-- A request is served as a whole, or leaves the attributes alone, exactly in these cases.
theorem wstat_whole (c : Ctx U) (f : File) (sd : Option Sd) : AllOrNothing c f sd ↔ ∀ s ∈ sd, c.Whole f s := by
  cases sd
  case none => exact iff_of_true rfl nofun
  case some sd =>
    have hdone : (fun g => ∀ s ∈ some sd, Done c f s g) = Done c f sd := by
      funext g
      simp only [Option.mem_some_iff, forall_eq']
    rw [AllOrNothing, hdone, rwstat]
    simp only [Option.mem_some_iff, forall_eq']
    by_cases hd : Dies f sd
    case pos =>
      rcases checks_check_dies c hd with ⟨⟨henter, hlen, hname⟩, he⟩ | ⟨hno, e, he⟩
      · simp only [he]
        exact iff_of_false id fun h => (h henter hlen hname).left hd
      · simp only [he]
        exact iff_of_true rfl fun henter hlen hname => absurd ⟨henter, hlen, hname⟩ hno
    case neg =>
      rcases checks_check c hd with ⟨⟨henter, hlen, hname, hothers⟩, he⟩ | ⟨hno, e, he⟩
      · simp only [he]
        rw [lands_iff henter.right.right.right.right hlen hothers.mode]
        exact ⟨fun h _ _ _ => ⟨hd, fun _ => h⟩, fun h => (h henter hlen hname).right hothers⟩
      · simp only [he]
        exact iff_of_true rfl fun henter hlen hname =>
          ⟨hd, fun hothers => absurd ⟨henter, hlen, hname, hothers⟩ hno⟩

-- A user who may do anything, and a directory that is its own.
def rob : Ctx Unit where
  ids      := { usr := fun _ => ⟨1, true, none, []⟩, uids := [()], uwrite := none, unique := fun _ _ _ _ _ => rfl }
  names    := Attr.rob
  uid      := 1
  auth     := false
  archived := false
  kind     := .file
  parent   := access .file (Attr.blank DMDIR)
  siblings := [Cfg.bytes "h"]
  melt     := none
  full     := fun _ => false

def dir : File :=
  { Attr.blank DMDIR with uid := 1 }

-- A message with a name and a group.
def rename (name gid : Libc.CStr) : Sd where
  type   := ~~~0
  dev    := ~~~0
  qid    := ⟨~~~0, ~~~0, ~~~0⟩
  mode   := ~~~0
  atime  := ~~~0
  mtime  := ~~~0
  length := ~~~0
  name   := name
  uid    := noname
  gid    := gid
  muid   := noname

def nobody : Libc.CStr := ⟨Cfg.bytes "nobody", by decide⟩
def other : Libc.CStr := ⟨Cfg.bytes "h", by decide⟩

-- The name is changed, and then there is no such group; the name of another file is taken; the search of a file that is
-- no directory is the end of the process.
theorem wstat_halfway :
    ¬AllOrNothing rob dir (some (rename other nobody)) ∧ ¬AllOrNothing rob dir (some (rename other noname)) ∧
      ¬AllOrNothing rob { dir with mode := 0 } (some (rename other noname)) := by
  refine ⟨fun hall => ?halfway, fun hall => ?taken, fun hall => hall⟩
  case halfway =>
    have herr : (rwstat rob dir (some (rename other nobody))).snd = .error (.error "unknown user 'nobody'") := by decide +kernel
    have hname := congrArg (fun a => a.mf.name) ((judge_error herr).mp hall)
    exact absurd hname (by decide +kernel)
  case taken =>
    have hok : (rwstat rob dir (some (rename other noname))).snd = .ok () := by decide +kernel
    have hdone := (judge_ok hok).mp hall (rename other noname) rfl
    exact hdone.name (by decide +kernel) (by decide +kernel)

end Creepy.Wstat
