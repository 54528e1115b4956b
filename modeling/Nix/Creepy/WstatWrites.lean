import Nix.Creepy.Wstat

namespace Creepy.Wstat

open Attr (File DMDIR DMUSERS dfwattr dfwattr_attr u64 cstr ended)
open LittleEndian (encode)

variable {U : Type*} {c : Ctx U} {f g : File} {sd : Sd} {t : Cfg.Users} {s : Libc.CStr} {v : UInt64}

structure Attrs where
  id     : UInt64
  mode   : UInt64
  atime  : UInt64
  mtime  : UInt64
  length : UInt64
  uid    : UInt64
  gid    : UInt64
  muid   : UInt64
  mf     : Attr.Mfile

def attrs (f : File) : Attrs where
  id     := f.id
  mode   := f.mode
  atime  := f.atime
  mtime  := f.mtime
  length := f.length
  uid    := f.uid
  gid    := f.gid
  muid   := f.muid
  mf     := f.mf

theorem u64_wstatint (v : UInt64) : u64 (wstatint v) = v := by
  rw [u64, wstatint, LittleEndian.decode_encode v.toNat_lt, UInt64.ofNat_toNat]

theorem cstr_wstatstr (s : Libc.CStr) : cstr (wstatstr s) = s.bytes := by
  have hne : ∀ b ∈ s.bytes, decide (b ≠ 0) = true := fun b hb => decide_eq_true fun h => s.nulfree (h ▸ hb)
  rw [cstr, wstatstr, List.takeWhile_append_of_pos hne]
  simp

theorem ended_wstatstr (s : Libc.CStr) : ended (wstatstr s) = true := by
  simp [ended, wstatstr]

-- The number of a user.
def idof (c : Ctx U) (s : Libc.CStr) : UInt64 :=
  .ofNat (c.usrid s).toNat

-- A write is refused, or leaves a file.
def Writes (t : Cfg.Users) (g : File) (name : String) (val : List UInt8) (refused : Prop) (g' : File) : Prop :=
  (refused ∧ ∃ e, dfwattr false t g name val = (g, .error e)) ∨
    (¬refused ∧ ∃ n, dfwattr false t g name val = (g', .ok n))

theorem writes_of_eq {name : String} {val : List UInt8} {g' : File} {n : Nat}
    (h : dfwattr false t g name val = (g', .ok n)) : Writes t g name val False g' :=
  .inr ⟨not_false, n, h⟩

theorem writes_length (hdir : g.mode &&& DMDIR = 0) : Writes t g "length" (wstatint 0) False { g with length := 0 } := by
  have hw : dfwattr false t g "length" (wstatint 0) = g.wlength (wstatint 0) :=
    (dfwattr_attr rfl rfl).trans (if_neg fun h => h.right rfl)
  have hok : g.wlength (wstatint 0) = ({ g with length := 0 }, .ok 8) := by
    rw [File.wlength, u64_wstatint]
    exact Attr.resized_ok (f := { g with length := 0 }) (not_not.mpr hdir) (Nat.zero_le _)
  exact writes_of_eq (hw.trans hok)

theorem writes_name (s : Libc.CStr) :
    Writes t g "name" (wstatstr s) (s.bytes.length + 1 > g.embedattrsz)
      { g with mf.name := s.bytes, embed := overwrite g.embed 0 (s.bytes ++ [0]) } := by
  have hw : dfwattr false t g "name" (wstatstr s) = g.wname (wstatstr s) :=
    (dfwattr_attr rfl rfl).trans (if_neg fun h => h.left rfl)
  rw [Writes, hw, File.wname, if_neg (not_not.mpr (ended_wstatstr s)), cstr_wstatstr]
  by_cases h : s.bytes.length + 1 > g.embedattrsz
  case pos => exact .inl ⟨h, _, if_pos h⟩
  case neg => exact .inr ⟨h, _, if_neg h⟩

theorem writes_chkusr (set : UInt64 → File) {name : String} (s : Libc.CStr)
    (hw : dfwattr false c.names g name (wstatstr s) =
      match File.chkusr c.names (wstatstr s) with
      | .error e => (g, .error e)
      | .ok id   => (set id, .ok (wstatstr s).length)) :
    Writes c.names g name (wstatstr s) (c.usrid s < 0) (set (idof c s)) := by
  rw [Writes, hw, File.chkusr, if_neg (not_not.mpr (ended_wstatstr s)), cstr_wstatstr]
  by_cases h : c.usrid s < 0
  case pos =>
    have h' : c.names.usrid s.bytes < 0 := h
    exact .inl ⟨h, _, by simp only [h', if_true]; rfl⟩
  case neg =>
    have h' : ¬c.names.usrid s.bytes < 0 := h
    exact .inr ⟨h, (wstatstr s).length, by simp only [h', if_false]; rfl⟩

theorem writes_uid (s : Libc.CStr) : Writes c.names g "uid" (wstatstr s) (c.usrid s < 0) { g with uid := idof c s } :=
  writes_chkusr (fun id => { g with uid := id }) s <| (dfwattr_attr rfl rfl).trans (if_neg fun h => h.left rfl)

theorem writes_gid (s : Libc.CStr) : Writes c.names g "gid" (wstatstr s) (c.usrid s < 0) { g with gid := idof c s } :=
  writes_chkusr (fun id => { g with gid := id }) s <| (dfwattr_attr rfl rfl).trans (if_neg fun h => h.left rfl)

-- The number of the owner is written, as that is what the table has for the name.
theorem writes_muid (s : Libc.CStr) : Writes c.names g "muid" (wstatstr s) (c.usrid s < 0) { g with uid := idof c s } :=
  writes_chkusr (fun id => { g with uid := id }) s <| (dfwattr_attr rfl rfl).trans (if_neg fun h => h.left rfl)

theorem writes_mode (v : UInt64) :
    Writes t g "mode" (wstatint v) False { g with mode := v ||| (g.mode &&& DMUSERS) } := by
  have hw : dfwattr false t g "mode" (wstatint v) = g.wmode (wstatint v) :=
    (dfwattr_attr rfl rfl).trans (if_neg fun h => h.right (LittleEndian.encode_length 8 _).symm)
  have hok : g.wmode (wstatint v) = ({ g with mode := v ||| (g.mode &&& DMUSERS) }, .ok 8) := by rw [File.wmode, u64_wstatint]
  exact writes_of_eq (hw.trans hok)

theorem writes_atime (v : UInt64) : Writes t g "atime" (wstatint v) False { g with atime := v } := by
  have hw : dfwattr false t g "atime" (wstatint v) = g.watime (wstatint v) :=
    (dfwattr_attr rfl rfl).trans (if_neg fun h => h.right (LittleEndian.encode_length 8 _).symm)
  have hok : g.watime (wstatint v) = ({ g with atime := v }, .ok 8) := by rw [File.watime, u64_wstatint]
  exact writes_of_eq (hw.trans hok)

theorem writes_mtime (v : UInt64) : Writes t g "mtime" (wstatint v) False { g with mtime := v } := by
  have hw : dfwattr false t g "mtime" (wstatint v) = g.wmtime (wstatint v) :=
    (dfwattr_attr rfl rfl).trans (if_neg fun h => h.right (LittleEndian.encode_length 8 _).symm)
  have hok : g.wmtime (wstatint v) = ({ g with mtime := v }, .ok 8) := by rw [File.wmtime, u64_wstatint]
  exact writes_of_eq (hw.trans hok)

-- What is to hold of an outcome: `P` of the file after success, and the attributes after an error.
def Judge (f : File) (P : File → Prop) : Outcome → Prop
  | (g, .ok _)             => P g
  | (g, .error (.error _)) => attrs g = attrs f
  | (_, .error .fatal)     => False

-- The rest of the writes are made unless the first one is asked for and refused.
theorem judge_wanted {p : Prop} [Decidable p] {name : String} {val : List UInt8} {refused : Prop} {g' k : File}
    {P : File → Prop} {ws : List (String × List UInt8)} (h : p → Writes c.names g name val refused g')
    (hk : k = if p then g' else g) :
    Judge f P (wattrs c (wanted p name val ++ ws) g) ↔
      (p → c.full name = false) ∧ (p ∧ refused → attrs g = attrs f) ∧ (¬(p ∧ refused) → Judge f P (wattrs c ws k)) := by
  by_cases hp : p
  case neg => simp [wanted, hp, hk]
  case pos =>
    rw [wanted, if_pos hp, List.singleton_append, wattrs, hk, if_pos hp]
    cases hfull : c.full name
    case true => simp [Judge, hp]
    case false =>
      rcases h hp with ⟨hr, e, he⟩ | ⟨hr, n, he⟩
      · simp [he, hr, hp, Judge]
      · simp [he, hr, hp]

theorem judge_accepted {p : Prop} [Decidable p] {name : String} {val : List UInt8} {g' k : File}
    {P : File → Prop} {ws : List (String × List UInt8)} (h : p → Writes c.names g name val False g')
    (hk : k = if p then g' else g) :
    Judge f P (wattrs c (wanted p name val ++ ws) g) ↔ (p → c.full name = false) ∧ Judge f P (wattrs c ws k) := by
  rw [judge_wanted h hk]
  simp only [and_false, false_imp_iff, not_false_iff, true_imp_iff, true_and]

theorem wanted_null {α : Type} {q : α → Prop} [DecidablePred q] {p : Prop} [Decidable p] {x y null : α} {name : String}
    (val : α → List UInt8) (hnull : ¬q null) (hp : p → q x) (hy : y = if p then x else null) :
    wanted (q y) name (val y) = wanted p name (val x) := by
  by_cases h : p
  case pos =>
    rw [if_pos h] at hy
    rw [hy, wanted, wanted, if_pos h, if_pos (hp h)]
  case neg =>
    rw [if_neg h] at hy
    rw [hy, wanted, wanted, if_neg h, if_neg hnull]

theorem writes_asked (c : Ctx U) (f : File) (sd : Sd) :
    writes (c.asked f sd) =
      wanted (AsksLength f sd) "length" (wstatint sd.length) ++
      (wanted (AsksName f sd) "name" (wstatstr sd.name) ++
      (wanted (AsksUid f sd) "uid" (wstatstr sd.uid) ++
      (wanted (AsksGid f sd) "gid" (wstatstr sd.gid) ++
      (wanted (AsksMuid f sd ∧ c.allowed f.uid = true) "muid" (wstatstr sd.muid) ++
      (wanted (AsksMode f sd) "mode" (wstatint sd.mode.toUInt64) ++
      (wanted (AsksAtime f sd ∧ c.allowed f.uid = true) "atime" (wstatint sd.atime.toUInt64) ++
      (wanted (AsksMtime f sd) "mtime" (wstatint sd.mtime.toUInt64) ++ []))))))) := by
  have hint {p : Prop} [Decidable p] {v v' : UInt32} {name : String} (hp : p → v ≠ ~~~0) (hv : v' = if p then v else ~~~0) :
      wanted (v' ≠ ~~~0) name (wstatint v'.toUInt64) = wanted p name (wstatint v.toUInt64) :=
    wanted_null (q := (· ≠ ~~~0)) (fun v => wstatint v.toUInt64) (not_not.mpr rfl) hp hv
  have hstr {p : Prop} [Decidable p] {s s' : Libc.CStr} {name : String} (hp : p → s.bytes ≠ [])
      (hs : s' = if p then s else noname) : wanted (s'.bytes ≠ []) name (wstatstr s') = wanted p name (wstatstr s) :=
    wanted_null (q := (·.bytes ≠ [])) wstatstr (not_not.mpr rfl) hp hs
  have hlength : wanted ((c.asked f sd).length ≠ ~~~0) "length" (wstatint (c.asked f sd).length) =
      wanted (AsksLength f sd) "length" (wstatint sd.length) :=
    wanted_null (q := (· ≠ ~~~0)) wstatint (not_not.mpr rfl) And.left rfl
  simp only [writes, List.append_assoc, List.append_nil]
  refine congrArg₂ _ hlength (congrArg₂ _ (hstr And.left rfl) (congrArg₂ _ (hstr And.left rfl) ?_))
  refine congrArg₂ _ (hstr And.left rfl) (congrArg₂ _ (hstr (·.left.left) rfl) (congrArg₂ _ (hint And.left rfl) ?_))
  exact congrArg₂ _ (hint (·.left.left) rfl) (hint And.left rfl)

end Creepy.Wstat
