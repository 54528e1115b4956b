import Nix.Creepy.FblkData

namespace Creepy.Fblk

variable {f f' : File}

namespace File

-- The bytes that a read is to return.
def bytes (f : File) (count off : Nat) : List UInt8 :=
  (List.range (min count (f.length - off))).map fun k => f.stored (off + k)

theorem bytes_past (hoff : f.length ≤ off) : f.bytes count off = [] := by
  simp [bytes, Nat.sub_eq_zero_of_le hoff]

theorem bytes_split (hn : n ≤ min count (f.length - off)) :
    (List.range n).map (fun k => f.stored (off + k)) ++ f.bytes (count - n) (off + n) = f.bytes count off := by
  have hmin : min count (f.length - off) = n + min (count - n) (f.length - (off + n)) := by omega
  rw [bytes, bytes, hmin, List.range_add, List.map_append, List.map_map]
  simp only [Function.comp_def, Nat.add_assoc]

-- The bytes of a read can be reached.
def Reads (f : File) (count off : Nat) : Prop :=
  ∀ k, off ≤ k → k < off + count → k < f.length → f.mapped k

theorem readloop_past (hoff : f.length ≤ off) : f.readloop fuel count off = .ok [] := by
  cases fuel
  case zero => rfl
  case succ =>
    rw [readloop]
    split
    · rfl
    · rw [dfslice_past hoff]
      rfl

theorem readloop_succ (fuel : Nat) (hlen : f.length ≤ f.capacity) (hoff : off < f.length) (hc : count ≠ 0)
    (hm : f.mapped off) :
    0 < f.slicelen count off ∧
      f.readloop (fuel + 1) count off =
        (f.readloop fuel (count - f.slicelen count off) (off + f.slicelen count off)).map
          ((List.range (f.slicelen count off)).map (fun k => f.stored (off + k)) ++ ·) := by
  have ⟨data, hsl, _, hdata⟩ := dfslice_eq_ok count hlen hoff hm
  have hroom : 0 < f.room off := f.room_pos
  have hpos : 0 < f.slicelen count off := by rw [slicelen]; omega
  have hle : f.slicelen count off ≤ f.room off ∧ f.slicelen count off ≤ f.length - off := by
    rw [slicelen]
    omega
  have hu : uvlong (off + f.slicelen count off) = off + f.slicelen count off :=
    Nat.mod_eq_of_lt (by have := f.capacity_lt; omega)
  have hbytes : (List.range (f.slicelen count off)).map (fun k => data.elim 0 (· k)) =
      (List.range (f.slicelen count off)).map (fun k => f.stored (off + k)) := by
    refine List.map_congr_left fun k hk => hdata k ?_
    exact Nat.lt_of_lt_of_le (List.mem_range.mp hk) hle.left
  refine ⟨hpos, ?_⟩
  rw [readloop, if_neg hc, hsl]
  refine (if_neg (Nat.ne_of_gt hpos)).trans ?_
  simp only [hu, hbytes]
  cases f.readloop fuel (count - f.slicelen count off) (off + f.slicelen count off) <;> rfl

theorem map_append_eq_ok_iff {r : Except Fault (List UInt8)} :
    r.map (l ++ ·) = .ok (l ++ bs) ↔ r = .ok bs := by
  cases r <;> simp [Except.map]

theorem readloop_eq_ok_iff (hlen : f.length ≤ f.capacity) (hfuel : count ≤ fuel) :
    f.readloop fuel count off = .ok (f.bytes count off) ↔ f.Reads count off := by
  induction fuel generalizing count off
  case zero =>
    obtain rfl := Nat.le_zero.mp hfuel
    refine iff_of_true (by simp [readloop, bytes]) fun k hk hk' => ?_
    omega
  case succ fuel ih =>
    by_cases hoff : off < f.length
    case neg =>
      have hoff := Nat.not_lt.mp hoff
      refine iff_of_true ?_ fun k hk _ hk' => ?_
      · rw [readloop_past hoff, bytes_past hoff]
      · omega
    by_cases hc : count = 0
    case pos =>
      subst hc
      refine iff_of_true (by simp [readloop, bytes]) fun k hk hk' => ?_
      omega
    by_cases hm : f.mapped off
    case neg =>
      refine iff_of_false (fun h => ?_) fun h => hm <| h off (Nat.le_refl _) (by omega) hoff
      have ⟨e, he⟩ := dfslice_of_not_mapped count hoff hm
      rw [readloop, if_neg hc, he] at h
      contradiction
    case pos =>
      have ⟨hpos, hloop⟩ := readloop_succ fuel hlen hoff hc hm
      have hsl : f.slicelen count off ≤ min count (f.length - off) ∧ f.slicelen count off ≤ f.room off := by
        rw [slicelen]
        omega
      rw [hloop, ← bytes_split hsl.left, map_append_eq_ok_iff, ih (by omega)]
      constructor
      case mp =>
        intro h k hk hk' hlt
        by_cases hin : k < off + f.slicelen count off
        case pos =>
          obtain ⟨j, rfl⟩ := Nat.exists_eq_add_of_le hk
          exact (mapped_add (by omega)).mpr hm
        case neg => exact h k (Nat.not_lt.mp hin) (by omega) hlt
      case mpr => exact fun h k hk hk' hlt => h k (by omega) (by omega) hlt

end File

-- The file and what its contents are to be.
structure Inv (f : File) (a : Contents UInt8) : Prop where
  length : f.length = a.length
  le     : f.length ≤ f.capacity
  stored : ∀ k < f.length, f.stored k = a.val k
  ends   : a.Ends

-- Where a write goes.
def File.writeoff (f : File) (off : Nat) : Nat :=
  if f.append then f.length else off

-- What an action is for.
def note (f : File) : Act → Contents UInt8 → Contents UInt8
  | .dfpwrite bs off, a => a.write bs (f.writeoff off)
  | .wlength sz,      a => a.resize sz

def tracked : Machine (File × Contents UInt8) Act :=
  machine.track (Contents UInt8) (fun _ => .empty) note

-- A file grows only over bytes that are zero, and up to a size that can be addressed.
def Clean (f : File) : Act → Prop
  | .dfpwrite bs off =>
    f.writeoff off + bs.length ≤ f.capacity ∧
      ∀ k, f.length ≤ k → k < f.writeoff off → f.stored k = 0
  | .wlength sz => ∀ k, f.length ≤ k → k < sz → f.stored k = 0

theorem created_inv (h : Created f) : Inv f .empty where
  length := h.length
  le     := h.length ▸ Nat.zero_le _
  stored := fun k _ => stored_of_created h k
  ends   := .empty

theorem maxfsz_le : maxfsz ≤ 2 ^ 32 * Dblkdatasz := by
  decide

namespace Inv

variable {a : Contents UInt8}

theorem dfpwrite (h : Inv f a) (hc : Clean f (.dfpwrite bs off)) (hs : f.dfpwrite bs off = .ok f') :
    Inv f' (a.write bs (f.writeoff off)) := by
  have ⟨hcap, hzero⟩ := hc
  have ⟨hw, hl⟩ : File.Wrote f f' bs (f.writeoff off) ∧ _ := File.writeloop_eq_ok hs (Nat.le_refl _) hcap
  have hle : f'.length ≤ f.capacity := by
    have := h.le
    rw [hl]
    split <;> omega
  exact
    { length := by rw [hl, h.length]; rfl
      le := hw.same.capacity ▸ hle
      stored := fun k hk => by
        rw [hw.stored k (Nat.lt_of_lt_of_le hk hle)]
        refine overwrite_congr fun hout => ?_
        by_cases hlt : k < f.length
        case pos => exact h.stored k hlt
        case neg =>
          have hge := Nat.not_lt.mp hlt
          have hoff : k < f.writeoff off := by
            refine hout.resolve_right fun hle' => ?_
            rw [hl] at hk
            split at hk <;> omega
          rw [hzero k hge hoff, h.ends k (h.length ▸ hge)]
      ends := h.ends.write bs _ }

theorem wlength (h : Inv f a) (hc : Clean f (.wlength sz)) (hs : f.wlength sz = .ok f') :
    Inv f' (a.resize sz) := by
  rw [File.wlength, File.resized] at hs
  split at hs
  case isTrue => contradiction
  split at hs
  case isTrue => contradiction
  case isFalse hmax =>
    have hmax := Nat.not_lt.mp hmax
    rw [if_pos (Nat.le_refl _)] at hs
    cases hs
    exact
      { length := rfl
        le := Nat.le_trans hmax <| Nat.le_trans maxfsz_le (Nat.le_add_left ..)
        stored := fun k hk => by
          refine Eq.trans ?_ (if_pos hk).symm
          by_cases hlt : k < f.length
          case pos => exact h.stored k hlt
          case neg =>
            have hge := Nat.not_lt.mp hlt
            rw [h.ends k (h.length ▸ hge)]
            exact hc k hge hk
        ends := .resize sz }

end Inv

theorem inv_invariant : tracked.Invariant (fun s act => Clean s.fst act) fun s => Inv s.fst s.snd where
  init := by
    rintro ⟨f, a⟩ ⟨hf, ha⟩
    exact ha ▸ created_inv hf
  step := by
    rintro ⟨f, a⟩ act ⟨f', a'⟩ h hc hs
    have ⟨hs, he⟩ := Machine.track_step_eq.mp hs
    rw [he]
    cases act
    case dfpwrite bs off => exact h.dfpwrite hc (eq_ok_of_toOption hs)
    case wlength sz => exact h.wlength hc (eq_ok_of_toOption hs)

-- In a run of requests that do not extend a file over bytes that are left from before it shrank, a
-- read returns what the file is to hold, provided that the pointers to it are there.
theorem dfpread_eq_ok_iff {a : Contents UInt8}
    (hr : tracked.Reachable (fun s act => Clean s.fst act) (f, a)) (count off : Nat) :
    f.dfpread count off = .ok (a.read count off) ↔ f.Reads count off := by
  have h : Inv f a := inv_invariant.holds hr
  have hread : a.read count off = f.bytes count off := by
    rw [Contents.read, File.bytes, h.length]
    refine List.map_congr_left fun k hk => (h.stored _ ?_).symm
    have := List.mem_range.mp hk
    rw [h.length]
    omega
  rw [hread]
  exact File.readloop_eq_ok_iff h.le (Nat.le_refl _)

theorem new_reachable {cond : File × Contents UInt8 → Act → Prop} :
    tracked.Reachable cond (new, .empty) :=
  .init ⟨new_created, rfl⟩

def written : File × Contents UInt8 :=
  (tracked.exec (new, .empty) [.dfpwrite [1, 2, 3] 2]).get (by decide +kernel)

-- A hole at the start of a file.
theorem dfpread_hole : written.fst.dfpread 5 0 = .ok [0, 0, 1, 2, 3] := by
  have hc : Clean new (.dfpwrite [1, 2, 3] 2) :=
    ⟨by decide, fun k _ _ => stored_of_created new_created k⟩
  have hr : tracked.Reachable (fun s act => Clean s.fst act) written :=
    new_reachable.step (a := .dfpwrite [1, 2, 3] 2) hc (by simp [written, Machine.exec])
  have hread : written.snd.read 5 0 = [0, 0, 1, 2, 3] := by decide +kernel
  rw [← hread]
  refine (dfpread_eq_ok_iff hr 5 0).mpr fun k _ hk _ => .inl ?_
  exact Nat.lt_of_lt_of_le hk (by decide +kernel)

-- The file is cut to one byte, and then extended.
def regrown : File × Contents UInt8 :=
  (tracked.exec (new, .empty) [.dfpwrite [1, 2, 3] 0, .wlength 1, .wlength 3]).get (by decide +kernel)

-- What was there before shows up again.
theorem dfpread_regrown :
    tracked.Reachable (fun _ _ => True) regrown ∧
      regrown.snd.read 3 0 = [1, 0, 0] ∧ regrown.fst.dfpread 3 0 = .ok [1, 2, 3] := by
  refine ⟨new_reachable.exec (fun _ _ _ => trivial) (Option.some_get _).symm, ?_, ?_⟩
  all_goals decide +kernel

end Creepy.Fblk
