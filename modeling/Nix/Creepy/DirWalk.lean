import Nix.Creepy.DirNames

namespace Creepy.Dir

open Fblk

variable {s s' : State}

theorem dfslice_entries (h : Layout s.d) (hk : k < s.d.length / Daddrsz) :
    ∃ data n, s.d.dfslice Dblkdatasz (k * Daddrsz) = .ok { len := n * Daddrsz, data := some data } ∧
      0 < n ∧ k + n ≤ s.d.length / Daddrsz ∧ ∀ i < n, de data i = entry s.d (k + i) := by
  have hm := h.mod
  have hoff : k * Daddrsz < s.d.length := by simp only [Daddrsz] at *; omega
  have hsolid := h.solid _ hoff
  have ⟨data, hsl, hsome, hdata⟩ := File.dfslice_eq_ok Dblkdatasz h.le hoff hsolid.mapped
  obtain ⟨data, rfl⟩ := Option.isSome_iff_exists.mp (hsome hsolid)
  have hroom := room_mod s.d k
  have hpos : 0 < s.d.room (k * Daddrsz) := s.d.room_pos
  have hlen : s.d.slicelen Dblkdatasz (k * Daddrsz) =
      s.d.slicelen Dblkdatasz (k * Daddrsz) / Daddrsz * Daddrsz := by
    rw [File.slicelen]
    simp only [Daddrsz, Dblkdatasz, Dblksz, Dblkhdrsz] at *
    omega
  have hle : s.d.slicelen Dblkdatasz (k * Daddrsz) ≤ s.d.room (k * Daddrsz) ∧
      s.d.slicelen Dblkdatasz (k * Daddrsz) ≤ s.d.length - k * Daddrsz ∧
      0 < s.d.slicelen Dblkdatasz (k * Daddrsz) := by
    rw [File.slicelen]
    simp only [Daddrsz, Dblkdatasz, Dblksz, Dblkhdrsz] at *
    omega
  generalize s.d.slicelen Dblkdatasz (k * Daddrsz) = len at *
  refine ⟨data, len / Daddrsz, hlen ▸ hsl, ?_, ?_, fun i hi => de_slice hdata ?_⟩
  all_goals
    simp only [Daddrsz] at *
    omega

theorem lt_of_used (h : k ∈ s.used) : k < s.d.length / Daddrsz :=
  Finset.mem_range.mp (Finset.mem_filter.mp h).left

-- From an entry on, `dfwalk` finds the child that has the name, if there is one.
theorem walkloop_eq (name : String) (h : Inv s) (hk : k ≤ s.d.length / Daddrsz) (hfuel : s.d.length / Daddrsz < k + fuel) :
    ∃ r, s.walkloop name fuel (k * Daddrsz) = some r ∧
      ∀ a, r = .ok a ↔ ∃ j ∈ s.used, k ≤ j ∧ entry s.d j = a ∧ s.nameof j = name := by
  induction fuel generalizing k
  case zero => omega
  case succ fuel ih =>
    rw [State.walkloop]
    rcases Nat.eq_or_lt_of_le hk with rfl | hlt
    case inl =>
      have hpast : s.d.length ≤ s.d.length / Daddrsz * Daddrsz := by
        have := h.shape.layout.mod
        simp only [Daddrsz] at *
        omega
      rw [File.dfslice_past hpast]
      refine ⟨.error .error, rfl, fun a => iff_of_false (by simp) ?_⟩
      rintro ⟨j, hj, hle, _⟩
      exact Nat.not_lt.mpr hle (lt_of_used hj)
    case inr =>
      obtain ⟨data, n, hsl, hpos, hle, hdata⟩ := dfslice_entries h.shape.layout hlt
      have hn : n * Daddrsz / Daddrsz = n := Nat.mul_div_cancel _ (by decide)
      have hz : n * Daddrsz ≠ 0 := Nat.mul_ne_zero (Nat.ne_of_gt hpos) (by decide)
      have hfound {i} (hi : i < n) : (de data i ≠ 0 ∧ (s.child (de data i)).name = name) ↔
          k + i ∈ s.used ∧ s.nameof (k + i) = name := by
        rw [hdata i hi, State.used, Finset.mem_filter, Finset.mem_range, State.nameof,
          and_iff_right (show k + i < s.d.length / Daddrsz by omega)]
      simp only [hsl, if_neg hz, hn]
      split
      case h_1 i hi =>
        obtain ⟨he, hin, _⟩ := List.find?_range_eq_some.mp hi
        have hin := List.mem_range.mp hin
        obtain ⟨hused, hname⟩ := (hfound hin).mp (of_decide_eq_true he)
        refine ⟨_, rfl, fun a => ?_⟩
        rw [hdata i hin]
        constructor
        case mp => exact fun ha => ⟨k + i, hused, Nat.le_add_right .., Except.ok.inj ha, hname⟩
        case mpr =>
          rintro ⟨j, hj, _, rfl, hj'⟩
          rw [h.names hj hused (hj'.trans hname.symm)]
      case h_2 hi =>
        have hnone := List.find?_range_eq_none.mp hi
        rw [← Nat.add_mul]
        obtain ⟨r, hr, hiff⟩ := ih hle (by omega)
        refine ⟨r, hr, fun a => (hiff a).trans ?_⟩
        refine exists_congr fun j => and_congr_right fun hj => and_congr_left fun hx => ?_
        have hname := hx.right
        refine ⟨fun hkj => by omega, fun hkj => ?_⟩
        by_contra hlt
        obtain ⟨i, rfl⟩ := Nat.exists_eq_add_of_le hkj
        have hin : i < n := by omega
        have := hnone i hin
        rw [Bool.not_eq_true', decide_eq_false_iff_not] at this
        exact this <| (hfound hin).mpr ⟨hj, hname⟩

theorem dfwalk_eq (h : Inv s) (hfuel : s.d.length / Daddrsz < fuel) :
    ∃ r, s.dfwalk name fuel = some r ∧ ∀ a, r = .ok a ↔ s.linked a ∧ (s.child a).name = name := by
  rw [State.dfwalk]
  split
  case isTrue hdots =>
    refine ⟨_, rfl, fun a => iff_of_false nofun ?_⟩
    rintro ⟨⟨k, hk, rfl⟩, hname⟩
    exact h.dots k hk (hname.trans hdots)
  case isFalse =>
    have ⟨r, hr, hiff⟩ := walkloop_eq name (k := 0) h (Nat.zero_le _) (show _ < 0 + fuel by omega)
    refine ⟨r, Nat.zero_mul Daddrsz ▸ hr, fun a => (hiff a).trans ?_⟩
    constructor
    case mp =>
      rintro ⟨j, hj, _, rfl, hname⟩
      exact ⟨linked_entry hj, hname⟩
    case mpr =>
      rintro ⟨⟨j, hj, rfl⟩, hname⟩
      exact ⟨j, hj, Nat.zero_le _, rfl, hname⟩

-- In a run of requests that give no child the name of another one, the entries of a directory are
-- accounted for, their names are different, and `dfwalk` ends with the child that has a name.
theorem dfwalk_reachable (hr : machine.Reachable Unused s) :
    s.ndents = s.used.card ∧ s.ndents ≤ s.d.length / Daddrsz ∧ Set.InjOn s.nameof s.used ∧
      ∀ name fuel, s.d.length / Daddrsz < fuel →
        ∃ r, s.dfwalk name fuel = some r ∧ ∀ a, r = .ok a ↔ s.linked a ∧ (s.child a).name = name := by
  have h : Inv s := inv_invariant.holds hr
  have hle : s.used.card ≤ s.d.length / Daddrsz := by
    have := Finset.card_filter_le (Finset.range (s.d.length / Daddrsz)) (entry s.d · ≠ 0)
    rwa [Finset.card_range] at this
  exact ⟨h.shape.ndents, h.shape.ndents ▸ hle, h.names, fun _ _ => dfwalk_eq h⟩

-- A new directory with a name of one letter.
def newdir : State where
  d := { new with dir := true }
  ndents := 0
  child _ := { name := "", dir := false }

theorem newdir_created : Created newdir where
  file   := ⟨rfl, new_created.embed, fun _ => rfl, fun _ => rfl⟩
  ndents := rfl

def created : State :=
  (machine.step newdir <| .create "a" false Dblksz).get (by decide +kernel)

theorem created_reachable : machine.Reachable Unused created := by
  have hunused : Unused newdir (.create "a" false Dblksz) := by
    rintro ⟨_, ⟨k, hk, _⟩, _⟩
    exact Nat.not_lt_zero k (lt_of_used hk)
  have hs : machine.step newdir (.create "a" false Dblksz) = some created := by
    rw [created, Option.some_get]
  exact (Machine.Reachable.init newdir_created).step hunused hs

theorem dfwalk_created : created.dfwalk "a" 2 = some (.ok Dblksz) := by
  have ⟨_, _, _, hwalk⟩ := dfwalk_reachable created_reachable
  have ⟨r, hr, hiff⟩ := hwalk "a" 2 (by decide +kernel)
  rw [hr, (hiff Dblksz).mpr ⟨⟨0, by decide +kernel, by decide +kernel⟩, by decide +kernel⟩]

-- The same name is created twice.
def createdtwice : State :=
  (machine.exec newdir [.create "a" false Dblksz, .create "a" false (2 * Dblksz)]).get (by decide +kernel)

theorem createdtwice_names :
    machine.Reachable (fun _ _ => True) createdtwice ∧ ¬Set.InjOn createdtwice.nameof createdtwice.used := by
  constructor
  case left =>
    have hs : machine.exec newdir [.create "a" false Dblksz, .create "a" false (2 * Dblksz)] = some createdtwice :=
      (Option.some_get _).symm
    exact (Machine.Reachable.init newdir_created).exec (fun _ _ _ => trivial) hs
  case right =>
    have h0 : 0 ∈ createdtwice.used := by decide +kernel
    have h1 : 1 ∈ createdtwice.used := by decide +kernel
    have hname : createdtwice.nameof 0 = createdtwice.nameof 1 := by decide +kernel
    exact fun h => Nat.zero_ne_one <| h h0 h1 hname

end Creepy.Dir
