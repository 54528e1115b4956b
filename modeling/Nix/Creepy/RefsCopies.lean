import Nix.Creepy.RefsStep

namespace Creepy.Refs

variable {limit : Nat} {s : State} {a : Snapshot Image}

theorem fsfmt_inv (ref : Bool → Nat → Counters) :
    Inv (fsfmt ref) { now := { free := 0, eaddr := Dblk0addr, ref := ref false }
                      frozen := none, saved := none } := by
  have hwhole : ({ free := 0, eaddr := Dblk0addr, ref := ref false } : Image).Whole := ⟨0, rfl, by simp⟩
  exact
    { super := ⟨rfl, rfl⟩
      fzsuper := rfl
      saved := rfl
      refs := nofun
      phase := trivial
      freeing := nofun
      group := fun g => by
        refine .absent (if_neg fun hg => ?_) rfl rfl rfl
        have hg : blkaddr (g * Nblkgrpsz + 2) < Dblk0addr := hg
        exact Nat.not_lt.mpr (Nat.le_add_right ..) hg
      whole := fun _ => hwhole
      clearing := nofun
      past := ⟨nofun, nofun⟩ }

theorem inv_invariant :
    (tracked limit).Invariant (fun s act => Settled s.fst act) fun s => Inv s.fst s.snd where
  init := by
    rintro ⟨_, a⟩ ⟨⟨ref, rfl⟩, ha⟩
    exact ha ▸ fsfmt_inv ref
  step h hc hs := by
    have ⟨hs, he⟩ := Machine.track_step_eq.mp hs
    exact he ▸ h.step hc hs

-- The super block on disk is the one that was saved, and selects copies with the counters and links
-- that were frozen with it.
structure Coherent (s : State) (a : Snapshot Image) : Prop where
  disk   : ∀ sb ∈ s.disk.super, ∃ i ∈ a.saved, sb = i.super sb.oddrefs ∧
    ∀ g, i.has g → s.disk.ref sb.oddrefs g = i.ref g
  -- What is frozen next is what the blocks in memory hold.
  super  : s.super = a.now.super s.super.oddrefs
  loaded : ∀ g, ∀ rb ∈ s.mem g, rb.loading = none → rb.ref = a.now.ref g
  absent : ∀ g, a.now.has g → s.mem g = none → s.disk.ref s.super.oddrefs g = a.now.ref g

-- The copies of a block that did not change since the freeze before are equal when the super block
-- that selects the other one is about to be written.
def Unchanged (s : State) (a : Snapshot Image) : Prop :=
  s.phase = .writedata → ∀ i ∈ a.frozen, ∀ j ∈ a.saved, ∀ g, i.has g → i.group g = j.group g →
    ∀ c c', s.disk.ref c g = s.disk.ref c' g

-- In a run without a crash, or an error on a reference block, while the copies differ.
theorem refs_coherent (hr : (tracked limit).Reachable (fun s act => Settled s.fst act) (s, a)) :
    Coherent s a ∧ Unchanged s a := by
  have h : Inv s a := inv_invariant.holds hr
  constructor
  case left =>
    exact
      { disk := fun sb hsb => by
          have hsaved := h.saved
          rw [hsb] at hsaved
          obtain ⟨i, hi, he⟩ := Option.map_eq_some_iff.mp hsaved.symm
          subst he
          exact ⟨i, hi, rfl, fun g hg => (h.group g).saved (i.ref g) (Image.bind_group_of_has hi hg)⟩
        super := by
          cases hs : s.super
          simpa [Image.super, hs] using h.super
        loaded := fun g rb hrb hl => (h.ref_eq hrb hl).symm
        absent := fun g hg hm => (h.group g).away _ (Image.group_of_has hg) (by simp [view, hm]) }
  case right =>
    intro hph i hi j hj g hg hij c c'
    have hgo := h.group g
    rw [hph] at hgo
    obtain ⟨hgj, href⟩ := Image.group_eq_some (hij.symm.trans (Image.group_of_has hg))
    have hfrozen : s.disk.ref (!s.super.oddrefs) g = i.ref g :=
      hgo.frozen (by simp) _ (Image.bind_group_of_has hi hg) (hgo.not_frozen (by simp [Phase.MayFreeze]))
    have hsaved : s.disk.ref s.super.oddrefs g = j.ref g :=
      hgo.saved _ (Image.bind_group_of_has hj hgj)
    have hd c : s.disk.ref c g = i.ref g := by
      by_cases hc : c = s.super.oddrefs
      case pos => rw [hc, hsaved, href]
      case neg => rw [Bool.eq_not_of_ne hc, hfrozen]
    rw [hd c, hd c']

-- As in `fsfmt`, a group is created and a block of it allocated.
def format : List Act :=
  [.dbclear true, .dbclearodd true, .dbget 0, .dbread 0, .dbaddref 0 2 0 1 true]

-- From the freeze until the super block is written, there being `n` reference blocks in memory.
def write (n : Nat) : List Act :=
  Act.freezesuperrefs :: .fswrite :: List.replicate (n + 1) (Act.writeref true) ++ [Act.writezsuper true]

def sync (n : Nat) : List Act :=
  Act.syncrefs :: List.replicate (n + 1) (Act.syncref true)

def start : State × Snapshot Image :=
  (fsfmt fun _ _ _ => 0, { now := { free := 0, eaddr := Dblk0addr, ref := 0 }, frozen := none, saved := none })

theorem start_reachable {cond : State × Snapshot Image → Act → Prop} :
    (tracked limit).Reachable cond start :=
  .init ⟨⟨_, rfl⟩, rfl⟩

-- The state after a formatted disk was written.
def formatted : State × Snapshot Image :=
  ((tracked (blkaddr 10)).exec start (format ++ write 1 ++ sync 1)).get (by decide +kernel)

theorem refs_coherent_formatted :
    Coherent formatted.fst formatted.snd ∧ formatted.fst.disk.super.isSome ∧
      formatted.fst.disk.ref true 0 2 = 1 := by
  have hr : (tracked (blkaddr 10)).Reachable (fun s act => Settled s.fst act) formatted := by
    refine start_reachable.exec (fun act hact s => ?_) (Option.some_get _).symm
    simp only [format, write, sync, List.replicate] at hact
    revert act
    simp [Settled]
  exact ⟨(refs_coherent hr).left, by decide +kernel, by decide +kernel⟩

-- After `n` more blocks were allocated.
def extended (s : State × Snapshot Image) (n : Nat) : State × Snapshot Image :=
  ({ s.fst with super.eaddr := s.fst.super.eaddr + n * Dblksz },
    s.snd.update fun i => { i with eaddr := i.eaddr + n * Dblksz })

theorem extended_reachable {s : State × Snapshot Image} (hr : (tracked limit).Reachable (fun _ _ => True) s)
    (hs : s.fst.clearing = none ∧ s.fst.super.free = 0) (he : s.fst.super.eaddr = blkaddr k)
    (hn : ∀ j < n, (k + j) % Nblkgrpsz ≠ 0) (hl : blkaddr (k + n) ≤ limit) :
    (tracked limit).Reachable (fun _ _ => True) (extended s n) := by
  induction n
  case zero =>
    have he : extended s 0 = s := by simp [extended, Snapshot.update]
    exact he ▸ hr
  case succ n ih =>
    have hr := ih (fun j hj => hn j (Nat.lt_succ_of_lt hj))
      (Nat.le_trans (Nat.le_of_lt <| blkaddr_lt_iff.mpr (Nat.lt_succ_self _)) hl)
    refine hr.step (a := .extend) trivial <| Machine.track_step_eq.mpr ⟨?_, ?_⟩
    case refine_1 =>
      have hlt : blkaddr (k + n) < limit :=
        Nat.lt_of_lt_of_le (blkaddr_lt_iff.mpr (Nat.lt_succ_self _)) hl
      have hg : ¬newgroup (blkaddr (k + n)) := by
        rw [newgroup_blkaddr]
        exact hn n (Nat.lt_succ_self n)
      have hadd := blkaddr_add (k + n) 1
      rw [Nat.one_mul, Nat.add_assoc] at hadd
      simp [machine, step, extended, hs, he, blkaddr_add, hlt, hg, hadd]
    case refine_2 => simp [extended, note_extend, Snapshot.update, Nat.add_mul, Nat.add_assoc]

-- The first group is full.
def full : State × Snapshot Image :=
  extended (((tracked (blkaddr 5000)).exec start format).get (by decide +kernel)) 2044

-- A counter of the first group is incremented, and there is a crash after the super block was
-- written. Only the second group changes before the next freeze.
def stale : List Act :=
  [Act.dbclear true, .dbclearodd true] ++ write 1 ++ sync 1 ++ [Act.dbaddref 0 2 1 0 true] ++ write 1 ++
  [Act.crash, .dbget 1, .dbread 1, .dbaddref 1 2 0 1 true] ++ write 1

-- The state after the run.
def crashed : State × Snapshot Image :=
  ((tracked (blkaddr 5000)).exec full stale).get (by decide +kernel)

-- The copy selected has the counter as it was before.
theorem refs_not_coherent :
    (tracked (blkaddr 5000)).Reachable (fun _ _ => True) crashed ∧
      ¬Coherent crashed.fst crashed.snd := by
  have hfull : (tracked (blkaddr 5000)).Reachable (fun _ _ => True) full := by
    refine extended_reachable (k := 3)
      (start_reachable.exec (fun _ _ _ => trivial) (Option.some_get _).symm) ?_ ?_ ?_ ?_
    case refine_3 =>
      simp only [Nblkgrpsz, Dblksz, Dblkhdrsz, Daddrsz]
      omega
    all_goals decide +kernel
  refine ⟨hfull.exec (fun _ _ _ => trivial) (Option.some_get _).symm, fun h => ?_⟩
  have hsb : crashed.fst.disk.super = some { free := 0, eaddr := blkaddr 2050, oddrefs := true } := by
    decide +kernel
  have hcopy : crashed.fst.disk.ref true 0 2 = 1 := by decide +kernel
  have hsaved : (crashed.snd.saved.map fun i => (decide (i.has 0), i.ref 0 2)) = some (true, 2) := by
    decide +kernel
  have ⟨i, hi, _, href⟩ := h.disk _ hsb
  have ⟨hhas, h2⟩ : i.has 0 ∧ i.ref 0 2 = 2 := by simpa [Option.mem_def.mp hi] using hsaved
  rw [← href 0 hhas, hcopy] at h2
  contradiction

end Creepy.Refs
