import Nix.Creepy.FblkMelt

namespace Creepy.Fblk

section

variable {s s₁ s' : Blks} {isdir mkit : Bool} {type t a x bno nblks nindir : Nat} {r r' : Slot} {p : List Nat}

-- The slots and the addresses on a path, from a place in the file to the block of data.
def Blks.route (s : Blks) : List Nat → Slot → List (Slot × Nat)
  | [],       r => [(r, s.read r)]
  | idx :: p, r => (r, s.read r) :: s.route p (.ptr (s.read r) idx)

-- The block of data, unless there is a hole.
def Blks.find (s : Blks) : List Nat → Slot → Option Nat
  | [],       r => if s.read r = 0 then none else some (s.read r)
  | idx :: p, r => if s.read r = 0 then none else s.find p (.ptr (s.read r) idx)

namespace Loc

def slot : Loc → Slot
  | .direct bno   => .dptr bno
  | .indirect i _ => .iptr i

def path : Loc → List Nat
  | .direct _     => []
  | .indirect _ p => p

-- There is such a place.
def Valid : Loc → Prop
  | .direct bno   => bno < Ndptr
  | .indirect i p => i < Niptr ∧ p.length = i + 1 ∧ ∀ idx ∈ p, idx < Dptrperblk

end Loc

-- What `dfblk` with `Mkit` has done to the blocks on a path: all of them are melted, each is at its slot, and those that
-- were not melted before were put there once.
structure Melts (p : List Nat) (r : Slot) (s : Blks) (b : Nat) (s' : Blks) : Prop where
  melted : ∀ x ∈ s'.route p r, s'.melted x.snd
  nodup  : ((s'.route p r).map Prod.snd).Nodup
  last   : ((s'.route p r).map Prod.snd).getLast? = some b
  melts  : s'.melts = s.melts ++ (s'.route p r).filter fun x => !s.melted x.snd

-- `descend` with the indices that it computes.
def walk (isdir mkit : Bool) : List Nat → Slot → Fs (Option Nat)
  | [],       addrp => block isdir mkit DBdata addrp
  | idx :: p, addrp => do
    match ← block isdir mkit (DBdata + (p.length + 1)) addrp with
    | none   => walk isdir mkit p addrp
    | some b => walk isdir mkit p (.ptr b idx)

theorem exists_cons_of_indices (h : indices (nindir + 1) nblks bno = some p) :
    nblks / Dptrperblk ≠ 0 ∧ bno / (nblks / Dptrperblk) < Dptrperblk ∧
      ∃ q, indices nindir (nblks / Dptrperblk) (bno - bno / (nblks / Dptrperblk) * (nblks / Dptrperblk)) = some q ∧
        p = bno / (nblks / Dptrperblk) :: q := by
  rw [indices_succ] at h
  split at h
  case isTrue => contradiction
  case isFalse hz =>
    split at h
    case isTrue => contradiction
    case isFalse hlt =>
      obtain ⟨q, hq, rfl⟩ := Option.map_eq_some_iff.mp h
      exact ⟨hz, Nat.lt_of_not_le hlt, q, hq, rfl⟩

theorem length_of_indices (h : indices nindir nblks bno = some p) : p.length = nindir := by
  induction nindir generalizing nblks bno p
  case zero =>
    obtain rfl := Option.some.inj h
    rfl
  case succ n ih =>
    obtain ⟨-, -, q, hq, rfl⟩ := exists_cons_of_indices h
    exact congrArg (· + 1) (ih hq)

attribute [local simp] Fs.exec_bind Fs.exec_map Fs.exec_pure Fs.exec_throw Fs.exec_get Fs.exec_modify

theorem exec_descend (h : indices nindir nblks bno = some p) (r : Slot) (s : Blks) :
    (descend isdir mkit nindir r nblks bno).exec s = (walk isdir mkit p r).exec s := by
  induction nindir generalizing nblks bno p r s
  case zero =>
    obtain rfl := Option.some.inj h
    rfl
  case succ n ih =>
    obtain ⟨hz, hlt, q, hq, rfl⟩ := exists_cons_of_indices h
    have hlen : q.length = n := length_of_indices hq
    simp only [descend, walk, hz, if_false, hlen, Fs.exec_bind]
    rcases (block isdir mkit (DBdata + (n + 1)) r).exec s with ⟨_ | _ | b, s₁⟩
    case error => rfl
    case ok.none => exact ih hq r s₁
    case ok.some =>
      simp only [Nat.not_le.mpr hlt, if_false]
      exact ih hq _ s₁

-- The slots of a path are of a file, or of blocks that are nearer to it than those on the path.
structure Walked (p : List Nat) (r : Slot) (s : Blks) (b : Nat) (s' : Blks) : Prop extends Melts p r s b s' where
  other : ∀ r' ≠ r, r'.Live s (DBdata + p.length) → s'.read r' = s.read r'
  stays : ∀ t x, s.Holds t x → s'.Holds t x
  types : ∀ x ∈ s'.route p r, ∃ t ≤ DBdata + p.length, s'.Holds t x.snd

theorem exec_block_mkit : (block isdir true type r).exec s = (some <$> getmelted isdir type r).exec s := by
  simp [block]

theorem Renews.walked (h : Renews DBdata r s a s') : Walked [] r s a s' := by
  have hroute : s'.route [] r = [(r, a)] := by rw [Blks.route, h.read]
  have hm : s'.melted a := Blks.melted_iff.mpr ⟨_, h.holds⟩
  refine ⟨⟨?_, ?_, ?_, ?_⟩, h.other, h.stays, ?_⟩
  all_goals rw [hroute]
  · simpa using hm
  · simp
  · rfl
  · rw [h.melts]
    cases hs : s.melted a <;> simp [hs]
  · simpa using ⟨DBdata, Nat.le_refl _, h.holds⟩

-- The blocks below are of other types, so that neither the slot nor what is at it changes again.
theorem Renews.cons {b idx : Nat} (h : Renews (DBdata + (p.length + 1)) r s a s₁) (hr : r.Live s (DBdata + (p.length + 1)))
    (hw : Walked p (.ptr a idx) s₁ b s') : Walked (idx :: p) r s b s' := by
  have hlt : DBdata + p.length < DBdata + (p.length + 1) := Nat.lt_succ_self _
  have hne {r' : Slot} (hr' : r'.Live s (DBdata + (p.length + 1))) : r' ≠ .ptr a idx := by
    rintro rfl
    obtain ⟨t, ht, ha⟩ := hr'
    exact Nat.ne_of_gt ht <| (h.stays t a ha).eq h.holds
  have hread {r' : Slot} (hr' : r'.Live s (DBdata + (p.length + 1))) : s'.read r' = s₁.read r' :=
    hw.other r' (hne hr') <| (hr'.mono h.stays).lt hlt.le
  have hroute : s'.route (idx :: p) r = (r, a) :: s'.route p (.ptr a idx) := by
    rw [Blks.route, hread hr, h.read]
  have ha : s'.Holds (DBdata + (p.length + 1)) a := hw.stays _ _ h.holds
  have hbelow : ∀ x ∈ s'.route p (.ptr a idx), x.snd ≠ a := by
    intro x hx he
    obtain ⟨t, ht, hxt⟩ := hw.types x hx
    rw [he] at hxt
    exact Nat.not_le.mpr hlt <| hxt.eq ha ▸ ht
  -- a block below that is melted after this one was melted before
  have hmelted : ∀ x ∈ s'.route p (.ptr a idx), s₁.melted x.snd = s.melted x.snd := by
    intro x hx
    rw [Bool.eq_iff_iff, Blks.melted_iff, Blks.melted_iff]
    constructor
    · rintro ⟨t, ht⟩
      rcases h.news t _ ht with ht | ⟨he, -⟩
      · exact ⟨t, ht⟩
      · exact absurd he <| hbelow x hx
    · exact fun ⟨t, ht⟩ => ⟨t, h.stays t _ ht⟩
  refine ⟨⟨?_, ?_, ?_, ?_⟩, fun r' hne' hr' => (hread hr').trans (h.other r' hne' hr'), fun t x hx => hw.stays t x (h.stays t x hx), ?_⟩
  all_goals rw [hroute]
  · exact List.forall_mem_cons.mpr ⟨Blks.melted_iff.mpr ⟨_, ha⟩, hw.melted⟩
  · refine List.nodup_cons.mpr ⟨fun hmem => ?_, hw.nodup⟩
    obtain ⟨x, hx, he⟩ := List.mem_map.mp hmem
    exact hbelow x hx he
  · rw [List.map_cons, List.getLast?_cons, hw.last]
    rfl
  · rw [hw.melts, h.melts, List.filter_congr fun x hx => by rw [hmelted x hx]]
    cases hs : s.melted a <;> simp [hs]
  · refine List.forall_mem_cons.mpr ⟨⟨_, Nat.le_refl _, ha⟩, fun x hx => ?_⟩
    obtain ⟨t, ht, hxt⟩ := hw.types x hx
    exact ⟨t, ht.trans hlt.le, hxt⟩

theorem getmelted_of_block {b : Option Nat} (h : (block isdir true type r).exec s = (.ok b, s')) :
    ∃ a, b = some a ∧ (getmelted isdir type r).exec s = (.ok a, s') := by
  rw [exec_block_mkit, Fs.exec_map] at h
  rcases hg : (getmelted isdir type r).exec s with ⟨_ | a, s₁⟩ <;> rw [hg] at h
  case error => cases h
  case ok =>
    cases h
    exact ⟨a, rfl, rfl⟩

theorem walked_of_walk {b : Option Nat} (h : (walk isdir true p r).exec s = (.ok b, s')) (hs : s.Wf)
    (hr : r.Live s (DBdata + p.length)) : ∃ a, b = some a ∧ Walked p r s a s' := by
  induction p generalizing r s
  case nil =>
    obtain ⟨a, rfl, hg⟩ := getmelted_of_block h
    exact ⟨a, rfl, ((got_of_getmelted hg).renews hs hr).walked⟩
  case cons idx p ih =>
    obtain ⟨b₁, s₁, hb, h⟩ := Fs.bind_eq_ok_iff.mp h
    obtain ⟨a, rfl, hg⟩ := getmelted_of_block hb
    have hren := (got_of_getmelted hg).renews hs hr
    obtain ⟨b₂, rfl, hw⟩ := ih h hren.wf ⟨_, Nat.lt_succ_self _, hren.holds⟩
    exact ⟨b₂, rfl, hren.cons hr hw⟩

-- Nothing goes wrong but with a block.
def Fs.Stops (m : Fs α) : Prop :=
  ∀ s e s', m.exec s = (.error e, s') → e.isblock

namespace Fs

variable {α β : Type} {m : Fs α} {f : α → Fs β}

theorem Stops.bind (hm : m.Stops) (hf : ∀ a, (f a).Stops) : (m >>= f).Stops := by
  intro s e s' h
  rw [exec_bind] at h
  rcases hs : m.exec s with ⟨_ | a, s₁⟩ <;> rw [hs] at h
  case error =>
    cases h
    exact hm s e s' hs
  case ok => exact hf a s₁ e s' h

theorem stops_pure (a : α) : (pure a : Fs α).Stops :=
  nofun

theorem stops_get : (get : Fs Blks).Stops :=
  nofun

theorem stops_modify (g : Blks → Blks) : (modify g : Fs PUnit).Stops :=
  nofun

theorem stops_throw {e : Stop} (he : e.isblock) : (throw e : Fs α).Stops := by
  rintro s e' s' h
  cases h
  exact he

theorem stops_throw_bind {e : Stop} (he : e.isblock) : ((throw e : Fs α) >>= f).Stops := by
  rintro s e' s' h
  cases h
  exact he

end Fs

theorem dbget_stops (type addr : Nat) : (dbget type addr).Stops := by
  rw [dbget]
  split
  case isTrue => exact Fs.stops_throw_bind rfl
  case isFalse =>
    refine Fs.stops_get.bind fun s => ?_
    split
    case h_1 => exact Fs.stops_throw rfl
    case h_2 => split <;> first | exact Fs.stops_pure _ | exact Fs.stops_throw rfl

theorem newblkaddr_stops : newblkaddr.Stops := by
  refine Fs.stops_get.bind fun s => ?_
  split
  case h_1 => exact Fs.stops_throw rfl
  case h_2 => exact (Fs.stops_modify _).bind fun _ => Fs.stops_pure _

theorem dballoc_stops (type : Nat) : (dballoc type).Stops :=
  newblkaddr_stops.bind fun _ => (Fs.stops_modify _).bind fun _ => Fs.stops_pure _

theorem dbdup_stops (b : Blk) : (dbdup b).Stops :=
  (dballoc_stops b.type).bind fun _ => (Fs.stops_modify _).bind fun _ => Fs.stops_pure _

theorem dbput_stops (b : Blk) (addr : Nat) : (dbput b addr).Stops := by
  refine Fs.stops_get.bind fun s => ?_
  dsimp only
  split
  case isTrue => exact Fs.stops_throw_bind rfl
  case isFalse => split <;> exact Fs.stops_modify _

theorem getmelted_stops (isdir : Bool) (type : Nat) (addrp : Slot) : (getmelted isdir type addrp).Stops := by
  refine Fs.stops_get.bind fun s => ?_
  dsimp only
  split
  case isTrue => exact (dballoc_stops type).bind fun _ => (Fs.stops_modify _).bind fun _ => Fs.stops_pure _
  case isFalse =>
    refine (dbget_stops type _).bind fun b => ?_
    split
    case isTrue => exact Fs.stops_pure _
    case isFalse =>
      exact (dbdup_stops b).bind fun _ => (Fs.stops_modify _).bind fun _ => (Fs.stops_modify _).bind fun _ =>
        (dbput_stops b _).bind fun _ => Fs.stops_pure _

theorem block_stops (isdir mkit : Bool) (type : Nat) (addrp : Slot) : (block isdir mkit type addrp).Stops := by
  refine Fs.stops_get.bind fun s => ?_
  dsimp only
  split
  case isTrue => exact Fs.stops_pure _
  case isFalse =>
    split
    case isTrue => exact (getmelted_stops isdir type addrp).bind fun _ => Fs.stops_pure _
    case isFalse => exact (dbget_stops type _).bind fun _ => Fs.stops_pure _

theorem walk_stops (isdir mkit : Bool) (p : List Nat) (addrp : Slot) : (walk isdir mkit p addrp).Stops := by
  induction p generalizing addrp
  case nil => exact block_stops isdir mkit DBdata addrp
  case cons idx p ih =>
    refine (block_stops isdir mkit _ addrp).bind fun b => ?_
    cases b
    case none => exact ih addrp
    case some b => exact ih (.ptr b idx)

theorem fileblock_stops (isdir mkit : Bool) (type : Nat) (addrp : Slot) : (fileblock isdir mkit type addrp).Stops := by
  rw [fileblock]
  split
  case isTrue => exact getmelted_stops isdir type addrp
  case isFalse =>
    exact Fs.stops_get.bind fun s => (dbget_stops type _).bind fun _ => Fs.stops_pure _

theorem read_of_block {b : Option Nat} (h : (block isdir false type r).exec s = (.ok b, s')) :
    s' = s ∧ b = if s.read r = 0 then none else some (s.read r) := by
  by_cases hz : s.read r = 0
  case pos =>
    simp [block, hz] at h
    exact ⟨h.right.symm, by rw [if_pos hz, h.left]⟩
  case neg =>
    obtain ⟨_, s₁, hs₁, h⟩ := Fs.bind_eq_ok_iff.mp h
    obtain ⟨rfl, rfl⟩ : s = _ ∧ s = s₁ := by simpa using hs₁
    simp only [hz, false_and, if_false, Bool.false_eq_true] at h
    obtain ⟨_, s₁, hd, h⟩ := Fs.bind_eq_ok_iff.mp h
    obtain ⟨-, -, -, rfl⟩ := dbget_eq_ok_iff.mp hd
    obtain ⟨rfl, rfl⟩ : some (s.read r) = b ∧ s = s' := by simpa using h
    exact ⟨rfl, by rw [if_neg hz]⟩

theorem find_of_walk {b : Option Nat} (h : (walk isdir false p r).exec s = (.ok b, s')) : s' = s ∧ b = s.find p r := by
  induction p generalizing r s
  case nil => exact read_of_block h
  case cons idx p ih =>
    obtain ⟨b₁, s₁, hb, h⟩ := Fs.bind_eq_ok_iff.mp h
    obtain ⟨rfl, rfl⟩ := read_of_block hb
    by_cases hz : s₁.read r = 0
    case pos =>
      rw [if_pos hz] at h
      obtain ⟨rfl, rfl⟩ := ih h
      refine ⟨rfl, ?_⟩
      rw [Blks.find, if_pos hz]
      cases p <;> rw [Blks.find, if_pos hz]
    case neg =>
      rw [if_neg hz] at h
      rw [Blks.find, if_neg hz]
      exact ih h

theorem read_of_fileblock (h : (fileblock isdir false type r).exec s = (.ok a, s')) :
    s' = s ∧ a = s.read r ∧ s.read r ≠ 0 := by
  obtain ⟨_, s₁, hs₁, h⟩ := Fs.bind_eq_ok_iff.mp h
  obtain ⟨rfl, rfl⟩ : s = _ ∧ s = s₁ := by simpa using hs₁
  obtain ⟨_, s₁, hd, h⟩ := Fs.bind_eq_ok_iff.mp h
  obtain ⟨hle, -, -, rfl⟩ := dbget_eq_ok_iff.mp hd
  obtain ⟨rfl, rfl⟩ : s.read r = a ∧ s = s' := by simpa using h
  exact ⟨rfl, rfl, Nat.ne_of_gt (Nat.lt_of_lt_of_le (by decide) hle)⟩

theorem getmelted_again (h : (getmelted isdir type r).exec s = (.ok a, s₁)) (hs : s.Wf) (hr : r.Live s type) :
    (getmelted isdir type r).exec s₁ = (.ok a, s₁) := by
  have hren := (got_of_getmelted h).renews hs hr
  obtain ⟨b, hb, hfr, ht⟩ := hren.holds
  have hget : (dbget type a).exec s₁ = (.ok b, s₁) := dbget_eq_ok_iff.mpr ⟨hren.le, hb, ht, rfl⟩
  have ha : a ≠ 0 := Nat.ne_of_gt (Nat.lt_of_lt_of_le (by decide) hren.le)
  simp [getmelted, hren.read, ha, hget, hfr]

theorem walk_again (h : (getmelted isdir (DBdata + p.length) r).exec s = (.ok a, s₁)) (hs : s.Wf)
    (hr : r.Live s (DBdata + p.length)) : (walk isdir true p r).exec s₁ = (walk isdir true p r).exec s := by
  have hagain := getmelted_again h hs hr
  cases p
  case nil =>
    have h : (getmelted isdir DBdata r).exec s = (.ok a, s₁) := h
    have hagain : (getmelted isdir DBdata r).exec s₁ = (.ok a, s₁) := hagain
    rw [walk, exec_block_mkit, exec_block_mkit, Fs.exec_map, Fs.exec_map, h, hagain]
  case cons idx p =>
    rw [List.length_cons] at h hagain
    rw [walk, Fs.exec_bind, Fs.exec_bind, exec_block_mkit, exec_block_mkit, Fs.exec_map, Fs.exec_map, h, hagain]

-- `dfblk` goes to the block at the end of a path, or something is wrong with a block that is on it.
def Reaches (isdir mkit : Bool) (s : Blks) (bno : Nat) (l : Loc) : Prop :=
  match (dfblk isdir bno mkit).exec s with
  | (.error e, _) => e.isblock
  | (.ok b, s')   =>
    if mkit then ∃ a, b = some a ∧ Melts l.path l.slot s a s' else s' = s ∧ b = s.find l.path l.slot

theorem Located.valid (h : Located bno l) : l.Valid := by
  cases h
  case direct h => exact h
  case single h h' =>
    refine ⟨by decide, rfl, fun idx hidx => ?_⟩
    obtain rfl := List.mem_singleton.mp hidx
    exact (by omega : bno - 8 < 2047)
  case double h h' =>
    have hdiv : (bno - 2055) / 2047 < 2047 := by omega
    have hmod : (bno - 2055) % 2047 < 2047 := by omega
    exact ⟨by decide, rfl, List.forall_mem_cons.mpr ⟨hdiv, List.forall_mem_singleton.mpr hmod⟩⟩

theorem exec_dfblk_direct (h : bno < Ndptr) (s : Blks) :
    (dfblk isdir bno mkit).exec s = (some <$> fileblock isdir mkit DBdata (.dptr bno)).exec s := by
  rw [dfblk, if_pos h]
  simp

theorem exec_dfblk_indirect {i : Nat} (h : Located bno (.indirect i p)) (s : Blks) :
    (dfblk isdir bno mkit).exec s =
      (fileblock isdir mkit (DBdata + p.length) (.iptr i) >>= fun _ => walk isdir mkit p (.iptr i)).exec s := by
  have hb : 8 ≤ bno := by cases h <;> omega
  obtain ⟨i', b, nblks, p', hf, hp, he⟩ := indirect_of_locate (locate_eq_ok_iff.mpr h) hb
  cases he
  have htype : DBptr0 + i = DBdata + p.length := by rw [h.length, Nat.add_right_comm, Nat.add_assoc]
  rw [dfblk, if_neg (Nat.not_lt.mpr hb), hf, ← htype, Fs.exec_bind]
  simp only [Fs.exec_bind, exec_descend hp]

theorem stops_of_located (h : Located bno l) : (dfblk isdir bno mkit).Stops := by
  intro s e s' he
  cases l
  case direct b =>
    have hb : bno < Ndptr := by cases h; assumption
    rw [exec_dfblk_direct hb, map_eq_pure_bind] at he
    exact (fileblock_stops isdir mkit DBdata _).bind (fun _ => Fs.stops_pure _) s e s' he
  case indirect i p =>
    rw [exec_dfblk_indirect h] at he
    exact (fileblock_stops isdir mkit _ _).bind (fun _ => walk_stops isdir mkit p _) s e s' he

theorem melts_of_dfblk {b : Option Nat} (h : Located bno l) (hs : s.Wf) (hd : (dfblk isdir bno true).exec s = (.ok b, s')) :
    ∃ a, b = some a ∧ Melts l.path l.slot s a s' := by
  have hr : l.slot.Live s (DBdata + l.path.length) := by cases l <;> trivial
  suffices hw : (walk isdir true l.path l.slot).exec s = (.ok b, s') by
    obtain ⟨a, hb, hw⟩ := walked_of_walk hw hs hr
    exact ⟨a, hb, hw.toMelts⟩
  cases l
  case direct b' =>
    have hb : bno < Ndptr ∧ bno = b' := by
      cases h
      exact ⟨by assumption, rfl⟩
    obtain ⟨hb, rfl⟩ := hb
    rw [exec_dfblk_direct hb] at hd
    exact exec_block_mkit.trans hd
  case indirect i p =>
    rw [exec_dfblk_indirect h] at hd
    obtain ⟨a, s₁, hg, hd⟩ := Fs.bind_eq_ok_iff.mp hd
    exact (walk_again hg hs hr).symm.trans hd

theorem find_of_dfblk {b : Option Nat} (h : Located bno l) (hd : (dfblk isdir bno false).exec s = (.ok b, s')) :
    s' = s ∧ b = s.find l.path l.slot := by
  cases l
  case direct b' =>
    have hb : bno < Ndptr ∧ bno = b' := by
      cases h
      exact ⟨by assumption, rfl⟩
    obtain ⟨hb, rfl⟩ := hb
    rw [exec_dfblk_direct hb, map_eq_pure_bind] at hd
    obtain ⟨a, s₁, hf, hd⟩ := Fs.bind_eq_ok_iff.mp hd
    obtain ⟨rfl, rfl, hz⟩ := read_of_fileblock hf
    obtain ⟨rfl, rfl⟩ : some (s₁.read (.dptr bno)) = b ∧ s₁ = s' := by simpa using hd
    exact ⟨rfl, (if_neg hz).symm⟩
  case indirect i p =>
    rw [exec_dfblk_indirect h] at hd
    obtain ⟨a, s₁, hf, hw⟩ := Fs.bind_eq_ok_iff.mp hd
    obtain ⟨rfl, -⟩ := read_of_fileblock hf
    exact find_of_walk hw

theorem reaches_of_located (h : Located bno l) (hs : s.Wf) : Reaches isdir mkit s bno l := by
  rw [Reaches]
  rcases hd : (dfblk isdir bno mkit).exec s with ⟨e | b, s'⟩
  case error => exact stops_of_located h s e s' hd
  case ok =>
    cases mkit
    case true => exact melts_of_dfblk h hs hd
    case false => exact find_of_dfblk h hd

end

variable {s : Blks} {l : Loc} {bno n : Nat}

attribute [local simp] Fs.exec_bind Fs.exec_map Fs.exec_pure Fs.exec_throw Fs.exec_get Fs.exec_modify

-- How many blocks there is room for.
def capacity : Nat :=
  Ndptr + ((List.range Niptr).map fun i => Dptrperblk ^ (i + 1)).sum

-- A block has its own place, at which it is found. The number of a block is cut when `dfblk` is called.
def Placed (n : Nat) : Prop :=
  ∃ l, locate (ulong n) = .ok l ∧ l.Valid ∧ (∀ m < n, locate (ulong m) ≠ .ok l) ∧
    ∀ isdir mkit s, s.Wf → Reaches isdir mkit s (ulong n) l

def Refused (n : Nat) : Prop :=
  ∀ isdir mkit s, (dfblk isdir (ulong n) mkit).exec s = (.error .capacity, s)

def Addressed (n : Nat) : Prop :=
  if n < capacity then Placed n else Refused n

theorem exists_located (h : bno < 4192264) : ∃ l, Located bno l := by
  by_cases hd : bno < 8
  case pos => exact ⟨_, .direct hd⟩
  case neg =>
    by_cases hs : bno < 2055
    case pos => exact ⟨_, .single (Nat.not_lt.mp hd) hs⟩
    case neg => exact ⟨_, .double (Nat.not_lt.mp hs) h⟩

theorem ulong_eq (h : bno < 4192264) : ulong bno = bno :=
  Nat.mod_eq_of_lt <| h.trans (by decide)

theorem placed_iff : Placed n ↔ n < 4192264 := by
  constructor
  case mp =>
    rintro ⟨l, hl, -, hlt, -⟩
    have hn := (locate_eq_ok_iff.mp hl).lt
    refine Nat.lt_of_not_le fun hle => hlt (ulong n) (hn.trans_le hle) ?_
    rwa [ulong_eq hn]
  case mpr =>
    intro hn
    obtain ⟨l, hl⟩ := exists_located hn
    have hu := ulong_eq hn
    refine ⟨l, (congrArg locate hu).trans (locate_eq_ok_iff.mpr hl), hl.valid, fun m hm hml => ?_, fun _ _ _ hs => ?_⟩
    case refine_2 =>
      rw [hu]
      exact reaches_of_located hl hs
    rw [ulong_eq (hm.trans hn)] at hml
    exact Nat.ne_of_lt hm <| (locate_eq_ok_iff.mp hml).inj hl

-- An empty file on a disk that is full.
def full : Blks where
  dptr _ := 0
  iptr _ := 0
  blk _  := none
  ref _  := 0
  free   := []
  melts  := []

theorem findptr_ne_none (n : Nat) : findptr Niptr 0 (ulong n - Ndptr) Dptrperblk ≠ none := by
  have hlt : ulong n < 4294967296 := Nat.mod_lt _ (by decide)
  have hlast : ulong n - 8 - 2047 - 2047 ^ 2 - 4282390527 < 25157633 := by omega
  rw [findptr_eq, if_pos hlast]
  repeat' split
  all_goals exact Option.some_ne_none _

theorem not_refused (n : Nat) : ¬Refused n := by
  intro h
  have h := h false true full
  have hfree : full.free = [] := rfl
  have hfull (type : Nat) {r : Slot} (hr : full.read r = 0) :
      (fileblock false true type r).exec full = (.error .full, full) := by
    simp [fileblock, getmelted, hr, dballoc, newblkaddr, hfree]
  by_cases hb : ulong n < Ndptr
  case pos =>
    rw [exec_dfblk_direct hb, Fs.exec_map, hfull DBdata rfl] at h
    cases h
  case neg =>
    obtain ⟨⟨i, b, nblks⟩, hf⟩ := Option.ne_none_iff_exists'.mp (findptr_ne_none n)
    rw [dfblk, if_neg hb, hf, Fs.exec_bind, hfull _ rfl] at h
    cases h

end Creepy.Fblk
