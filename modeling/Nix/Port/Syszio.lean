import Nix.Lib.Machine
import Nix.Lib.Pieces
import Mathlib.Data.List.Chain

namespace Port.Syszio

structure Map where
  free : Bool
  addr : Nat
  size : Nat
deriving DecidableEq, Repr

inductive Fault
  | panic (msg : String)
  | nil
deriving DecidableEq, Repr

-- The only map that there is once the segment has been made.
def newzmap (base size : Nat) : List Map :=
  [{ free := true, addr := base, size := size }]

-- The map that the address is looked up in starts at or before `addr`, and `prev` are the maps before it.
def zmapfreeAt (prev : List Map) (mp : Map) (rest : List Map) (addr : Nat) : Except Fault (List Map) :=
  if mp.free then
    .error (.panic "zmapfree: already free")
  else
    let (prev, mp) := match prev.getLast? with
      | some p =>
        if p.free ∧ p.addr + p.size = addr then
          (prev.dropLast, { p with size := p.size + mp.size })
        else
          (prev, mp)
      | none => (prev, mp)
    match rest with
    | next :: rest =>
      if next.free ∧ mp.addr + mp.size = next.addr then
        .ok (prev ++ { mp with size := mp.size + next.size, free := true } :: rest)
      else
        .ok (prev ++ mp :: next :: rest)
    | [] => .ok (prev ++ [mp])

def zmapfree (map : List Map) (addr : Nat) : Except Fault (List Map) :=
  match map.span fun mp => addr < mp.addr with
  | (_, [])            => .error (.panic "zmapfree: no map")
  | (prev, mp :: rest) => zmapfreeAt prev mp rest addr

-- The map that `size` bytes are taken from, and what it leaves if it is larger.
def Map.taken (mp : Map) (size : Nat) : List Map :=
  if size < mp.size then
    [{ mp with size := size, free := false },
      { mp with addr := mp.addr + size, size := mp.size - size, free := true }]
  else
    [{ mp with free := false }]

-- The test for the end of the list comes after the loop, which has followed the last map's link by then.
def zmapalloc (size : Nat) : List Map → Except Fault (Nat × List Map)
  | [] => .error .nil
  | mp :: rest =>
    if mp.free = false ∨ mp.size < size then do
      let (addr, rest) ← zmapalloc size rest
      return (addr, mp :: rest)
    else
      return (mp.addr, mp.taken size ++ rest)

-- A part of the segment.
structure Region where
  addr : Nat
  size : Nat
deriving DecidableEq, Repr

def Region.Disjoint (r r' : Region) : Prop :=
  r.addr + r.size ≤ r'.addr ∨ r'.addr + r'.size ≤ r.addr

def Map.region (mp : Map) : Region where
  addr := mp.addr
  size := mp.size

structure State where
  map  : List Map
  live : List Region

inductive Act
  | zmapalloc (size : Nat)
  | zmapfree (r : Region)

-- The callers free what they have been given and have not freed yet.
def State.step (s : State) : Act → Option State
  | .zmapalloc size =>
    match Syszio.zmapalloc size s.map with
    | .ok (addr, map) => some { map := map, live := ⟨addr, size⟩ :: s.live }
    | .error _        => none
  | .zmapfree r =>
    if r ∈ s.live then
      match Syszio.zmapfree s.map r.addr with
      | .ok map  => some { map := map, live := s.live.erase r }
      | .error _ => none
    else
      none

def machine (base size : Nat) : Machine State Act where
  init s := s = { map := newzmap base size, live := [] }
  step   := State.step

def freelen (map : List Map) : Nat :=
  ((map.filter Map.free).map Map.size).sum

def Fits (map : List Map) (size : Nat) : Prop :=
  ∃ mp ∈ map, mp.free ∧ size ≤ mp.size

def Map.Apart (mp next : Map) : Prop :=
  ¬(mp.free ∧ next.free)

structure Sound (base size : Nat) (s : State) : Prop where
  disjoint : s.live.Pairwise Region.Disjoint
  inside   : ∀ r ∈ s.live, base ≤ r.addr ∧ r.addr + r.size ≤ base + size
  total    : freelen s.map + (s.live.map Region.size).sum = size
  merged   : s.map.IsChain Map.Apart

-- What an allocation comes to. Where there is no room for it, the loop runs into the end of the list.
structure Allocates (map : List Map) : Prop where
  fits : ∀ n, Fits map n → ∃ a map', zmapalloc n map = .ok (a, map') ∧ a ≠ 0
  full : ∀ n, ¬Fits map n → zmapalloc n map = .error .nil

-- There is room for what is allocated, and what is freed is the first map, with a free one next to it.
def Foremost (s : State) : Act → Prop
  | .zmapalloc size => Fits s.map size
  | .zmapfree r     => ∃ mp ∈ s.map[0]?, ∃ next ∈ s.map[1]?, mp.addr = r.addr ∧ mp.free = false ∧ next.free

instance : Decidable (Fits map size) :=
  inferInstanceAs (Decidable (∃ mp ∈ map, mp.free ∧ size ≤ mp.size))

instance : ∀ s a, Decidable (Foremost s a)
  | s, .zmapalloc size => inferInstanceAs (Decidable (Fits s.map size))
  | s, .zmapfree _     => inferInstanceAs (Decidable (∃ mp ∈ s.map[0]?, ∃ next ∈ s.map[1]?, _))

variable {base size n a : Nat} {map map' pre post : List Map} {mp next : Map} {s s' : State}

def regions (map : List Map) : List Region :=
  (map.filter (! ·.free)).map Map.region

@[simp]
theorem regions_append : regions (pre ++ post) = regions pre ++ regions post := by
  simp [regions]

@[simp]
theorem regions_cons_free (h : mp.free = true) : regions (mp :: map) = regions map := by
  simp [regions, h]

@[simp]
theorem regions_cons_used (h : mp.free = false) : regions (mp :: map) = mp.region :: regions map := by
  simp [regions, h]

theorem freelen_add_regions : freelen map + ((regions map).map Region.size).sum = (map.map Map.size).sum := by
  induction map
  case nil => rfl
  case cons mp map ih =>
    cases h : mp.free <;> simp [freelen, h, Map.region] at ih ⊢ <;> omega

-- The maps fill the segment, no two free ones lie next to each other, and the others are the live regions.
structure Rep (base size : Nat) (s : State) : Prop where
  tiles  : Tiles Map.addr Map.size base s.map (base + size)
  merged : s.map.IsChain Map.Apart
  pos    : ∀ mp ∈ s.map, mp.free → 0 < mp.size
  live   : s.live.Perm (regions s.map)

theorem Rep.sound (h : Rep base size s) : Sound base size s where
  merged := h.merged
  total := by
    have := h.tiles.sum
    rw [(h.live.map _).sum_eq, freelen_add_regions]
    omega
  inside r hr := by
    obtain ⟨mp, hmp, rfl⟩ := List.mem_map.mp (h.live.mem_iff.mp hr)
    exact h.tiles.bounds (List.mem_of_mem_filter hmp)
  disjoint := by
    rw [h.live.pairwise_iff (fun h => h.symm), regions, List.pairwise_map]
    exact (h.tiles.pairwise.imp fun h => .inl h).sublist List.filter_sublist

theorem zmapalloc_isOk : (∃ a map', zmapalloc n map = .ok (a, map')) ↔ Fits map n := by
  induction map
  case nil => simp [zmapalloc, Fits]
  case cons mp map ih =>
    rw [zmapalloc, Fits, List.exists_mem_cons_iff, ← Fits]
    split
    case isTrue h =>
      have : ¬(mp.free ∧ n ≤ mp.size) := by
        rcases h with h | h
        · simp [h]
        · exact fun hm => absurd hm.right (Nat.not_le.mpr h)
      rw [or_iff_right this, ← ih]
      cases zmapalloc n map with
      | error => simp
      | ok r => simp [Prod.ext_iff]
    case isFalse h =>
      simp at h
      exact iff_of_true ⟨_, _, rfl⟩ (.inl h)

theorem zmapalloc_eq_ok (h : zmapalloc n map = .ok (a, map')) : ∃ pre mp post, map = pre ++ mp :: post ∧
    mp.free ∧ n ≤ mp.size ∧ a = mp.addr ∧ map' = pre ++ (mp.taken n ++ post) := by
  induction map generalizing map'
  case nil => contradiction
  case cons mp map ih =>
    rw [zmapalloc] at h
    split at h
    case isTrue =>
      cases hrest : zmapalloc n map with
      | error => simp [hrest] at h
      | ok r =>
        obtain ⟨b, rest⟩ := r
        simp [hrest] at h
        obtain ⟨pre, mp', post, rfl, hfree, hle, ha, hr⟩ := ih (h.left ▸ hrest)
        exact ⟨mp :: pre, mp', post, rfl, hfree, hle, ha, by simp [← h.right, hr]⟩
    case isFalse hc =>
      cases h
      simp at hc
      exact ⟨[], mp, map, rfl, hc.left, hc.right, rfl, rfl⟩

@[simp]
theorem Map.taken_free (hle : n ≤ mp.size) : regions (mp.taken n) = [⟨mp.addr, n⟩] := by
  rw [Map.taken]
  split
  case isTrue => simp [regions, Map.region]
  case isFalse h => simp [regions, Map.region]; omega

theorem Map.taken_tiles (hle : n ≤ mp.size) (h : Tiles Map.addr Map.size lo (mp :: post) hi) :
    Tiles Map.addr Map.size lo (mp.taken n ++ post) hi := by
  obtain ⟨rfl, h⟩ := h
  rw [Map.taken]
  split
  case isTrue =>
    refine ⟨rfl, rfl, ?_⟩
    simpa [Nat.add_assoc, Nat.add_sub_cancel' hle] using h
  case isFalse => exact ⟨rfl, h⟩

theorem Map.taken_pos (hp : ∀ mp' ∈ post, mp'.free → 0 < mp'.size) (mp' : Map) (hm : mp' ∈ mp.taken n ++ post)
    (hf : mp'.free) : 0 < mp'.size := by
  rcases List.mem_append.mp hm with hm | hm
  · rw [Map.taken] at hm
    split at hm <;> simp at hm
    case isTrue h =>
      rcases hm with rfl | rfl
      · simp at hf
      · exact Nat.sub_pos_of_lt h
    case isFalse => simp [hm] at hf
  · exact hp mp' hm hf

theorem Map.taken_merged (hf : mp.free) (h : (pre ++ mp :: post).IsChain Map.Apart) :
    (pre ++ (mp.taken n ++ post)).IsChain Map.Apart := by
  rw [List.isChain_append] at h ⊢
  obtain ⟨hpre, hmp, -⟩ := h
  rw [List.isChain_cons] at hmp
  rw [Map.taken]
  split
  case isTrue =>
    refine ⟨hpre, ?_, by simp [Map.Apart]⟩
    simpa [List.isChain_cons, Map.Apart, hf] using hmp
  case isFalse =>
    refine ⟨hpre, ?_, by simp [Map.Apart]⟩
    exact List.isChain_cons.mpr ⟨by simp [Map.Apart], hmp.right⟩

theorem Rep.zmapalloc (h : Rep base size s) (ha : zmapalloc n s.map = .ok (a, map)) :
    Rep base size { map := map, live := ⟨a, n⟩ :: s.live } := by
  obtain ⟨pre, mp, post, hmap, hf, hle, rfl, rfl⟩ := zmapalloc_eq_ok ha
  have ⟨htiles, hmerged, hpos, hlive⟩ := h
  rw [hmap] at htiles hmerged hpos hlive
  obtain ⟨mid, hpre, hpost⟩ := Tiles.append_iff.mp htiles
  refine ⟨?_, ?_, ?_, ?_⟩
  · exact Tiles.append_iff.mpr ⟨mid, hpre, Map.taken_tiles hle hpost⟩
  · exact Map.taken_merged hf hmerged
  · intro mp' hm
    rcases List.mem_append.mp hm with hm | hm
    · exact hpos mp' (List.mem_append_left _ hm)
    · exact Map.taken_pos (fun mp' hm => hpos mp' (by simp [hm])) mp' hm
  · simp [regions_cons_free hf] at hlive
    simp [Map.taken_free hle]
    exact (hlive.cons _).trans List.perm_middle.symm

theorem zmapfree_first (hf : mp.free = false) (hn : next.free) (hadj : mp.addr + mp.size = next.addr) :
    zmapfree (mp :: next :: map) mp.addr = .ok ({ mp with size := mp.size + next.size, free := true } :: map) := by
  simp [zmapfree, zmapfreeAt, hf, hn, hadj, List.span_eq_takeWhile_dropWhile]

-- No live region other than the first map's is at the first map's address.
theorem Rep.eq_region (h : Rep base size s) (hm : s.map = mp :: next :: map) (hf : mp.free = false) (hn : next.free)
    (hr : r ∈ s.live) (ha : mp.addr = r.addr) : r = mp.region := by
  have hmem := h.live.mem_iff.mp hr
  rw [hm, regions_cons_used hf, regions_cons_free hn, List.mem_cons] at hmem
  rcases hmem with hmem | hmem
  case inl => exact hmem
  case inr =>
    obtain ⟨mp', hmp', rfl⟩ := List.mem_map.mp hmem
    have hpos := h.pos next (by simp [hm]) hn
    have htiles := h.tiles
    rw [hm] at htiles
    have := htiles.right.right.bounds (List.mem_of_mem_filter hmp')
    have := htiles.left
    rw [Map.region] at ha
    dsimp only at ha
    omega

theorem Rep.zmapfree (h : Rep base size s) (hc : Foremost s (.zmapfree r)) (hr : r ∈ s.live)
    (hz : zmapfree s.map r.addr = .ok map) : Rep base size { map := map, live := s.live.erase r } := by
  obtain ⟨mp, hmp, next, hnext, ha, hf, hn⟩ := hc
  obtain ⟨rest, hm⟩ : ∃ rest, s.map = mp :: next :: rest := by
    rcases hs : s.map with - | ⟨_, - | _⟩ <;> simp [hs] at hmp hnext
    exact ⟨_, by rw [hmp, hnext]⟩
  obtain rfl := h.eq_region hm hf hn hr ha
  have ⟨htiles, hmerged, hpos, hlive⟩ := h
  rw [hm] at htiles hmerged hpos hlive hz
  obtain ⟨haddr, hadj, hrest⟩ := htiles
  rw [Map.region, zmapfree_first hf hn (haddr ▸ hadj.symm)] at hz
  cases hz
  rw [List.isChain_cons, List.isChain_cons] at hmerged
  refine ⟨?_, ?_, ?_, ?_⟩
  · exact ⟨haddr, by rwa [← Nat.add_assoc]⟩
  · refine List.isChain_cons.mpr ⟨fun x hx hb => ?_, hmerged.right.right⟩
    exact hmerged.right.left x hx ⟨hn, hb.right⟩
  · intro x hx hxf
    rcases List.mem_cons.mp hx with rfl | hx
    · exact Nat.add_pos_right _ (hpos next (by simp) hn)
    · exact hpos x (by simp [hx]) hxf
  · rw [regions_cons_used hf, regions_cons_free hn] at hlive
    rw [regions_cons_free rfl]
    simpa using hlive.erase mp.region

theorem rep_of_foremost (hs : 0 < size) : (machine base size).Invariant Foremost (Rep base size) where
  init {s} hi := by
    obtain rfl := hi
    refine ⟨?_, ?_, ?_, ?_⟩
    · exact ⟨rfl, rfl⟩
    · exact .singleton _
    · simpa [newzmap] using hs
    · simp [newzmap, regions]
  step {s a s'} h hc hs := by
    cases a <;> simp only [machine, State.step] at hs
    case zmapalloc n =>
      split at hs <;> cases hs
      exact h.zmapalloc ‹_›
    case zmapfree r =>
      split at hs
      case isFalse => cases hs
      case isTrue hr =>
        split at hs <;> cases hs
        exact h.zmapfree hc hr ‹_›

theorem zmapalloc_error (h : zmapalloc n map = .error e) : e = .nil := by
  induction map
  case nil => cases h; rfl
  case cons mp map ih =>
    rw [zmapalloc] at h
    split at h
    case isFalse => cases h
    case isTrue =>
      cases hz : zmapalloc n map with
      | ok => simp [hz] at h
      | error => exact ih (by simpa [hz] using h)

theorem Rep.allocates (hb : 0 < base) (h : Rep base size s) : Allocates s.map where
  fits n hn := by
    obtain ⟨a, map', hz⟩ := zmapalloc_isOk.mpr hn
    obtain ⟨pre, mp, post, hm, -, -, rfl, -⟩ := zmapalloc_eq_ok hz
    have := (h.tiles.bounds (x := mp) (by simp [hm])).left
    exact ⟨_, _, hz, by omega⟩
  full n hn := by
    cases hz : Syszio.zmapalloc n s.map with
    | ok r => exact absurd (zmapalloc_isOk.mp ⟨_, _, hz⟩) hn
    | error => rw [zmapalloc_error hz]

theorem zmap_sound (hb : 0 < base) (hs : 0 < size) (hr : (machine base size).Reachable Foremost s) :
    Sound base size s ∧ Allocates s.map :=
  have h := (rep_of_foremost hs).holds hr
  ⟨h.sound, h.allocates hb⟩

def fresh : State where
  map  := newzmap 4096 100
  live := []

-- The region after the first one is freed, and no map changes.
def stuck : State :=
  ((machine 4096 100).exec fresh [.zmapalloc 10, .zmapalloc 20, .zmapfree ⟨4106, 20⟩]).get (by decide +kernel)

theorem region_lost : (machine 4096 100).Reachable (fun _ _ => True) stuck ∧ ¬Sound 4096 100 stuck ∧
    ¬Fits stuck.map 71 ∧ ∀ map, zmapalloc 71 stuck.map ≠ .ok (0, map) := by
  refine ⟨(Machine.Reachable.init rfl).exec (fun _ _ _ => trivial) (Option.some_get _).symm, fun h => ?_, ?_, ?_⟩
  · exact absurd h.total (by decide +kernel)
  · decide +kernel
  · have : zmapalloc 71 stuck.map = .error .nil := by decide +kernel
    simp [this]

-- A region is freed and allocated again.
def reused : State :=
  (((machine 4096 100).guarded Foremost).exec fresh
    [.zmapalloc 10, .zmapfree ⟨4096, 10⟩, .zmapalloc 20, .zmapalloc 30]).get (by decide +kernel)

theorem reused_sound : Sound 4096 100 reused ∧ Allocates reused.map :=
  zmap_sound (by decide) (by decide) ((Machine.Reachable.init rfl).guarded (Option.some_get _).symm)

end Port.Syszio
