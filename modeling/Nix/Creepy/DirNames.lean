import Nix.Creepy.Dir

namespace Creepy.Dir

section

open Fblk

variable {f f' : File} {s s' : State}

-- The first entry for `addr` is changed.
structure Change (f f' : File) (addr naddr j : Nat) : Prop where
  same   : File.Same f f'
  length : f'.length = f.length
  solid  : ∀ pos, f.solid pos ∨ pos < (j + 1) * Daddrsz → f'.solid pos
  old    : entry f j = addr
  le     : (j + 1) * Daddrsz ≤ f.capacity
  entry  : ∀ i, (i + 1) * Daddrsz ≤ f.capacity → entry f' i = if i = j then naddr else entry f i

theorem room_ge (f : File) (k : Nat) : Daddrsz ≤ f.room (k * Daddrsz) := by
  have hm := room_mod f k
  have hp : 0 < f.room (k * Daddrsz) := f.room_pos
  simp only [Daddrsz] at *
  omega

theorem Found.change (hf : Found f f' addr 0 j) (hn : naddr < 2 ^ 64)
    (hs : f'.store (j * Daddrsz) (LittleEndian.encode Daddrsz naddr) = .ok (n, f'')) :
    Change f f'' addr naddr j := by
  have hcap := hf.same.capacity
  have ⟨hlen, hw, hl⟩ := File.store_eq_ok hs (by have := hf.le; simp only [Daddrsz] at *; omega)
  have htake : (LittleEndian.encode Daddrsz naddr).take n = LittleEndian.encode Daddrsz naddr := by
    refine List.take_of_length_le ?_
    have hroom := room_ge f' j
    rw [LittleEndian.encode_length] at hlen ⊢
    omega
  exact
    { same := hf.same.trans hw.same
      length := hl.trans hf.length
      solid := fun pos hp => by
        refine File.solid_store hs <| hf.solid pos <| hp.imp id fun hp => ?_
        exact ⟨Nat.zero_mul Daddrsz ▸ Nat.zero_le _, hp⟩
      old := hf.entry
      le := hf.le
      entry := fun i hi => by
        rw [← entry_congr hf.stored]
        exact entry_overwrite hn (htake ▸ hw.stored) (hcap ▸ hi) }

theorem dfchdentry_found (h : s.dfchdentry addr naddr = .ok s') (hn : naddr < 2 ^ 64) :
    addr ≠ naddr ∧ s'.ndents ≤ s'.d.length / Daddrsz ∧
      ∃ j f, Change s.d f addr naddr j ∧ (∀ i < j, entry s.d i ≠ addr) ∧ s' = s.chdentry addr naddr (j * Daddrsz) f := by
  rw [State.dfchdentry] at h
  split at h
  case isTrue => contradiction
  case isFalse hne =>
    cases hl : chloop addr Nslices s.d 0
    case error => rw [hl] at h; contradiction
    case ok p =>
      obtain ⟨f₁, off⟩ := p
      have hcap : 0 * Daddrsz < s.d.capacity := by
        rw [Nat.zero_mul, File.capacity]
        exact Nat.add_pos_right _ (by decide)
      obtain ⟨j, rfl, hf⟩ := chloop_eq_ok (k := 0) (Nat.zero_mul Daddrsz ▸ hl) hcap
      cases hs : f₁.store (j * Daddrsz) (LittleEndian.encode Daddrsz naddr)
      case error => simp only [hl, hs, bind, Except.bind] at h; contradiction
      case ok p =>
        obtain ⟨n, f₂⟩ := p
        simp only [hl, hs, bind, Except.bind] at h
        split at h
        case isTrue => contradiction
        case isFalse hle =>
          obtain rfl := Except.ok.inj h
          exact ⟨fun he => hne (.inl he), Nat.not_lt.mp hle, j, f₂, hf.change hn hs, fun i => hf.first i (Nat.zero_le i), rfl⟩

theorem dfchdentry_eq_ok (h : s.dfchdentry addr naddr = .ok s') (hn : naddr < 2 ^ 64) :
    addr ≠ naddr ∧ s'.ndents ≤ s'.d.length / Daddrsz ∧
      ∃ j f, Change s.d f addr naddr j ∧ s' = s.chdentry addr naddr (j * Daddrsz) f :=
  have ⟨hne, hle, j, f, hc, _, he⟩ := dfchdentry_found h hn
  ⟨hne, hle, j, f, hc, he⟩

-- There are no holes, and nothing is left past the end.
structure Layout (f : File) : Prop where
  mod   : f.length % Daddrsz = 0
  le    : f.length ≤ f.capacity
  solid : ∀ pos < f.length, f.solid pos
  free  : ∀ k, f.length ≤ k * Daddrsz → (k + 1) * Daddrsz ≤ f.capacity → entry f k = 0

namespace Layout

theorem index_lt_iff (h : Layout f) : k < f.length / Daddrsz ↔ (k + 1) * Daddrsz ≤ f.length := by
  have := h.mod
  simp only [Daddrsz] at *
  omega

theorem lt_of_entry (h : Layout f) (hk : (k + 1) * Daddrsz ≤ f.capacity) (he : entry f k ≠ 0) :
    (k + 1) * Daddrsz ≤ f.length := by
  have hm := h.mod
  have hlt := Nat.not_le.mp fun hle => he <| h.free k hle hk
  simp only [Daddrsz] at *
  omega

theorem change (h : Layout f) (hc : Change f f' addr naddr j) (hmod : len % Daddrsz = 0)
    (hge : f.length ≤ len) (hle : len ≤ max f.length ((j + 1) * Daddrsz))
    (hz : naddr = 0 ∨ (j + 1) * Daddrsz ≤ len) : Layout { f' with length := len } where
  mod := hmod
  le := by
    refine Nat.le_trans hle ?_
    exact hc.same.capacity ▸ Nat.max_le.mpr ⟨h.le, hc.le⟩
  solid := fun pos hp => by
    refine hc.solid pos ?_
    rcases lt_max_iff.mp (Nat.lt_of_lt_of_le hp hle) with hp | hp
    · exact .inl <| h.solid pos hp
    · exact .inr hp
  free := fun k hk hk' => by
    refine (hc.entry k (hc.same.capacity ▸ hk')).trans ?_
    split
    case isTrue hkj =>
      subst hkj
      refine hz.resolve_right fun hle => ?_
      simp only [Daddrsz] at *
      omega
    case isFalse => exact h.free k (Nat.le_trans hge hk) (hc.same.capacity ▸ hk')

end Layout

theorem mem_used_iff (h : Layout s.d) : k ∈ s.used ↔ (k + 1) * Daddrsz ≤ s.d.capacity ∧ entry s.d k ≠ 0 := by
  rw [State.used, Finset.mem_filter, Finset.mem_range, h.index_lt_iff]
  refine and_congr_left fun hk => ⟨fun hlt => Nat.le_trans hlt h.le, fun hlt => h.lt_of_entry hlt hk⟩

theorem entry_chdentry : entry (s.chdentry addr naddr off f).d = entry f := by
  rw [State.chdentry]
  split
  · rw [File.grow_eq]
    rfl
  · split <;> rfl

theorem capacity_chdentry : (s.chdentry addr naddr off f).d.capacity = f.capacity := by
  rw [State.chdentry]
  split
  · rw [File.grow_eq]
    rfl
  · split <;> rfl

-- What holds of a directory whatever the names of its children.
structure Shape (s : State) : Prop where
  layout : Layout s.d
  ndents : s.ndents = s.used.card

namespace Shape

theorem layout_chdentry (h : Shape s) (hc : Change s.d f addr naddr j) :
    Layout (s.chdentry addr naddr (j * Daddrsz) f).d := by
  have hl := h.layout
  have hlen : f.length = s.d.length := hc.length
  have hmod := hl.mod
  rw [State.chdentry]
  split
  case isTrue =>
    have hoff : j * Daddrsz + Daddrsz = (j + 1) * Daddrsz := (Nat.succ_mul ..).symm
    simp only [hoff, File.grow_eq, hlen]
    refine hl.change hc ?_ (Nat.le_max_left ..) (Nat.le_refl _) (.inr <| Nat.le_max_right ..)
    simp only [Daddrsz] at *
    omega
  case isFalse hnew =>
    have hd : Layout { f with length := s.d.length } := by
      refine hl.change hc hmod (Nat.le_refl _) (Nat.le_max_left ..) ?_
      by_cases hz : naddr = 0
      case pos => exact .inl hz
      case neg => exact .inr <| hl.lt_of_entry hc.le fun he => hnew ⟨hc.old ▸ he, hz⟩
    rw [← hlen] at hd
    split <;> exact hd

theorem used_chdentry (h : Shape s) (hc : Change s.d f addr naddr j) :
    (s.chdentry addr naddr (j * Daddrsz) f).used = if naddr = 0 then s.used.erase j else insert j s.used := by
  ext k
  have hcap : (s.chdentry addr naddr (j * Daddrsz) f).d.capacity = s.d.capacity :=
    capacity_chdentry.trans hc.same.capacity
  have hused := mem_used_iff h.layout (k := k)
  rw [mem_used_iff (h.layout_chdentry hc), entry_chdentry, hcap]
  by_cases hkj : k = j
  case pos =>
    subst hkj
    have he := hc.entry k hc.le
    rw [if_pos rfl] at he
    rw [he]
    split <;> simp_all [hc.le]
  case neg =>
    have he : (k + 1) * Daddrsz ≤ s.d.capacity → entry f k = entry s.d k := fun hk =>
      (hc.entry k hk).trans (if_neg hkj)
    rw [and_congr_right fun hk => by rw [he hk], ← hused]
    split <;> simp [hkj]

theorem chdentry (h : Shape s) (hc : Change s.d f addr naddr j) (hne : addr ≠ naddr) :
    Shape (s.chdentry addr naddr (j * Daddrsz) f) where
  layout := h.layout_chdentry hc
  ndents := by
    have hj : j ∈ s.used ↔ addr ≠ 0 := by simp [mem_used_iff h.layout, hc.le, hc.old]
    have hn := h.ndents
    rw [h.used_chdentry hc, State.chdentry]
    by_cases ha : addr = 0
    case pos =>
      have hz : naddr ≠ 0 := fun hz => hne (ha.trans hz.symm)
      rw [if_neg hz, if_pos ⟨ha, hz⟩, Finset.card_insert_of_notMem (mt hj.mp (not_not.mpr ha)), ← hn]
    case neg =>
      have hj := hj.mpr ha
      rw [if_neg fun h => ha h.left]
      by_cases hz : naddr = 0
      case pos =>
        rw [if_pos hz, if_pos ⟨ha, hz⟩, Finset.card_erase_of_mem hj, ← hn]
      case neg =>
        rw [if_neg hz, if_neg fun h => hz h.right, Finset.insert_eq_of_mem hj]
        exact hn

theorem used_eq_empty (h : Shape s) (hz : s.ndents = 0) : s.used = ∅ :=
  Finset.card_eq_zero.mp <| h.ndents ▸ hz

theorem reset (h : Shape s) (hz : s.ndents = 0) : Shape { s with d.length := 0 } where
  layout :=
    { mod := rfl
      le := Nat.zero_le _
      solid := fun pos hp => (Nat.not_lt_zero pos hp).elim
      free := fun k _ hk => by
        by_contra he
        have hk := (mem_used_iff h.layout (k := k)).mpr ⟨hk, he⟩
        exact Finset.notMem_empty k (h.used_eq_empty hz ▸ hk) }
  ndents := by
    have hempty : State.used { s with d.length := 0 } = ∅ := by simp [State.used]
    rw [hempty]
    exact hz

end Shape

end

open Fblk

variable {s s' : State}

namespace State

-- The name of the file of an entry.
def nameof (s : State) (k : Nat) : String :=
  (s.child (entry s.d k)).name

-- Another child that is linked has the name.
def clash (s : State) (a : Nat) (name : String) : Prop :=
  ∃ b, s.linked b ∧ b ≠ a ∧ (s.child b).name = name

end State

-- A name that is given to a child is not that of another one.
def Unused (s : State) : Act → Prop
  | .create name _ na => ¬s.clash na name
  | .rename a name    => s.linked a → ¬s.clash a name
  | _                 => True

structure Inv (s : State) : Prop where
  shape : Shape s
  names : Set.InjOn s.nameof s.used
  dots  : ∀ k ∈ s.used, s.nameof k ≠ ".."

theorem linked_entry (h : k ∈ s.used) : s.linked (entry s.d k) :=
  ⟨k, h, rfl⟩

theorem entry_of_used (h : Shape s) (hc : Change s.d f addr naddr j) (hk : k ∈ insert j s.used) :
    entry f k = if k = j then naddr else entry s.d k := by
  refine hc.entry k ?_
  rcases Finset.mem_insert.mp hk with rfl | hk
  · exact hc.le
  · exact (mem_used_iff h.layout |>.mp hk).left

-- What `dfchdentry` does to the names. `c` is what becomes the file at `naddr`.
theorem nameof_chdentry (off : Nat) (h : Shape s) (hc : Change s.d f addr naddr j) (hn : ∀ k ∈ s.used, entry s.d k ≠ naddr)
    (hk : k ∈ insert j s.used) :
    ((s.setchild naddr c).chdentry addr naddr off f).nameof k =
      if k = j then c.name else s.nameof k := by
  have hchild (t : State) : (t.chdentry addr naddr off f).child = t.child := by
    rw [State.chdentry]
    split
    · rfl
    · split <;> rfl
  rw [State.nameof, entry_chdentry, hchild, entry_of_used h hc hk]
  split
  case isTrue =>
    change (Function.update s.child naddr c naddr).name = c.name
    rw [Function.update_self]
  case isFalse hkj =>
    have hk := (Finset.mem_insert.mp hk).resolve_left hkj
    change (Function.update s.child naddr c (entry s.d k)).name = s.nameof k
    rw [Function.update_of_ne (hn k hk), State.nameof]

namespace Inv

theorem chdentry (h : Inv s) (hc : Change s.d f addr naddr j) (hne : addr ≠ naddr)
    (hn : ∀ k ∈ s.used, entry s.d k ≠ naddr)
    (hnames : naddr ≠ 0 → c.name ≠ ".." ∧ ∀ k ∈ s.used, s.nameof k = c.name → k = j) :
    Inv ((s.setchild naddr c).chdentry addr naddr (j * Daddrsz) f) := by
  have hshape : Shape (s.setchild naddr c) := ⟨h.shape.layout, h.shape.ndents⟩
  have hname {k} := nameof_chdentry (c := c) (k := k) (j * Daddrsz) h.shape hc hn
  have hused := hshape.used_chdentry hc
  have hs := hshape.chdentry hc hne
  generalize (s.setchild naddr c).chdentry addr naddr (j * Daddrsz) f = s' at *
  have hmem : ∀ k ∈ s'.used, k = j ∧ naddr ≠ 0 ∨ k ≠ j ∧ k ∈ s.used := by
    intro k hk
    rw [hused] at hk
    split at hk
    case isTrue => exact .inr <| Finset.mem_erase.mp hk
    case isFalse hz =>
      by_cases hkj : k = j
      case pos => exact .inl ⟨hkj, hz⟩
      case neg => exact .inr ⟨hkj, Finset.mem_of_mem_insert_of_ne hk hkj⟩
  have hj : s'.nameof j = c.name := (hname <| Finset.mem_insert_self ..).trans (if_pos rfl)
  have hother {k} (hkj : k ≠ j) (hk : k ∈ s.used) : s'.nameof k = s.nameof k :=
    (hname <| Finset.mem_insert_of_mem hk).trans (if_neg hkj)
  refine ⟨hs, ?names, ?dots⟩
  case names =>
    intro i hi k hk hik
    rcases hmem i hi with ⟨rfl, hz⟩ | ⟨hij, hi⟩ <;> rcases hmem k hk with ⟨rfl, hz'⟩ | ⟨hkj, hk⟩
    · rfl
    · rw [hj, hother hkj hk] at hik
      exact (hkj <| (hnames hz).right k hk hik.symm).elim
    · rw [hj, hother hij hi] at hik
      exact (hij <| (hnames hz').right i hi hik).elim
    · rw [hother hij hi, hother hkj hk] at hik
      exact h.names hi hk hik
  case dots =>
    intro k hk
    rcases hmem k hk with ⟨rfl, hz⟩ | ⟨hkj, hk⟩
    · exact hj ▸ (hnames hz).left
    · exact hother hkj hk ▸ h.dots k hk

theorem create (h : Inv s) (hc : Unused s (.create name dir na)) (hs : step s (.create name dir na) = some s') :
    Inv s' := by
  rw [step] at hs
  split at hs
  case isTrue => contradiction
  case isFalse hg =>
    simp only [not_or, not_not] at hg
    have ⟨_, hdots, _, hfresh⟩ := hg
    have ⟨hne, _, j, f, hch, he⟩ := dfchdentry_eq_ok (eq_ok_of_toOption hs) hfresh.right.left
    subst he
    refine h.chdentry hch hne hfresh.right.right fun _ => ⟨hdots, fun k hk hname => ?_⟩
    exact (hc ⟨_, linked_entry hk, hfresh.right.right k hk, hname⟩).elim

theorem melt (h : Inv s) (hs : step s (.melt a na) = some s') : Inv s' := by
  rw [step] at hs
  split at hs
  case isTrue => contradiction
  case isFalse hg =>
    simp only [not_or, not_not] at hg
    have ⟨ha, hfresh⟩ := hg
    have ⟨hne, _, j, f, hch, he⟩ := dfchdentry_eq_ok (eq_ok_of_toOption hs) hfresh.right.left
    subst he
    have hj : j ∈ s.used := (mem_used_iff h.shape.layout).mpr ⟨hch.le, hch.old ▸ ha⟩
    have hname : (s.child a).name = s.nameof j := by rw [State.nameof, ← hch.old]; rfl
    refine h.chdentry hch hne hfresh.right.right fun _ => ⟨hname ▸ h.dots j hj, fun k hk he => ?_⟩
    exact h.names hk hj (he.trans hname)

theorem reset (h : Inv s) (hz : s.ndents = 0) : Inv { s with d.length := 0 } := by
  have hempty : State.used { s with d.length := 0 } = ∅ := by simp [State.used]
  exact ⟨h.shape.reset hz, by simp [hempty], by simp [hempty]⟩

theorem remove (h : Inv s) (hs : step s (.remove a) = some s') : Inv s' := by
  have hs := eq_ok_of_toOption hs
  rw [State.dfremove] at hs
  cases hd : s.dfchdentry a 0
  case error => rw [hd] at hs; contradiction
  case ok t =>
    have ⟨hne, _, j, f, hch, he⟩ := dfchdentry_eq_ok hd (by decide)
    have hself : s.setchild 0 (s.child 0) = s := by rw [State.setchild, Function.update_eq_self]
    have ht : Inv t := by
      have hz : ∀ k ∈ s.used, entry s.d k ≠ 0 := fun k hk => (Finset.mem_filter.mp hk).right
      have := h.chdentry (c := s.child 0) hch hne hz fun hz => (hz rfl).elim
      rwa [hself, ← he] at this
    rw [hd] at hs
    obtain rfl := Except.ok.inj hs
    split
    case isTrue hz => exact ht.reset hz.left
    case isFalse => exact ht

theorem rename (h : Inv s) (hc : Unused s (.rename a name)) (hs : step s (.rename a name) = some s') :
    Inv s' := by
  rw [step] at hs
  split at hs
  case isTrue => exact Option.some.inj hs ▸ h
  split at hs
  case isTrue => contradiction
  case isFalse hg =>
    have hdots := (not_or.mp hg).right
    obtain rfl := Option.some.inj hs
    have hname {k} : (s.setchild a { s.child a with name := name }).nameof k =
        if entry s.d k = a then name else s.nameof k := by
      change (Function.update s.child a { s.child a with name := name } (entry s.d k)).name = _
      rw [Function.update_apply]
      split <;> rfl
    have hclash {i k} (hi : i ∈ s.used) (hia : entry s.d i = a) (hk : k ∈ s.used) (hka : entry s.d k ≠ a) :
        s.nameof k ≠ name := fun he =>
      hc ⟨i, hi, hia⟩ ⟨_, linked_entry hk, hka, he⟩
    refine ⟨⟨h.shape.layout, h.shape.ndents⟩, ?names, ?dots⟩
    case names =>
      intro i hi k hk hik
      rw [hname, hname] at hik
      by_cases hia : entry s.d i = a <;> by_cases hka : entry s.d k = a
      · refine h.names hi hk ?_
        rw [State.nameof, State.nameof, hia, hka]
      · rw [if_pos hia, if_neg hka] at hik
        exact (hclash hi hia hk hka hik.symm).elim
      · rw [if_neg hia, if_pos hka] at hik
        exact (hclash hk hka hi hia hik).elim
      · rw [if_neg hia, if_neg hka] at hik
        exact h.names hi hk hik
    case dots =>
      intro k hk
      rw [hname]
      split
      case isTrue => exact hdots
      case isFalse => exact h.dots k hk

end Inv

theorem created_inv (h : Created s) : Inv s := by
  have hlen : s.d.length = 0 := h.file.length
  have hempty : s.used = ∅ := by simp [State.used, hlen]
  have hlayout : Layout s.d :=
    { mod := by rw [hlen]; rfl
      le := hlen ▸ Nat.zero_le _
      solid := fun pos hp => (Nat.not_lt_zero pos (hlen ▸ hp)).elim
      free := fun k _ _ => by
        have hz : entry s.d k = de 0 0 := de_congr fun j _ => stored_of_created h.file _
        rw [hz]
        rfl }
  refine ⟨⟨hlayout, by rw [hempty, h.ndents]; rfl⟩, ?_, ?_⟩
  · simp [hempty]
  · simp [hempty]

theorem inv_invariant : machine.Invariant Unused Inv where
  init h := created_inv h
  step {s act s'} h hc hs := by
    cases act
    case create => exact h.create hc hs
    case remove => exact h.remove hs
    case rename => exact h.rename hc hs
    case melt => exact h.melt hs

end Creepy.Dir
