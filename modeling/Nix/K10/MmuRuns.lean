import Nix.K10.MmuPut

namespace K10.Mmu

section

variable {P G : Type} [DecidableEq P] [DecidableEq G] {s s' : State P G} {place place' : G → Option (Loc P)} {p q : P}
variable {g t page fresh : G} {x y lvl a : Nat} {u : Put}

section Leaf

-- The entry of a page of the user is written.
def State.leaf (s : State P G) (p : P) (g : G) (x : Nat) (u : Put) : State P G :=
  { s.setpte g x (.leaf u.pa u.flags) with puts := Function.update s.puts p (u :: s.puts p) }

theorem leaf_mem (s : State P G) (p : P) (g : G) (x : Nat) (u : Put) (g' : G) (y : Nat) :
    g' = g ∧ y = x ∧ (s.leaf p g x u).mem g' y = .leaf u.pa u.flags ∨
    ¬ (g' = g ∧ y = x) ∧ (s.leaf p g x u).mem g' y = s.mem g' y := by
  change _ ∧ _ ∧ Function.update s.mem g (Function.update (s.mem g) x _) g' y = _ ∨
    _ ∧ Function.update s.mem g (Function.update (s.mem g) x _) g' y = _
  by_cases hg : g' = g
  case neg => exact .inr ⟨fun h => hg h.left, congrFun (Function.update_of_ne hg ..) y⟩
  case pos =>
    rw [hg, Function.update_self]
    by_cases hy : y = x
    · exact .inl ⟨rfl, hy, hy ▸ Function.update_self ..⟩
    · exact .inr ⟨fun h => hy h.right, Function.update_of_ne hy ..⟩

theorem leaf_mem_of_ne {g' : G} (h : g' ≠ g) : (s.leaf p g x u).mem g' = s.mem g' :=
  Function.update_of_ne h ..

theorem leaf_shows (h : u.covers a = true) : (s.leaf p g x u).Shows p a u.pgsz u.pa u.flags := by
  refine ⟨u, ?_, rfl, rfl, rfl⟩
  rw [State.last, State.leaf]
  dsimp only
  rw [Function.update_self]
  exact List.find?_cons_of_pos h

theorem shows_leaf {pgsz pa : Nat} {flags : UInt32} (h : s.Shows q a pgsz pa flags) (hq : q = p → ¬ u.covers a = true) :
    (s.leaf p g x u).Shows q a pgsz pa flags := by
  rw [State.Shows, State.last, State.leaf]
  dsimp only
  by_cases hqp : q = p
  case neg =>
    rw [Function.update_of_ne hqp]
    exact h
  case pos =>
    subst hqp
    have hfind : (u :: s.puts q).find? (fun u => u.covers a) = (s.puts q).find? fun u => u.covers a :=
      List.find?_cons_of_neg <| hq rfl
    rw [Function.update_self, hfind]
    exact h

omit [DecidableEq P] [DecidableEq G] in
theorem covers_iff : u.covers a = true ↔
    PTLX u.va 3 = PTLX a 3 ∧ PTLX u.va 2 = PTLX a 2 ∧ (u.pgsz = GiB ∨ PTLX u.va 1 = PTLX a 1) := by
  simp only [Put.covers, Bool.and_eq_true, Bool.or_eq_true, decide_eq_true_eq, and_assoc]

theorem Tables.leaf (ht : Tables s place) {l : Nat} (hl : l ≠ 0) (hg : place g = some (.mmuptp p l))
    (hbig : ∀ t, place t = some (.mmuptp p 3) → ∀ y pa flags, (s.leaf p g x u).mem t y = .leaf pa flags →
      ∀ a, PTLX a 3 = s.daddr t → PTLX a 2 = y → (s.leaf p g x u).Shows p a GiB pa flags)
    (hsmall : ∀ g' t, place g' = some (.mmuptp p 2) → s.prev g' = some t →
      (s.leaf p g x u).mem t (s.daddr g') = .table g' →
      ∀ y pa flags, (s.leaf p g x u).mem g' y = .leaf pa flags →
      ∀ a, PTLX a 3 = s.daddr t → PTLX a 2 = s.daddr g' → PTLX a 1 = y →
        (s.leaf p g x u).Shows p a (2 * MiB) pa flags) : Tables (s.leaf p g x u) place := by
  have hne {g' : G} {q : P} {l' : Nat} (hq : q ≠ p) (hg' : place g' = some (.mmuptp q l')) : g' ≠ g := by
    rintro rfl
    exact hq (Loc.mmuptp.inj <| Option.some.inj <| hg'.symm.trans hg).left
  constructor
  case shelves => exact ht.shelves
  case heap => exact ht.heap
  case pml4 => exact ht.pml4
  case levels => exact ht.levels
  case prev3 => exact ht.prev3
  case prev2 => exact ht.prev2
  case inj => exact ht.inj
  case pdp =>
    intro t q htq y g' hm
    rcases leaf_mem s p g x u t y with ⟨-, -, he⟩ | ⟨-, he⟩ <;> rw [he] at hm
    · contradiction
    · exact ht.pdp t q htq y g' hm
  case listed =>
    intro g' t q hq hprev
    rcases leaf_mem s p g x u t (s.daddr g') with ⟨-, -, he⟩ | ⟨-, he⟩ <;> change (s.leaf p g x u).mem t (s.daddr g') ≠ _ <;>
      rw [he]
    · exact nofun
    · exact ht.listed g' t q hq hprev
  case pd =>
    intro g' q hq y t
    rcases leaf_mem s p g x u g' y with ⟨-, -, he⟩ | ⟨-, he⟩ <;> rw [he]
    · exact nofun
    · exact ht.pd g' q hq y t
  case reuse =>
    intro g' q hq y
    have hg' : g' ≠ g := by
      rintro rfl
      exact hl (Loc.mmuptp.inj <| Option.some.inj <| hg.symm.trans hq).right
    rw [leaf_mem_of_ne hg']
    exact ht.reuse g' q hq y
  case big =>
    intro t q htq y pa flags hm a h3 h2
    by_cases hq : q = p
    case pos =>
      subst hq
      exact hbig t htq y pa flags hm a h3 h2
    case neg =>
      rw [leaf_mem_of_ne <| hne hq htq] at hm
      exact shows_leaf (ht.big t q htq y pa flags hm a h3 h2) fun h => absurd h hq
  case small =>
    intro g' q t hg' hprev hmt y pa flags hm a h3 h2 h1
    by_cases hq : q = p
    case pos =>
      subst hq
      exact hsmall g' t hg' hprev hmt y pa flags hm a h3 h2 h1
    case neg =>
      obtain ⟨t', hprev', ht'⟩ := ht.prev2 g' q hg'
      obtain rfl := Option.some.inj <| hprev'.symm.trans hprev
      rw [leaf_mem_of_ne <| hne hq ht'] at hmt
      rw [leaf_mem_of_ne <| hne hq hg'] at hm
      exact shows_leaf (ht.small g' q t' hg' hprev hmt y pa flags hm a h3 h2 h1) fun h => absurd h hq

omit [DecidableEq P] [DecidableEq G] in
theorem Tables.eq_of_daddr (ht : Tables s place) {t' : G} (h : place t = some (.mmuptp p 3))
    (h' : place t' = some (.mmuptp p 3)) (hd : s.daddr t = s.daddr t') : t = t' :=
  ht.inj t t' p 3 h h' nofun ((ht.prev3 t p h).trans (ht.prev3 t' p h').symm) hd

theorem Tables.big_leaf (ht : Tables s place) (htp : place t = some (.mmuptp p 3)) (h3 : s.daddr t = PTLX u.va 3)
    (hgib : u.pgsz = GiB) : Tables (s.leaf p t (PTLX u.va 2) u) place := by
  refine ht.leaf (l := 3) nofun htp ?big ?small
  case big =>
    intro t' ht' y pa flags hm a ha3 ha2
    rcases leaf_mem s p t (PTLX u.va 2) u t' y with ⟨rfl, rfl, he⟩ | ⟨hno, he⟩ <;> rw [he] at hm
    · obtain ⟨rfl, rfl⟩ := Pte.leaf.inj hm
      rw [← hgib]
      exact leaf_shows <| covers_iff.mpr ⟨h3.symm.trans ha3.symm, ha2.symm, .inl hgib⟩
    · refine shows_leaf (ht.big t' p ht' y pa flags hm a ha3 ha2) fun _ hc => hno ?_
      obtain ⟨hc3, hc2, -⟩ := covers_iff.mp hc
      exact ⟨ht.eq_of_daddr ht' htp <| ha3.symm.trans <| hc3.symm.trans h3.symm, ha2.symm.trans hc2.symm⟩
  case small =>
    intro g' t' hg' hprev hmt y pa flags hm a ha3 ha2 ha1
    obtain ⟨t'', hprev', ht'⟩ := ht.prev2 g' p hg'
    obtain rfl := Option.some.inj <| hprev'.symm.trans hprev
    have hne : g' ≠ t := by
      rintro rfl
      exact nomatch hg'.symm.trans htp
    rw [leaf_mem_of_ne hne] at hm
    rcases leaf_mem s p t (PTLX u.va 2) u t'' (s.daddr g') with ⟨-, -, he⟩ | ⟨hno, he⟩ <;> rw [he] at hmt
    · contradiction
    · refine shows_leaf (ht.small g' p t'' hg' hprev hmt y pa flags hm a ha3 ha2 ha1) fun _ hc => hno ?_
      obtain ⟨hc3, hc2, -⟩ := covers_iff.mp hc
      exact ⟨ht.eq_of_daddr ht' htp <| ha3.symm.trans <| hc3.symm.trans h3.symm, ha2.symm.trans hc2.symm⟩

theorem Tables.small_leaf (ht : Tables s place) (htp : place t = some (.mmuptp p 3)) (h3 : s.daddr t = PTLX u.va 3)
    (hgp : place g = some (.mmuptp p 2)) (hprev : s.prev g = some t) (h2 : s.daddr g = PTLX u.va 2)
    (hm : s.mem t (PTLX u.va 2) = .table g) (hmib : u.pgsz = 2 * MiB) : Tables (s.leaf p g (PTLX u.va 1) u) place := by
  have hgib : u.pgsz ≠ GiB := by
    rw [hmib]
    decide
  have hne {t' : G} (ht' : place t' = some (.mmuptp p 3)) : t' ≠ g := by
    rintro rfl
    exact nomatch ht'.symm.trans hgp
  refine ht.leaf (l := 2) nofun hgp ?big ?small
  case big =>
    intro t' ht' y pa flags hm' a ha3 ha2
    rw [leaf_mem_of_ne <| hne ht'] at hm'
    refine shows_leaf (ht.big t' p ht' y pa flags hm' a ha3 ha2) fun _ hc => ?_
    obtain ⟨hc3, hc2, -⟩ := covers_iff.mp hc
    obtain rfl : t' = t := ht.eq_of_daddr ht' htp <| ha3.symm.trans <| hc3.symm.trans h3.symm
    rw [← ha2, ← hc2, hm] at hm'
    contradiction
  case small =>
    intro g' t' hg' hprev' hmt y pa flags hm' a ha3 ha2 ha1
    obtain ⟨t'', hprev'', ht'⟩ := ht.prev2 g' p hg'
    obtain rfl := Option.some.inj <| hprev''.symm.trans hprev'
    rw [leaf_mem_of_ne <| hne ht'] at hmt
    rcases leaf_mem s p g (PTLX u.va 1) u g' y with ⟨rfl, rfl, he⟩ | ⟨hno, he⟩ <;> rw [he] at hm'
    · obtain ⟨rfl, rfl⟩ := Pte.leaf.inj hm'
      obtain rfl := Option.some.inj <| hprev.symm.trans hprev'
      rw [← hmib]
      exact leaf_shows <| covers_iff.mpr ⟨h3.symm.trans ha3.symm, h2.symm.trans ha2.symm, .inr ha1.symm⟩
    · refine shows_leaf (ht.small g' p t'' hg' hprev' hmt y pa flags hm' a ha3 ha2 ha1) fun _ hc => hno ?_
      obtain ⟨hc3, hc2, hc1⟩ := covers_iff.mp hc
      have htt : t'' = t := ht.eq_of_daddr ht' htp <| ha3.symm.trans <| hc3.symm.trans h3.symm
      refine ⟨ht.inj g' g p 2 hg' hgp nofun ?_ <| ha2.symm.trans <| hc2.symm.trans h2.symm, ?_⟩
      · rw [hprev', hprev, htt]
      · exact ha1.symm.trans (hc1.resolve_left hgib).symm

theorem Sound.leaf (hs : Sound s place) {i : Loc P} (hg : place g = some i) (ht : Tables (s.leaf p g x u) place) :
    Sound (s.leaf p g x u) place where
  tables := ht
  root   := by
    have hmem : (s.leaf p g x u).mem s.pml4 = s.mem s.pml4 := leaf_mem_of_ne (hs.tables.ne_pml4 hg).symm
    constructor
    case own =>
      intro y hy
      change (s.leaf p g x u).mem s.pml4 y ≠ _ at hy
      change _ ∧ ∃ p' g', _ ∧ _ ∧ _ ∧ (s.leaf p g x u).mem s.pml4 y = _
      rw [hmem] at hy ⊢
      exact hs.root.own y hy
    case loaded =>
      intro q g' hq hg'
      exact (congrFun hmem _).trans <| hs.root.loaded q g' hq hg'

end Leaf

section Level

-- A table's page and its entry, after a level of `mmuput`.
structure Levelled (s s' : State P G) (place place' : G → Option (Loc P)) (p : P) (lvl : Nat) (t : G) (x : Nat) (page : G) :
    Prop where
  sound : Sound s' place'
  lies  : place' page = some (.mmuptp p lvl)
  prev  : s'.prev page = some t
  daddr : s'.daddr page = x
  pml4  : s'.pml4 = s.pml4
  up    : s'.up = s.up
  puts  : s'.puts = s.puts
  old   : s' = s ∧ place' = place ∨ place' = Function.update place page (some (.mmuptp p lvl)) ∧ Hung s s' t x page ∧
    ∀ q l, place page = some (.mmuptp q l) → l = 0

theorem Sound.level (hs : Sound s place) (hp : s.up = some p)
    (hparent : lvl = 3 ∧ t = s.pml4 ∨ lvl = 2 ∧ place t = some (.mmuptp p 3))
    (h : s.level p fresh lvl t t x = some (s', page)) : ∃ place', Levelled s s' place place' p lvl t x page := by
  have ht := hs.tables
  rw [State.level] at h
  cases hfind : (s.list (.mmuptp p lvl)).find? fun page => s.prev page = some t ∧ s.daddr page = x
  case some page' =>
    rw [hfind] at h
    have hmem := ht.shelves.mem.mp <| List.mem_of_find?_eq_some hfind
    have hfound := List.find?_some hfind
    obtain ⟨hprev, hd⟩ := of_decide_eq_true hfound
    have hne : s.mem t x ≠ .zero := by
      rcases hparent with ⟨rfl, rfl⟩ | ⟨rfl, -⟩
      · rw [← hd, hs.root.loaded p page' hp hmem]
        exact nofun
      · rw [← hd]
        exact ht.listed page' t p hmem hprev
    simp only [if_neg hne, Option.some.injEq, Prod.mk.injEq] at h
    obtain ⟨rfl, rfl⟩ := h
    exact ⟨place, hs, hmem, hprev, hd, rfl, rfl, rfl, .inl ⟨rfl, rfl⟩⟩
  case none =>
    rw [hfind] at h
    obtain ⟨⟨s₁, page'⟩, hget, h⟩ := Option.bind_eq_some_iff.mp h
    obtain ⟨rfl, rfl⟩ := Prod.ext_iff.mp <| Option.some.inj h
    have hgot := ht.getpage hget
    have hslot : Slot s place p lvl t x := by
      refine ⟨hparent, fun g hg hprev hd => ?_⟩
      have := List.find?_eq_none.mp hfind g <| ht.shelves.mem.mpr hg
      exact this <| decide_eq_true ⟨hprev, hd⟩
    have hh := hgot.hung ht hslot
    exact ⟨_, hs.grow hp hgot hslot, Function.update_self .., hh.prev, hh.daddr, hh.pml4, hh.up, hh.puts,
      .inr ⟨rfl, hh, hgot.old⟩⟩

omit [DecidableEq P] in
theorem Levelled.keep (h : Levelled s s' place place' p lvl t x page) (ht : Tables s place) {l : Nat}
    (hg : place g = some (.mmuptp q l)) (hl : l ≠ 0) : place' g = some (.mmuptp q l) ∧ s'.daddr g = s.daddr g := by
  rcases h.old with ⟨rfl, rfl⟩ | ⟨rfl, hh, hpage⟩
  · exact ⟨hg, rfl⟩
  · have hne : g ≠ page := by
      rintro rfl
      exact hl <| hpage q l hg
    exact ⟨(Function.update_of_ne hne ..).trans hg, hh.daddrs g hne <| ht.ne_pml4 hg⟩

end Level

end

variable {P G : Type} [DecidableEq P] [DecidableEq G] {s s' : State P G} {place place' : G → Option (Loc P)} {p : P}
variable {fresh fresh' : G} {va : Nat} {pg : Page} {attr : UInt32}

-- No large page lies over the table that a small page at `va` would be put in.
def State.Open (s : State P G) (p : P) (va : Nat) : Prop :=
  ∀ t ∈ s.list (.mmuptp p 3), s.daddr t = PTLX va 3 →
    ∀ g ∈ s.list (.mmuptp p 2), s.prev g = some t → s.daddr g = PTLX va 2 → ∀ pa flags, s.mem t (PTLX va 2) ≠ .leaf pa flags

omit [DecidableEq P] in
theorem Levelled.isOpen {page page₂ : G} {place₁ : G → Option (Loc P)} (hs : Sound s place) (hopen : s.Open p va)
    (hl : Levelled s s' place place₁ p 3 s.pml4 (PTLX va 3) page) (hpage : place₁ page₂ = some (.mmuptp p 2))
    (hprev : s'.prev page₂ = some page) (hd : s'.daddr page₂ = PTLX va 2) (pa : Nat) (flags : UInt32) :
    s'.mem page (PTLX va 2) ≠ .leaf pa flags := by
  have ht := hs.tables
  rcases hl.old with ⟨rfl, rfl⟩ | ⟨rfl, hh, hnew⟩
  · exact hopen page (ht.shelves.mem.mpr hl.lies) hl.daddr page₂ (ht.shelves.mem.mpr hpage) hprev hd pa flags
  · rcases place_new hpage with ⟨-, -, h⟩ | ⟨hne, hold⟩
    · contradiction
    · rw [hh.prevs page₂ hne] at hprev
      obtain ⟨t, hprev', ht'⟩ := ht.prev2 page₂ p hold
      obtain rfl := Option.some.inj <| hprev'.symm.trans hprev
      exact nomatch hnew p 3 ht'

theorem Sound.mmuput (hs : Sound s place) (hopen : pg.pgsz = 2 * MiB → ∀ p, s.up = some p → s.Open p va)
    (h : s.mmuput fresh fresh' va pg attr = some s') : ∃ place', Sound s' place' := by
  obtain ⟨p, hp, h⟩ := Option.bind_eq_some_iff.mp h
  obtain ⟨-, h⟩ := Option.ite_none_left_eq_some.mp h
  obtain ⟨flags, -, h⟩ := Option.bind_eq_some_iff.mp h
  obtain ⟨⟨s₁, page⟩, hlevel, h⟩ := Option.bind_eq_some_iff.mp h
  obtain ⟨place₁, hl⟩ := hs.level hp (.inl ⟨rfl, rfl⟩) hlevel
  obtain ⟨u, hu⟩ : ∃ u : Put, u = { va, pa := pg.pa, pgsz := pg.pgsz, flags := flags ||| PteU } := ⟨_, rfl⟩
  have hp₁ : s₁.up = some p := hl.up.trans hp
  have ht := hl.sound.tables
  have htable : s₁.mem s₁.pml4 (PTLX va 3) = .table page := by
    have := hl.sound.root.loaded p page hp₁ hl.lies
    rwa [hl.daddr] at this
  dsimp only at h
  rw [htable, ← hl.puts] at h
  dsimp only at h
  by_cases hg : pg.pgsz = GiB
  case pos =>
    rw [if_pos hg] at h
    obtain rfl := Option.some.inj h
    have := hl.sound.leaf hl.lies <| ht.big_leaf (u := u) hl.lies (by rw [hl.daddr, hu]) (by rw [hu, hg])
    rw [hu] at this
    exact ⟨place₁, this⟩
  case neg =>
    rw [if_neg hg] at h
    obtain ⟨hm, h⟩ := Option.ite_none_right_eq_some.mp h
    obtain ⟨⟨s₂, page₂⟩, hlevel₂, h⟩ := Option.bind_eq_some_iff.mp h
    obtain ⟨place₂, hl₂⟩ := hl.sound.level hp₁ (.inr ⟨rfl, hl.lies⟩) hlevel₂
    have hentry : s₂.mem page (PTLX va 2) = .table page₂ := by
      rcases hl₂.old with ⟨rfl, rfl⟩ | ⟨-, hh, -⟩
      case inr => exact hh.new
      case inl =>
        have hleaf := hl.isOpen hs (hopen hm p hp) hl₂.lies hl₂.prev hl₂.daddr
        have hne := ht.listed page₂ page p hl₂.lies hl₂.prev
        rw [hl₂.daddr] at hne
        cases he : s₂.mem page (PTLX va 2)
        case zero => exact absurd he hne
        case leaf pa flags => exact absurd he <| hleaf pa flags
        case table g =>
          obtain ⟨hgp, hprev, hd⟩ := ht.pdp page p hl.lies _ g he
          rw [ht.inj g page₂ p 2 hgp hl₂.lies nofun (hprev.trans hl₂.prev.symm) (hd.trans hl₂.daddr.symm)]
    dsimp only at h
    rw [hentry, ← hl₂.puts] at h
    obtain rfl := Option.some.inj h
    have ⟨hplace, hd⟩ := hl₂.keep ht hl.lies nofun
    have := hl₂.sound.leaf hl₂.lies <| hl₂.sound.tables.small_leaf (u := u) hplace (by rw [hd, hl.daddr, hu]) hl₂.lies
      hl₂.prev (by rw [hl₂.daddr, hu]) (by rw [hu, hentry]) (by rw [hu, hm])
    rw [hu] at this
    exact ⟨place₂, this⟩

-- A flush leaves nothing of the process, and a small page is not put under a large one.
def Fits (s : State P G) : Act P G → Prop
  | .mmuput _ _ va pg _ => pg.pgsz = 2 * MiB → ∀ p, s.up = some p → s.Open p va
  | .mmuflush           => ∀ p, s.up = some p → s.Flushes p
  | .mmuswitch p        => s.newtlb p = true → s.Flushes p
  | .mmurelease p       => s.Alone p
  | _                   => True

omit [DecidableEq P] [DecidableEq G] in
theorem Sound.of_init (hi : Init s) : Sound s fun _ => none where
  tables := by
    constructor
    case shelves => exact ⟨fun i => hi.list i ▸ List.nodup_nil, fun {g i} => by simp [hi.list i]⟩
    case heap => exact fun g => by simp [hi.heap]
    all_goals intros; first | rfl | contradiction
  root   := ⟨fun x hx => absurd (hi.mem x) hx, nofun⟩

theorem Sound.step {act : Act P G} (hs : Sound s place) (hf : Fits s act) (h : step s act = some s') :
    ∃ place', Sound s' place' := by
  cases act
  case mmuput => exact hs.mmuput hf h
  case mmuflush => exact hs.mmuflush hf h
  case mmuswitch p =>
    obtain rfl := Option.some.inj h
    exact hs.mmuswitch hf
  case mmurelease p => exact ⟨_, hs.mmurelease hf h⟩
  case mmuflushtlb =>
    obtain rfl := Option.some.inj h
    exact ⟨_, hs.off⟩
  case newtlb | ac =>
    obtain rfl := Option.some.inj h
    exact ⟨place, hs.tables.congr rfl rfl rfl rfl fun _ _ _ => ⟨rfl, rfl, rfl⟩, hs.root.own, hs.root.loaded⟩

theorem invariant : machine.Invariant Fits fun s : State P G => ∃ place, Sound s place where
  init hi       := ⟨_, Sound.of_init hi⟩
  step hs hf ht := by
    obtain ⟨place, hs⟩ := hs
    exact hs.step hf ht

-- What the processor makes of an address of a process is nothing, or the last page put for it, and the pages of the
-- tables are on one list each.
theorem translation_of_last_put (hr : machine.Reachable Fits s) :
    (∀ p, s.up = some p → ∀ a,
      s.walk a = none ∨ ∃ u, s.last p a = some u ∧ s.walk a = some (u.pgsz, u.pa, u.flags)) ∧
    (∀ g ∈ s.heap, ∃ i, g ∈ s.list i ∧ ∀ j, g ∈ s.list j → j = i) ∧
    (∀ i, (s.list i).Nodup) := by
  obtain ⟨place, hs⟩ := invariant.holds hr
  exact ⟨fun p hp a => hs.walk hp a, fun g hg => hs.tables.unique hg, hs.tables.shelves.nodup⟩

def blank : State (Fin 2) Nat where
  pml4     := 0
  mem _ _  := .zero
  ref _    := 0
  daddr _  := 0
  prev _   := none
  list _   := []
  heap     := []
  newtlb _ := false
  ac _     := false
  up       := none
  puts _   := []

theorem init_blank : Init blank :=
  ⟨fun _ => rfl, fun _ => rfl, rfl, rfl, fun _ => rfl⟩

-- A process is flushed before it has tables, and given up while it runs.
def Plain (s : State P G) : Act P G → Prop
  | .mmuput _ _ va pg _ => pg.pgsz = 2 * MiB → ∀ p ∈ s.up, s.Open p va
  | .mmuflush           => ∀ p ∈ s.up, s.ac p = false ∧ s.list (.mmuptp p 3) = []
  | .mmuswitch p        => s.newtlb p = false
  | .mmurelease p       => s.up = some p
  | _                   => True

omit [DecidableEq P] [DecidableEq G] in
theorem Plain.fits {act : Act P G} (h : Plain s act) : Fits s act := by
  cases act
  case mmuput => exact h
  case mmuflush =>
    intro p hp
    have ⟨hac, hnil⟩ := h p hp
    refine ⟨hac, fun t ht => by simp [hnil] at ht, fun q hq g hg => ?_⟩
    obtain rfl := Option.some.inj <| hp.symm.trans hq
    simp [hnil] at hg
  case mmuswitch =>
    intro hn
    rw [Plain, hn] at h
    contradiction
  case mmurelease p =>
    intro q hq g hg
    obtain rfl := Option.some.inj <| Eq.trans h.symm hq
    exact ⟨g, hg, rfl⟩
  case mmuflushtlb | newtlb | ac => trivial

theorem Pte.zero_ne_leaf (pa : Nat) (flags : UInt32) : Pte.zero ≠ (.leaf pa flags : Pte G) :=
  nofun

theorem Pte.table_ne_leaf (g : G) (pa : Nat) (flags : UInt32) : Pte.table g ≠ .leaf pa flags :=
  nofun

instance : (e : Pte G) → Decidable (∀ pa flags, e ≠ .leaf pa flags)
  | .zero          => isTrue Pte.zero_ne_leaf
  | .table g       => isTrue <| Pte.table_ne_leaf g
  | .leaf pa flags => isFalse fun h => h pa flags rfl

instance (s : State P G) (p : P) (va : Nat) : Decidable (s.Open p va) := by
  unfold State.Open
  infer_instance

instance (s : State P G) (act : Act P G) : Decidable (Plain s act) := by
  unfold Plain
  split <;> infer_instance

-- The second process gets the pages of the first one's tables.
def reusing : List (Act (Fin 2) Nat) :=
  [.mmuswitch 0, .mmuflush, .mmuput 1 2 (2 ^ 30) ⟨2 ^ 30, 2 * MiB⟩ 7, .mmuput 3 4 (2 ^ 31) ⟨2 ^ 31, GiB⟩ 7,
    .mmurelease 0, .mmuswitch 1, .mmuput 3 4 (2 ^ 32) ⟨2 ^ 22, 2 * MiB⟩ 5]

theorem translation_of_last_put_reusing : ∃ s : State (Fin 2) Nat, machine.Reachable Fits s ∧
    (s.up = some 1 ∧ s.list (.mmuptp 1 3) ≠ [] ∧ s.heap.length = 2 ∧ s.walk (2 ^ 32) = some (2 * MiB, 2 ^ 22, 5)) ∧
    (∀ a, s.walk a = none ∨ ∃ u, s.last 1 a = some u ∧ s.walk a = some (u.pgsz, u.pa, u.flags)) := by
  have hrun : ((machine.guarded Plain).exec blank reusing).any (fun s : State (Fin 2) Nat =>
      s.up = some 1 ∧ s.list (.mmuptp 1 3) ≠ [] ∧ s.heap.length = 2 ∧ s.walk (2 ^ 32) = some (2 * MiB, 2 ^ 22, 5)) = true := by
    decide +kernel
  obtain ⟨s, hr, hs⟩ := Machine.exists_reachable init_blank hrun
  have hs := of_decide_eq_true hs
  have hr := hr.mono fun _ _ => Plain.fits
  exact ⟨s, hr, hs, (translation_of_last_put hr).left 1 hs.left⟩

-- A large page from before a flush is found again, a small page is put under a large one, the tables of a process
-- stay loaded when another one is flushed, and nothing is flushed of a process that has a core.
def stale : List (List (Act (Fin 2) Nat)) :=
  [[.mmuswitch 0, .mmuput 1 2 (2 ^ 30) ⟨2 ^ 30, GiB⟩ 7, .mmuflush, .mmuput 3 4 (2 ^ 31) ⟨2 ^ 31, 2 * MiB⟩ 7],
    [.mmuswitch 0, .mmuput 1 2 (2 ^ 30) ⟨2 ^ 30, 2 * MiB⟩ 7, .mmuput 3 4 (2 ^ 30) ⟨2 ^ 31, GiB⟩ 7,
      .mmuput 3 4 (2 ^ 30) ⟨2 ^ 32, 2 * MiB⟩ 7],
    [.mmuswitch 0, .mmuput 1 2 (2 ^ 30) ⟨2 ^ 30, 2 * MiB⟩ 7, .newtlb 1, .mmuswitch 1],
    [.mmuswitch 0, .mmuput 1 2 (2 ^ 30) ⟨2 ^ 30, 2 * MiB⟩ 7, .ac 0 true, .mmuflush]]

theorem stale_translations : stale.Forall fun acts =>
    ∃ s, machine.exec blank acts = some s ∧ machine.Reachable (fun _ _ => True) s ∧ ∃ p, s.up = some p ∧
      ¬ (s.walk (2 ^ 30) = none ∨
        ∃ u, s.last p (2 ^ 30) = some u ∧ s.walk (2 ^ 30) = some (u.pgsz, u.pa, u.flags)) := by
  rw [List.forall_iff_forall_mem]
  intro acts hacts
  have hrun : (machine.exec blank acts).any (fun s =>
      ∃ p, s.up = some p ∧ ¬ (s.walk (2 ^ 30) = none ∨
        ∃ u ∈ s.last p (2 ^ 30), s.walk (2 ^ 30) = some (u.pgsz, u.pa, u.flags))) = true := by
    revert acts
    decide +kernel
  obtain ⟨s, hs, ht⟩ := (Option.any_eq_true ..).mp hrun
  exact ⟨s, hs, (Machine.Reachable.init init_blank).exec (fun _ _ _ => trivial) hs, of_decide_eq_true ht⟩

end K10.Mmu
