import Nix.K10.MmuFlush

namespace K10.Mmu

variable {P G : Type} [DecidableEq P] [DecidableEq G] {s s' : State P G} {place : G → Option (Loc P)} {p : P} {g t page fresh : G}
variable {x lvl : Nat}

section Grow

-- A page that is on no list any more, with nothing in it.
structure Got (s s' : State P G) (place : G → Option (Loc P)) (page : G) : Prop where
  eq      : s' = { s with mem := s'.mem, ref := s'.ref, prev := s'.prev, list := s'.list, heap := s'.heap }
  shelves : Shelves (Function.update place page none) s'.list
  zero    : ∀ x, s'.mem page x = .zero
  keep    : ∀ g, g ≠ page → s'.mem g = s.mem g ∧ s'.prev g = s.prev g
  ne      : page ≠ s.pml4
  heap    : ∀ g, g ∈ s'.heap ↔ g = page ∨ g ∈ s.heap
  old     : ∀ q l, place page = some (.mmuptp q l) → l = 0

theorem Tables.getpage (ht : Tables s place) (h : s.getpage p fresh = some (s', page)) : Got s s' place page := by
  rw [State.getpage] at h
  split at h
  case h_1 g rest hlist =>
    obtain ⟨rfl, rfl⟩ := Prod.ext_iff.mp <| Option.some.inj h
    have hg : place g = some (.mmuptp p 0) := ht.shelves.mem.mp <| hlist ▸ List.mem_cons_self
    refine ⟨rfl, ht.shelves.pop hlist, ht.reuse g p hg, fun _ _ => ⟨rfl, rfl⟩, ht.ne_pml4 hg, fun g' => ?_, fun q l hq => ?_⟩
    · refine (or_iff_right_of_imp ?_).symm
      rintro rfl
      exact (ht.heap _).mpr <| by rw [hg]; rfl
    · exact (Loc.mmuptp.inj <| Option.some.inj <| hq.symm.trans hg).right
  case h_2 =>
    rw [State.mmuptpalloc] at h
    split at h
    case h_1 g rest hlist =>
      obtain ⟨-, h⟩ := Option.ite_none_left_eq_some.mp h
      obtain ⟨rfl, rfl⟩ := Prod.ext_iff.mp <| Option.some.inj h
      have hg : place g = some .free := ht.shelves.mem.mp <| hlist ▸ List.mem_cons_self
      refine ⟨rfl, ht.shelves.pop hlist, fun x => ?_, fun g' hg' => ⟨?_, ?_⟩, ht.ne_pml4 hg, fun g' => ?_, fun q l hq => ?_⟩
      · change Function.update s.mem g (fun _ => .zero) g x = .zero
        rw [Function.update_self]
      · exact Function.update_of_ne hg' ..
      · exact Function.update_of_ne hg' ..
      · refine (or_iff_right_of_imp ?_).symm
        rintro rfl
        exact (ht.heap _).mpr <| by rw [hg]; rfl
      · cases Option.some.inj <| hq.symm.trans hg
    case h_2 =>
      obtain ⟨hno, h⟩ := Option.ite_none_left_eq_some.mp h
      obtain ⟨rfl, rfl⟩ := Prod.ext_iff.mp <| Option.some.inj h
      rw [not_or] at hno
      have hg : place fresh = none := by
        have := mt (ht.heap fresh).mpr hno.left
        rwa [Bool.not_eq_true, Option.isSome_eq_false_iff, Option.isNone_iff_eq_none] at this
      refine ⟨rfl, ?_, fun x => ?_, fun g' hg' => ⟨?_, rfl⟩, hno.right, fun g' => List.mem_cons, fun q l hq => ?_⟩
      · rw [← hg, Function.update_eq_self]
        exact ht.shelves
      · change Function.update s.mem fresh (fun _ => .zero) fresh x = .zero
        rw [Function.update_self]
      · exact Function.update_of_ne hg' ..
      · rw [hg] at hq
        contradiction

-- The entry that a table's page gets.
structure Slot (s : State P G) (place : G → Option (Loc P)) (p : P) (lvl : Nat) (t : G) (x : Nat) : Prop where
  parent : lvl = 3 ∧ t = s.pml4 ∨ lvl = 2 ∧ place t = some (.mmuptp p 3)
  none   : ∀ g, place g = some (.mmuptp p lvl) → s.prev g = some t → s.daddr g ≠ x

def State.hang (s : State P G) (p : P) (lvl : Nat) (t : G) (x : Nat) (page : G) : State P G :=
  let daddr := Function.update s.daddr page x
  { s with
    daddr := if lvl = 3 ∧ x ≥ daddr s.pml4 then Function.update daddr s.pml4 (x + 1) else daddr
    list  := Function.update s.list (.mmuptp p lvl) (page :: s.list (.mmuptp p lvl))
    prev  := Function.update s.prev page (some t) }.setpte t x (.table page)

-- What changes when a page is hung on a table.
structure Hung (s s' : State P G) (t : G) (x : Nat) (page : G) : Prop where
  ne     : t ≠ page
  zero   : ∀ y, s'.mem page y = .zero
  new    : s'.mem t x = .table page
  rest   : ∀ y, y ≠ x → s'.mem t y = s.mem t y
  mem    : ∀ g, g ≠ page → g ≠ t → s'.mem g = s.mem g
  prev   : s'.prev page = some t
  prevs  : ∀ g, g ≠ page → s'.prev g = s.prev g
  daddr  : s'.daddr page = x
  daddrs : ∀ g, g ≠ page → g ≠ s.pml4 → s'.daddr g = s.daddr g
  root   : s.daddr s.pml4 ≤ s'.daddr s.pml4 ∧ (t = s.pml4 → x < s'.daddr s.pml4)
  pml4   : s'.pml4 = s.pml4
  up     : s'.up = s.up
  puts   : s'.puts = s.puts

theorem Got.hung {s₁ : State P G} (ht : Tables s place) (hg : Got s s₁ place page) (hs : Slot s place p lvl t x) :
    Hung s (s₁.hang p lvl t x page) t x page := by
  have hpml4 : s₁.pml4 = s.pml4 := by rw [hg.eq]
  have hne : t ≠ page := by
    rintro rfl
    rcases hs.parent with ⟨-, h⟩ | ⟨-, h⟩
    · exact hg.ne h
    · exact nomatch hg.old p 3 h
  have hd : s₁.daddr = s.daddr := by rw [hg.eq]
  constructor
  case ne => exact hne
  case zero => exact fun y => (congrFun (Function.update_of_ne hne.symm ..) y).trans <| hg.zero y
  case new => exact (congrFun (Function.update_self ..) x).trans <| Function.update_self ..
  case rest =>
    intro y hy
    refine (congrFun (Function.update_self ..) y).trans <| (Function.update_of_ne hy ..).trans ?_
    exact congrFun (hg.keep t hne).left y
  case mem => exact fun g hgp hgt => (Function.update_of_ne hgt ..).trans (hg.keep g hgp).left
  case prev => exact Function.update_self ..
  case prevs => exact fun g hgp => (Function.update_of_ne hgp ..).trans (hg.keep g hgp).right
  case daddr =>
    change (if _ then _ else _ : G → Nat) page = x
    rw [hpml4]
    split
    · rw [Function.update_of_ne hg.ne, Function.update_self]
    · rw [Function.update_self]
  case daddrs =>
    intro g hgp hgm
    change (if _ then _ else _ : G → Nat) g = _
    rw [hpml4, hd]
    split
    · rw [Function.update_of_ne hgm, Function.update_of_ne hgp]
    · rw [Function.update_of_ne hgp]
  case root =>
    change _ ≤ (if _ then _ else _ : G → Nat) s.pml4 ∧ (_ → _ < (if _ then _ else _ : G → Nat) s.pml4)
    rw [hpml4, hd, Function.update_of_ne hg.ne.symm]
    split
    case isTrue h =>
      rw [Function.update_self]
      omega
    case isFalse h =>
      rw [Function.update_of_ne hg.ne.symm]
      refine ⟨Nat.le_refl _, fun he => ?_⟩
      rcases hs.parent with ⟨hl, -⟩ | ⟨-, hp⟩
      · omega
      · exact absurd he <| ht.ne_pml4 hp
  case pml4 => exact hpml4
  case up =>
    change s₁.up = s.up
    rw [hg.eq]
  case puts =>
    change s₁.puts = s.puts
    rw [hg.eq]

omit [DecidableEq P] in
theorem Hung.entry (hh : Hung s s' t x page) {y : Nat} (hne : g ≠ page) :
    g = t ∧ y = x ∧ s'.mem g y = .table page ∨ ¬ (g = t ∧ y = x) ∧ s'.mem g y = s.mem g y := by
  by_cases hgt : g = t
  case neg => exact .inr ⟨fun h => hgt h.left, congrFun (hh.mem g hne hgt) y⟩
  case pos =>
    subst hgt
    by_cases hy : y = x
    · exact .inl ⟨rfl, hy, hy ▸ hh.new⟩
    · exact .inr ⟨fun h => hy h.right, hh.rest y hy⟩

omit [DecidableEq P] [DecidableEq G] in
theorem Hung.shows (hh : Hung s s' t x page) {a pgsz pa : Nat} {flags : UInt32} {q : P} (h : s.Shows q a pgsz pa flags) :
    s'.Shows q a pgsz pa flags := by
  rw [State.Shows, State.last, hh.puts]
  exact h

section

variable {s₁ : State P G} {q : P} {l : Nat}

omit [DecidableEq P] in
theorem Got.place_old (hg : Got s s₁ place page) (p : P) (lvl : Nat) (hq : place g = some (.mmuptp q l)) (hl : l ≠ 0) :
    g ≠ page ∧ Function.update place page (some (.mmuptp p lvl)) g = some (.mmuptp q l) := by
  have hne : g ≠ page := by
    rintro rfl
    exact hl <| hg.old q l hq
  exact ⟨hne, (Function.update_of_ne hne ..).trans hq⟩

omit [DecidableEq P] in
theorem place_new (h : Function.update place page (some (.mmuptp p lvl)) g = some (.mmuptp q l)) :
    g = page ∧ q = p ∧ l = lvl ∨ g ≠ page ∧ place g = some (.mmuptp q l) := by
  by_cases hg : g = page
  case pos =>
    subst hg
    rw [Function.update_self] at h
    obtain ⟨rfl, rfl⟩ := Loc.mmuptp.inj <| Option.some.inj h
    exact .inl ⟨rfl, rfl, rfl⟩
  case neg => exact .inr ⟨hg, (Function.update_of_ne hg ..).symm.trans h⟩

theorem Tables.grow (ht : Tables s place) (hg : Got s s₁ place page) (hs : Slot s place p lvl t x) :
    Tables (s₁.hang p lvl t x page) (Function.update place page (some (.mmuptp p lvl))) := by
  have hh := hg.hung ht hs
  have hlvl : lvl = 2 ∨ lvl = 3 := by
    rcases hs.parent with ⟨rfl, -⟩ | ⟨rfl, -⟩ <;> decide
  have hdaddr {g : G} {q : P} {l : Nat} (hne : g ≠ page) (hq : place g = some (.mmuptp q l)) :
      (s₁.hang p lvl t x page).daddr g = s.daddr g :=
    hh.daddrs g hne <| ht.ne_pml4 hq
  have hmem {g : G} {q : P} {l : Nat} (hl : l ≠ 3) (hne : g ≠ page) (hq : place g = some (.mmuptp q l)) :
      (s₁.hang p lvl t x page).mem g = s.mem g := by
    refine hh.mem g hne ?_
    rintro rfl
    rcases hs.parent with ⟨-, rfl⟩ | ⟨-, hp⟩
    · exact ht.ne_pml4 hq rfl
    · exact hl (Loc.mmuptp.inj <| Option.some.inj <| hq.symm.trans hp).right
  have hin {q : P} (hq : place t = some (.mmuptp q 3)) : lvl = 2 ∧ q = p := by
    rcases hs.parent with ⟨-, rfl⟩ | ⟨hl, hp⟩
    · exact absurd rfl <| ht.ne_pml4 hq
    · exact ⟨hl, (Loc.mmuptp.inj <| Option.some.inj <| hq.symm.trans hp).left⟩
  constructor
  case shelves =>
    rw [← Function.update_idem (α := G) none (some (Loc.mmuptp p lvl)) place]
    exact hg.shelves.push <| Function.update_self ..
  case heap =>
    intro g
    refine (hg.heap g).trans ?_
    by_cases hgp : g = page
    · simp [hgp]
    · rw [Function.update_of_ne hgp, ← ht.heap, or_iff_right hgp]
  case pml4 =>
    rw [hh.pml4, Function.update_of_ne hg.ne.symm]
    exact ht.pml4
  case levels =>
    intro g q l hq
    rcases place_new hq with ⟨-, -, rfl⟩ | ⟨-, hq⟩
    · exact .inr hlvl
    · exact ht.levels g q l hq
  case prev3 =>
    intro g q hq
    rcases place_new hq with ⟨rfl, -, hl⟩ | ⟨hne, hq⟩
    · rcases hs.parent with ⟨-, rfl⟩ | ⟨h, -⟩
      · rw [hh.prev, hh.pml4]
      · omega
    · rw [hh.prevs g hne, hh.pml4]
      exact ht.prev3 g q hq
  case prev2 =>
    intro g q hq
    rcases place_new hq with ⟨rfl, rfl, hl⟩ | ⟨hne, hq⟩
    · rcases hs.parent with ⟨h, -⟩ | ⟨-, hp⟩
      · omega
      · exact ⟨t, hh.prev, (hg.place_old _ _ hp nofun).right⟩
    · obtain ⟨t', hprev, ht'⟩ := ht.prev2 g q hq
      exact ⟨t', (hh.prevs g hne).trans hprev, (hg.place_old _ _ ht' nofun).right⟩
  case inj =>
    intro g g' q l hq hq' hl hprev hd
    rcases place_new hq with ⟨rfl, rfl, rfl⟩ | ⟨hne, hold⟩ <;> rcases place_new hq' with ⟨hgp, hqp, hll⟩ | ⟨hne', hold'⟩
    · exact hgp.symm
    · rw [hh.prev, hh.prevs g' hne'] at hprev
      rw [hh.daddr, hdaddr hne' hold'] at hd
      exact absurd hd.symm <| hs.none g' hold' hprev.symm
    · rw [hgp, hh.prev, hh.prevs g hne] at hprev
      rw [hgp, hh.daddr, hdaddr hne hold] at hd
      exact absurd hd <| hs.none g (hqp ▸ hll ▸ hold) hprev
    · rw [hh.prevs g hne, hh.prevs g' hne'] at hprev
      rw [hdaddr hne hold, hdaddr hne' hold'] at hd
      exact ht.inj g g' q l hold hold' hl hprev hd
  case pdp =>
    intro t' q hq y g hm
    rcases place_new hq with ⟨rfl, -, -⟩ | ⟨hne, hq⟩
    · rw [hh.zero] at hm
      contradiction
    · rcases hh.entry (y := y) hne with ⟨rfl, rfl, he⟩ | ⟨-, he⟩ <;> rw [he] at hm
      · obtain rfl := Pte.table.inj hm
        obtain ⟨rfl, rfl⟩ := hin hq
        exact ⟨Function.update_self .., hh.prev, hh.daddr⟩
      · obtain ⟨hgq, hprev, hd⟩ := ht.pdp t' q hq y g hm
        have ⟨hgp, hplace⟩ := hg.place_old p lvl hgq nofun
        exact ⟨hplace, (hh.prevs g hgp).trans hprev, (hdaddr hgp hgq).trans hd⟩
  case listed =>
    intro g t' q hq hprev
    rcases place_new hq with ⟨rfl, -, -⟩ | ⟨hne, hq⟩
    · obtain rfl := Option.some.inj <| hh.prev.symm.trans hprev
      rw [hh.daddr, hh.new]
      exact nofun
    · rw [hh.prevs g hne] at hprev
      obtain ⟨t'', hprev', hq'⟩ := ht.prev2 g q hq
      obtain rfl := Option.some.inj <| hprev'.symm.trans hprev
      rcases hh.entry (y := s.daddr g) (hg.place_old p lvl hq' nofun).left with ⟨-, -, he⟩ | ⟨-, he⟩
      · rw [hdaddr hne hq, he]
        exact nofun
      · rw [hdaddr hne hq, he]
        exact ht.listed g t'' q hq hprev
  case pd =>
    intro g q hq y t'
    rcases place_new hq with ⟨rfl, -, -⟩ | ⟨hne, hq⟩
    · rw [hh.zero]
      exact nofun
    · rw [hmem (by decide) hne hq]
      exact ht.pd g q hq y t'
  case reuse =>
    intro g q hq y
    rcases place_new hq with ⟨rfl, -, -⟩ | ⟨hne, hq⟩
    · exact hh.zero y
    · rw [hmem (by decide) hne hq]
      exact ht.reuse g q hq y
  case big =>
    intro t' q hq y pa flags hm a h3 h2
    rcases place_new hq with ⟨rfl, -, -⟩ | ⟨hne, hq⟩
    · rw [hh.zero] at hm
      contradiction
    · rw [hdaddr hne hq] at h3
      rcases hh.entry (y := y) hne with ⟨-, -, he⟩ | ⟨-, he⟩ <;> rw [he] at hm
      · contradiction
      · exact hh.shows <| ht.big t' q hq y pa flags hm a h3 h2
  case small =>
    intro g q t' hq hprev hmt y pa flags hm a h3 h2 h1
    rcases place_new hq with ⟨rfl, -, -⟩ | ⟨hne, hq⟩
    · rw [hh.zero] at hm
      contradiction
    · rw [hh.prevs g hne] at hprev
      obtain ⟨t'', hprev', hq'⟩ := ht.prev2 g q hq
      obtain rfl := Option.some.inj <| hprev'.symm.trans hprev
      have hne' := (hg.place_old p lvl hq' nofun).left
      rw [hdaddr hne hq] at hmt h2
      rw [hdaddr hne' hq'] at h3
      rw [hmem (by decide) hne hq] at hm
      rcases hh.entry (y := s.daddr g) hne' with ⟨-, -, he⟩ | ⟨-, he⟩ <;> rw [he] at hmt
      · exact absurd (Pte.table.inj hmt).symm hne
      · exact hh.shows <| ht.small g q t'' hq hprev hmt y pa flags hm a h3 h2 h1

theorem Sound.grow (hsound : Sound s place) (hp : s.up = some p) (hg : Got s s₁ place page) (hs : Slot s place p lvl t x) :
    Sound (s₁.hang p lvl t x page) (Function.update place page (some (.mmuptp p lvl))) := by
  have ht := hsound.tables
  have hh := hg.hung ht hs
  constructor
  case tables => exact ht.grow hg hs
  case root =>
    constructor
    case own =>
      intro y hy
      rw [hh.pml4] at hy ⊢
      rcases hh.entry (y := y) hg.ne.symm with ⟨hpt, rfl, he⟩ | ⟨-, he⟩
      · have hl : lvl = 3 := by
          rcases hs.parent with ⟨h, -⟩ | ⟨-, h⟩
          · exact h
          · exact absurd hpt.symm <| ht.ne_pml4 h
        subst hl
        exact ⟨hh.root.right hpt.symm, p, page, hh.up.trans hp, Function.update_self .., hh.daddr, he⟩
      · rw [he] at hy ⊢
        obtain ⟨hlt, q, g, hq, hgq, hd, hm⟩ := hsound.root.own y hy
        have ⟨hne, hplace⟩ := hg.place_old p lvl hgq nofun
        exact ⟨Nat.lt_of_lt_of_le hlt hh.root.left, q, g, hh.up.trans hq, hplace,
          (hh.daddrs g hne <| ht.ne_pml4 hgq).trans hd, hm⟩
    case loaded =>
      intro q g hq hgq
      obtain rfl := Option.some.inj <| hp.symm.trans <| hh.up.symm.trans hq
      rw [hh.pml4]
      rcases place_new hgq with ⟨rfl, -, rfl⟩ | ⟨hne, hold⟩
      · have hpt : t = s.pml4 := by
          rcases hs.parent with ⟨-, h⟩ | ⟨h, -⟩
          · exact h
          · omega
        rw [hh.daddr, ← hpt, hh.new]
      · rw [hh.daddrs g hne <| ht.ne_pml4 hold]
        rcases hh.entry (y := s.daddr g) hg.ne.symm with ⟨rfl, hd, -⟩ | ⟨-, he⟩
        · have hl : lvl = 3 := by
            rcases hs.parent with ⟨h, -⟩ | ⟨-, h⟩
            · exact h
            · exact absurd rfl <| ht.ne_pml4 h
          subst hl
          exact absurd hd <| hs.none g hold <| ht.prev3 g p hold
        · exact he.trans <| hsound.root.loaded p g hp hold

end

end Grow

end K10.Mmu
