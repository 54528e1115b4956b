import Nix.K10.Mmu

namespace K10.Mmu

variable {P G : Type} {s s' : State P G} {place place' : G → Option (Loc P)} {p q : P} {g t : G} {x : Nat}

section Keep

-- Some processes give up their tables. Those of the others stay as they are.
theorem Tables.drop (ht : Tables s place) (gone : P → Prop) (hpml4 : s'.pml4 = s.pml4) (hshelves : Shelves place' s'.list)
    (hheap : s'.heap = s.heap) (hsome : ∀ g, (place' g).isSome = (place g).isSome)
    (hold : ∀ g q l, place' g = some (.mmuptp q l) →
      place g = some (.mmuptp q l) ∧ ¬ gone q ∨ l = 0 ∧ ∀ x, s'.mem g x = .zero)
    (hkeep : ∀ g q l, ¬ gone q → place g = some (.mmuptp q l) →
      place' g = some (.mmuptp q l) ∧ s'.mem g = s.mem g ∧ s'.prev g = s.prev g ∧ s'.daddr g = s.daddr g)
    (hputs : ∀ q, ¬ gone q → s'.puts q = s.puts q) : Tables s' place' := by
  have hstay {g : G} {q : P} {l : Nat} (hg : place' g = some (.mmuptp q l)) (hl : l ≠ 0) :
      place g = some (.mmuptp q l) ∧ ¬ gone q :=
    (hold g q l hg).resolve_right fun h => hl h.left
  have hshows {q : P} {a pgsz pa : Nat} {flags : UInt32} (hq : ¬ gone q) (h : s.Shows q a pgsz pa flags) :
      s'.Shows q a pgsz pa flags := by
    rw [State.Shows, State.last, hputs q hq]
    exact h
  constructor
  case shelves => exact hshelves
  case heap => exact fun g => by rw [hheap, ht.heap, hsome]
  case pml4 =>
    have := hsome s.pml4
    rw [ht.pml4] at this
    rw [hpml4]
    exact Option.isSome_eq_false_iff.mp this |> Option.isNone_iff_eq_none.mp
  case levels =>
    intro g q l hg
    rcases hold g q l hg with ⟨hg, -⟩ | ⟨hl, -⟩
    · exact ht.levels g q l hg
    · exact .inl hl
  case prev3 =>
    intro g q hg
    have ⟨hg, hq⟩ := hstay hg nofun
    rw [(hkeep g q 3 hq hg).right.right.left, hpml4]
    exact ht.prev3 g q hg
  case prev2 =>
    intro g q hg
    have ⟨hg, hq⟩ := hstay hg nofun
    obtain ⟨t, hprev, htp⟩ := ht.prev2 g q hg
    exact ⟨t, (hkeep g q 2 hq hg).right.right.left.trans hprev, (hkeep t q 3 hq htp).left⟩
  case inj =>
    intro g g' q l hg hg' hl hprev hdaddr
    have ⟨hg, hq⟩ := hstay hg hl
    have ⟨hg', _⟩ := hstay hg' hl
    obtain ⟨-, -, hpg, hdg⟩ := hkeep g q l hq hg
    obtain ⟨-, -, hpg', hdg'⟩ := hkeep g' q l hq hg'
    rw [hpg, hpg'] at hprev
    rw [hdg, hdg'] at hdaddr
    exact ht.inj g g' q l hg hg' hl hprev hdaddr
  case pdp =>
    intro t q htq x g hm
    have ⟨htq, hq⟩ := hstay htq nofun
    rw [(hkeep t q 3 hq htq).right.left] at hm
    obtain ⟨hg, hprev, hdaddr⟩ := ht.pdp t q htq x g hm
    obtain ⟨hg', -, hpg, hdg⟩ := hkeep g q 2 hq hg
    exact ⟨hg', hpg.trans hprev, hdg.trans hdaddr⟩
  case listed =>
    intro g t q hg hprev
    have ⟨hg, hq⟩ := hstay hg nofun
    obtain ⟨-, -, hpg, hdg⟩ := hkeep g q 2 hq hg
    rw [hpg] at hprev
    obtain ⟨t', hprev', ht'⟩ := ht.prev2 g q hg
    obtain rfl : t = t' := Option.some.inj <| hprev.symm.trans hprev'
    rw [(hkeep t q 3 hq ht').right.left, hdg]
    exact ht.listed g t q hg hprev
  case pd =>
    intro g q hg x t
    have ⟨hg, hq⟩ := hstay hg nofun
    rw [(hkeep g q 2 hq hg).right.left]
    exact ht.pd g q hg x t
  case reuse =>
    intro g q hg x
    rcases hold g q 0 hg with ⟨hg, hq⟩ | ⟨-, hzero⟩
    · rw [(hkeep g q 0 hq hg).right.left]
      exact ht.reuse g q hg x
    · exact hzero x
  case big =>
    intro t q htq x pa flags hm a h3 h2
    have ⟨htq, hq⟩ := hstay htq nofun
    obtain ⟨-, hmt, -, hdt⟩ := hkeep t q 3 hq htq
    rw [hmt] at hm
    rw [hdt] at h3
    exact hshows hq <| ht.big t q htq x pa flags hm a h3 h2
  case small =>
    intro g q t hg hprev hmt y pa flags hm a h3 h2 h1
    have ⟨hg, hq⟩ := hstay hg nofun
    obtain ⟨-, hmg, hpg, hdg⟩ := hkeep g q 2 hq hg
    rw [hpg] at hprev
    obtain ⟨t', hprev', ht'⟩ := ht.prev2 g q hg
    obtain rfl : t = t' := Option.some.inj <| hprev.symm.trans hprev'
    obtain ⟨-, hmt', -, hdt⟩ := hkeep t q 3 hq ht'
    rw [hmt', hdg] at hmt
    rw [hmg] at hm
    rw [hdt] at h3
    rw [hdg] at h2
    exact hshows hq <| ht.small g q t hg hprev hmt y pa flags hm a h3 h2 h1

theorem Tables.congr (ht : Tables s place) (hpml4 : s'.pml4 = s.pml4) (hlist : s'.list = s.list) (hheap : s'.heap = s.heap)
    (hputs : s'.puts = s.puts)
    (hkeep : ∀ g i, place g = some i → s'.mem g = s.mem g ∧ s'.prev g = s.prev g ∧ s'.daddr g = s.daddr g) :
    Tables s' place :=
  ht.drop (fun _ => False) hpml4 (hlist ▸ ht.shelves) hheap (fun _ => rfl) (fun _ _ _ hg => .inl ⟨hg, id⟩)
    (fun g q l _ hg => ⟨hg, hkeep g _ hg⟩) fun _ _ => by rw [hputs]

end Keep

section Wipe

variable [DecidableEq G]

-- A loop of `mmuptpfree` clears this entry.
def State.Wiped (s : State P G) (clear : Bool) (l : List G) (g : G) (x : Nat) : Prop :=
  clear = true ∧ g ∈ l ∨ ∃ g' ∈ l, s.prev g' = some g ∧ s.daddr g' = x

theorem unhang_eq (s : State P G) (page : G) : ∃ m, s.unhang page = { s with mem := m } ∧
    ∀ g x, (s.prev page = some g ∧ s.daddr page = x → m g x = .zero) ∧
      (¬ (s.prev page = some g ∧ s.daddr page = x) → m g x = s.mem g x) := by
  rw [State.unhang]
  cases hprev : s.prev page
  case none => exact ⟨s.mem, rfl, fun g x => ⟨fun h => (nomatch h.left), fun _ => rfl⟩⟩
  case some t =>
    refine ⟨_, rfl, fun g x => ⟨fun ⟨ht, hx⟩ => ?_, fun hne => ?_⟩⟩
    · obtain rfl := Option.some.inj ht
      rw [Function.update_self, hx, Function.update_self]
    · by_cases hg : g = t
      · subst hg
        rw [Function.update_self, Function.update_of_ne fun hx => hne ⟨rfl, hx.symm⟩]
      · rw [Function.update_of_ne hg]

theorem wipe_eq (clear : Bool) (l : List G) (s : State P G) : ∃ m, State.wipe clear l s = { s with mem := m } ∧
    ∀ g x, (s.Wiped clear l g x → m g x = .zero) ∧ (¬ s.Wiped clear l g x → m g x = s.mem g x) := by
  induction l generalizing s
  case nil => exact ⟨s.mem, rfl, fun g x => ⟨fun h => by simp [State.Wiped] at h, fun _ => rfl⟩⟩
  case cons page l ih =>
    obtain ⟨m₀, hm₀⟩ : ∃ m₀, m₀ = if clear then Function.update s.mem page (fun _ => Pte.zero) else s.mem := ⟨_, rfl⟩
    have hs₀ : (if clear then { s with mem := Function.update s.mem page fun _ => .zero } else s) = { s with mem := m₀ } := by
      rw [hm₀]
      split <;> rfl
    obtain ⟨m₁, he₁, hm₁⟩ := unhang_eq { s with mem := m₀ } page
    obtain ⟨m, he, hm⟩ := ih { s with mem := m₁ }
    refine ⟨m, by rw [State.wipe, hs₀, he₁, he], fun g x => ?_⟩
    dsimp only [State.Wiped] at hm hm₁ ⊢
    constructor
    case left =>
      intro hw
      by_cases hl : clear = true ∧ g ∈ l ∨ ∃ g' ∈ l, s.prev g' = some g ∧ s.daddr g' = x
      · exact (hm g x).left hl
      rw [(hm g x).right hl]
      by_cases hp : s.prev page = some g ∧ s.daddr page = x
      · exact (hm₁ g x).left hp
      rw [(hm₁ g x).right hp, hm₀]
      rcases hw with ⟨hc, hg⟩ | ⟨g', hg', hprev⟩
      · rcases List.mem_cons.mp hg with rfl | hg
        · rw [if_pos hc, Function.update_self]
        · exact absurd (.inl ⟨hc, hg⟩) hl
      · rcases List.mem_cons.mp hg' with rfl | hg'
        · exact absurd hprev hp
        · exact absurd (.inr ⟨g', hg', hprev⟩) hl
    case right =>
      intro hw
      rw [(hm g x).right fun h => hw ?_, (hm₁ g x).right fun h => hw <| .inr ⟨page, List.mem_cons_self, h⟩, hm₀]
      · split
        case isTrue hc =>
          rw [Function.update_of_ne]
          rintro rfl
          exact hw <| .inl ⟨hc, List.mem_cons_self⟩
        case isFalse => rfl
      · exact h.imp (fun h => ⟨h.left, List.mem_cons_of_mem _ h.right⟩) fun ⟨g', hg', h⟩ =>
          ⟨g', List.mem_cons_of_mem _ hg', h⟩

end Wipe

section Free

variable [DecidableEq P] [DecidableEq G]

-- What `mmuptpfree` clears of the tables of a process.
def State.Cleared (s : State P G) (place : G → Option (Loc P)) (p : P) (clear : Bool) (g : G) (x : Nat) : Prop :=
  clear = true ∧ place g = some (.mmuptp p 2) ∨
  ∃ g', (place g' = some (.mmuptp p 2) ∨ place g' = some (.mmuptp p 3)) ∧ s.prev g' = some g ∧ s.daddr g' = x

def freed (place : G → Option (Loc P)) (p : P) (g : G) : Option (Loc P) :=
  if place g = some (.mmuptp p 2) ∨ place g = some (.mmuptp p 3) then some (.mmuptp p 0) else place g

theorem ptpfree_eq {l : Nat} (hsh : Shelves place s.list) (hl : l ≠ 0) (p : P) (clear : Bool) : ∃ m l',
    s.ptpfree p clear l = { s with mem := m, list := l' } ∧
    Shelves (fun g => if place g = some (.mmuptp p l) then some (.mmuptp p 0) else place g) l' ∧
    ∀ g x, (s.Wiped (l ≤ 2 && clear) (s.list (.mmuptp p l)) g x → m g x = .zero) ∧
      (¬ s.Wiped (l ≤ 2 && clear) (s.list (.mmuptp p l)) g x → m g x = s.mem g x) := by
  obtain ⟨m, he, hm⟩ := wipe_eq (l ≤ 2 && clear) (s.list (.mmuptp p l)) s
  refine ⟨m, _, by rw [State.ptpfree, he], ?_, hm⟩
  exact hsh.pour (fun he => hl (Loc.mmuptp.inj he).right) (List.Perm.refl _)

theorem Tables.mmuptpfree_eq (ht : Tables s place) (p : P) (clear : Bool) : ∃ m l,
    s.mmuptpfree p clear = { s with mem := m, list := l, daddr := Function.update s.daddr s.pml4 0 } ∧
    Shelves (freed place p) l ∧
    ∀ g x, (s.Cleared place p clear g x → m g x = .zero) ∧ (¬ s.Cleared place p clear g x → m g x = s.mem g x) := by
  have hne (g : G) : place g ≠ some (.mmuptp p 1) := fun hg => by
    rcases ht.levels g p 1 hg with h | h | h <;> contradiction
  have hplace : (fun g => if place g = some (.mmuptp p 1) then some (.mmuptp p 0) else place g) = place :=
    funext fun g => if_neg (hne g)
  obtain ⟨m₁, l₁, he₁, hl₁, hm₁⟩ := ptpfree_eq (l := 1) ht.shelves nofun p clear
  rw [hplace] at hl₁
  obtain ⟨m₂, l₂, he₂, hl₂, hm₂⟩ := ptpfree_eq (s := { s with mem := m₁, list := l₁ }) (l := 2) hl₁ nofun p clear
  obtain ⟨m₃, l₃, he₃, hl₃, hm₃⟩ := ptpfree_eq (s := { s with mem := m₂, list := l₂ }) (l := 3) hl₂ nofun p clear
  have hmem₃ (g : G) : g ∈ l₂ (.mmuptp p 3) ↔ place g = some (.mmuptp p 3) := by
    rw [hl₂.mem]
    by_cases hg : place g = some (.mmuptp p 2) <;> simp [hg]
  refine ⟨m₃, l₃, by rw [State.mmuptpfree, he₁, he₂, he₃], ?_, fun g x => ?_⟩
  · convert hl₃ using 2 with g
    by_cases h2 : place g = some (.mmuptp p 2) <;> by_cases h3 : place g = some (.mmuptp p 3) <;> simp [freed, h2, h3]
  · dsimp only [State.Wiped] at hm₁ hm₂ hm₃
    simp only [ht.shelves.mem, hne, and_false, false_and, exists_false, or_false] at hm₁
    simp only [hl₁.mem, Nat.le_refl, decide_true, Bool.true_and] at hm₂
    simp only [hmem₃, Nat.reduceLeDiff, decide_false, Bool.false_and, Bool.false_eq_true, false_and, false_or] at hm₃
    have hm₁ := (hm₁ g x).right id
    have ⟨hz₂, hk₂⟩ := hm₂ g x
    have ⟨hz₃, hk₃⟩ := hm₃ g x
    by_cases hw₃ : ∃ g', place g' = some (.mmuptp p 3) ∧ s.prev g' = some g ∧ s.daddr g' = x
    case pos =>
      refine ⟨fun _ => hz₃ hw₃, fun hno => ?_⟩
      obtain ⟨g', hg', h⟩ := hw₃
      exact absurd (.inr ⟨g', .inr hg', h⟩) hno
    case neg =>
      rw [hk₃ hw₃]
      constructor
      · rintro (hw | ⟨g', hg' | hg', h⟩)
        · exact hz₂ <| .inl hw
        · exact hz₂ <| .inr ⟨g', hg', h⟩
        · exact absurd ⟨g', hg', h⟩ hw₃
      · intro hno
        rw [hk₂ fun hw => hno ?_, hm₁]
        exact hw.imp id fun ⟨g', hg', h⟩ => ⟨g', .inl hg', h⟩

omit [DecidableEq G] in
theorem freed_of_ne {l : Nat} (hq : q ≠ p) (hg : place g = some (.mmuptp q l)) : freed place p g = some (.mmuptp q l) := by
  rw [freed, if_neg, hg]
  rintro (h | h) <;> exact hq (Loc.mmuptp.inj <| Option.some.inj <| hg.symm.trans h).left

omit [DecidableEq G] in
theorem isSome_freed (place : G → Option (Loc P)) (p : P) (g : G) : (freed place p g).isSome = (place g).isSome := by
  rw [freed]
  split
  case isTrue h => rcases h with h | h <;> rw [h] <;> rfl
  case isFalse => rfl

omit [DecidableEq G] in
theorem eq_of_freed {l : Nat} (hg : freed place p g = some (.mmuptp q l)) :
    (place g = some (.mmuptp p 2) ∨ place g = some (.mmuptp p 3)) ∧ q = p ∧ l = 0 ∨
    ¬ (place g = some (.mmuptp p 2) ∨ place g = some (.mmuptp p 3)) ∧ place g = some (.mmuptp q l) := by
  rw [freed] at hg
  split at hg
  case isTrue h =>
    obtain ⟨rfl, rfl⟩ := Loc.mmuptp.inj <| Option.some.inj hg
    exact .inl ⟨h, rfl, rfl⟩
  case isFalse h => exact .inr ⟨h, hg⟩

omit [DecidableEq P] [DecidableEq G] in
theorem Tables.not_cleared {l : Nat} {clear : Bool} (ht : Tables s place) (hq : q ≠ p) (hg : place g = some (.mmuptp q l))
    (x : Nat) : ¬ s.Cleared place p clear g x := by
  have hne {l' : Nat} (h : place g = some (.mmuptp p l')) : False :=
    hq (Loc.mmuptp.inj <| Option.some.inj <| hg.symm.trans h).left
  rintro (⟨-, h⟩ | ⟨g', h | h, hprev, -⟩)
  · exact hne h
  · obtain ⟨t, hprev', ht'⟩ := ht.prev2 g' p h
    obtain rfl := Option.some.inj <| hprev.symm.trans hprev'
    exact hne ht'
  · obtain rfl := Option.some.inj <| hprev.symm.trans <| ht.prev3 g' p h
    rw [ht.pml4] at hg
    contradiction

-- No table of the process has a large page that a flush would leave there.
def State.Clean (s : State P G) (p : P) : Prop :=
  ∀ t ∈ s.list (.mmuptp p 3), ∀ x pa flags, s.mem t x = .leaf pa flags →
    ∃ g ∈ s.list (.mmuptp p 2), s.prev g = some t ∧ s.daddr g = x

theorem Tables.flush (ht : Tables s place) (hclean : s.Clean p) (newtlb : P → Bool) :
    Tables { s.mmuptpfree p true with newtlb, puts := Function.update s.puts p [] } (freed place p) := by
  obtain ⟨m, l, he, hl, hm⟩ := ht.mmuptpfree_eq p true
  rw [he]
  have hzero {g : G} (hg : place g = some (.mmuptp p 2) ∨ place g = some (.mmuptp p 3)) (x : Nat) : m g x = .zero := by
    by_cases hc : s.Cleared place p true g x
    · exact (hm g x).left hc
    have h3 : place g = some (.mmuptp p 3) := hg.resolve_left fun h2 => hc <| .inl ⟨rfl, h2⟩
    rw [(hm g x).right hc]
    cases hmem : s.mem g x
    case zero => rfl
    case table g' =>
      obtain ⟨hg', h⟩ := ht.pdp g p h3 x g' hmem
      exact absurd (.inr ⟨g', .inl hg', h⟩) hc
    case leaf pa flags =>
      obtain ⟨g', hg', h⟩ := hclean g (ht.shelves.mem.mpr h3) x pa flags hmem
      exact absurd (.inr ⟨g', .inl <| ht.shelves.mem.mp hg', h⟩) hc
  refine ht.drop (· = p) rfl hl rfl (isSome_freed place p) (fun g q l hg => ?_) (fun g q l hq hg => ?_) fun q hq => ?_
  · rcases eq_of_freed hg with ⟨hold, -, rfl⟩ | ⟨hno, hold⟩
    · exact .inr ⟨rfl, hzero hold⟩
    · by_cases hq : q = p
      case neg => exact .inl ⟨hold, hq⟩
      case pos =>
        subst hq
        obtain rfl : l = 0 := by
          refine (ht.levels g q l hold).resolve_right fun h => hno ?_
          rcases h with rfl | rfl
          · exact .inl hold
          · exact .inr hold
        refine .inr ⟨rfl, fun x => ?_⟩
        by_cases hc : s.Cleared place q true g x
        · exact (hm g x).left hc
        · exact ((hm g x).right hc).trans <| ht.reuse g q hold x
  · refine ⟨freed_of_ne hq hg, funext fun x => (hm g x).right <| ht.not_cleared hq hg x, rfl, ?_⟩
    refine Function.update_of_ne ?_ ..
    rintro rfl
    rw [ht.pml4] at hg
    contradiction
  · exact Function.update_of_ne hq ..

omit [DecidableEq P] [DecidableEq G] in
theorem Tables.ne_pml4 {i : Loc P} (ht : Tables s place) (hg : place g = some i) : g ≠ s.pml4 := by
  rintro rfl
  rw [ht.pml4] at hg
  contradiction

theorem putpages_eq {l : List G} (h : State.putpages p l s = some s') : ∃ ref prev,
    s' = { s with
      ref, prev
      list := Function.update (Function.update s.list (.mmuptp p 0) []) .free (l.reverse ++ s.list .free) } ∧
    ∀ g, g ∉ l → prev g = s.prev g := by
  have hne : (Loc.free : Loc P) ≠ .mmuptp p 0 := nofun
  induction l generalizing s
  case nil =>
    obtain rfl := Option.some.inj h
    refine ⟨s.ref, s.prev, ?_, fun _ _ => rfl⟩
    congr 1
    refine (Function.update_eq_self_iff.mpr ?_).symm
    rw [Function.update_of_ne hne]
    rfl
  case cons page l ih =>
    obtain ⟨-, h⟩ := Option.ite_none_left_eq_some.mp h
    obtain ⟨ref, prev, rfl, hprev⟩ := ih h
    refine ⟨ref, prev, ?_, fun g hg => ?_⟩
    · congr 1
      dsimp only
      rw [Function.update_comm hne, Function.update_idem, Function.update_self, List.reverse_cons,
        List.append_assoc]
      rfl
    · rw [List.mem_cons, not_or] at hg
      exact (hprev g hg.right).trans <| Function.update_of_ne hg.left ..

-- Nothing is loaded that `p` does not have as well.
def State.Alone (s : State P G) (p : P) : Prop :=
  ∀ q, s.up = some q → ∀ g ∈ s.list (.mmuptp q 3), ∃ g' ∈ s.list (.mmuptp p 3), s.daddr g' = s.daddr g

omit [DecidableEq P] [DecidableEq G] in
theorem Sound.cleared {clear : Bool} (hs : Sound s place) (halone : s.Alone p) (hx : s.mem s.pml4 x ≠ .zero) :
    s.Cleared place p clear s.pml4 x := by
  have ht := hs.tables
  obtain ⟨-, q, g, hq, hg, hd, -⟩ := hs.root.own x hx
  obtain ⟨g', hg', hd'⟩ := halone q hq g (ht.shelves.mem.mpr hg)
  have hg' := ht.shelves.mem.mp hg'
  exact .inr ⟨g', .inr hg', ht.prev3 g' p hg', hd'.trans hd⟩

def released (place : G → Option (Loc P)) (p : P) (g : G) : Option (Loc P) :=
  if freed place p g = some (.mmuptp p 0) then some .free else freed place p g

theorem Sound.mmurelease (hs : Sound s place) (halone : s.Alone p) (h : s.mmurelease p = some s') :
    Sound s' (released place p) := by
  have ht := hs.tables
  obtain ⟨m, l, he, hl, hm⟩ := ht.mmuptpfree_eq p false
  rw [State.mmurelease, he] at h
  obtain ⟨s'', hput, hs'⟩ := Option.bind_eq_some_iff.mp h
  obtain rfl := Option.some.inj hs'
  obtain ⟨ref, prev, rfl, hprev⟩ := putpages_eq hput
  dsimp only at hprev
  have hpml4 (x : Nat) : m s.pml4 x = .zero := by
    by_cases hc : s.Cleared place p false s.pml4 x
    · exact (hm _ x).left hc
    · refine ((hm _ x).right hc).trans <| Classical.byContradiction fun hx => hc <| hs.cleared halone hx
  have hof {g : G} {q : P} {l : Nat} (hg : released place p g = some (.mmuptp q l)) :
      place g = some (.mmuptp q l) ∧ q ≠ p := by
    rw [released] at hg
    split at hg
    case isTrue => cases Option.some.inj hg
    case isFalse hne =>
      rcases eq_of_freed hg with ⟨-, rfl, rfl⟩ | ⟨hno, hold⟩
      · exact absurd hg hne
      · refine ⟨hold, ?_⟩
        rintro rfl
        rcases ht.levels g q l hold with rfl | rfl | rfl
        · exact hne hg
        · exact hno <| .inl hold
        · exact hno <| .inr hold
  constructor
  case tables =>
    refine ht.drop (· = p) rfl (hl.pour nofun (List.reverse_perm _)) rfl (fun g => ?_) (fun g q l hg => .inl <| hof hg)
      (fun g q l hq hg => ?_) fun q hq => Function.update_of_ne hq ..
    · rw [released, ← isSome_freed place p g]
      split
      case isTrue h => rw [h]; rfl
      case isFalse => rfl
    · have hfreed := freed_of_ne hq hg
      have hne : freed place p g ≠ some (.mmuptp p 0) := by
        rw [hfreed]
        exact fun he => hq (Loc.mmuptp.inj <| Option.some.inj he).left
      refine ⟨by rw [released, if_neg hne, hfreed], funext fun x => (hm g x).right <| ht.not_cleared hq hg x, ?_, ?_⟩
      · exact hprev g fun hmem => hne <| hl.mem.mp hmem
      · exact Function.update_of_ne (ht.ne_pml4 hg) ..
  case root =>
    constructor
    case own => exact fun x hx => absurd (hpml4 x) hx
    case loaded => exact nofun

end Free

section Load

variable [DecidableEq P] [DecidableEq G]

omit [DecidableEq P] in
theorem load_eq {l : List G} (hne : ∀ g ∈ l, g ≠ s.pml4) : ∃ m d v,
    l.foldl State.load s = { s with mem := m, daddr := d, prev := v } ∧
    (∀ g, g ≠ s.pml4 → m g = s.mem g ∧ d g = s.daddr g) ∧
    (∀ g, v g = s.prev g ∨ g ∈ l ∧ v g = some s.pml4) ∧
    s.daddr s.pml4 ≤ d s.pml4 ∧ (∀ g ∈ l, s.daddr g < d s.pml4) ∧
    ∀ x, (∃ g ∈ l, s.daddr g = x ∧ m s.pml4 x = .table g) ∨ (∀ g ∈ l, s.daddr g ≠ x) ∧ m s.pml4 x = s.mem s.pml4 x := by
  induction l generalizing s
  case nil =>
    exact ⟨s.mem, s.daddr, s.prev, rfl, fun _ _ => ⟨rfl, rfl⟩, fun _ => .inl rfl, Nat.le_refl _, fun _ hg => absurd hg List.not_mem_nil,
      fun _ => .inr ⟨fun _ hg => absurd hg List.not_mem_nil, rfl⟩⟩
  case cons page l ih =>
    rw [List.forall_mem_cons] at hne
    obtain ⟨s₁, hs₁⟩ : ∃ s₁, s₁ = s.load page := ⟨_, rfl⟩
    have hpml4 : s₁.pml4 = s.pml4 := hs₁ ▸ rfl
    have hdaddr (g : G) (hg : g ≠ s.pml4) : s₁.daddr g = s.daddr g := by
      rw [hs₁, State.load]
      dsimp only
      split
      · exact Function.update_of_ne hg ..
      · rfl
    have hroot : s.daddr s.pml4 ≤ s₁.daddr s.pml4 ∧ s.daddr page < s₁.daddr s.pml4 := by
      rw [hs₁, State.load]
      dsimp only
      split
      case isTrue h =>
        rw [Function.update_self]
        omega
      case isFalse h => omega
    obtain ⟨m, d, v, he, hkeep, hv, hle, hlt, hx⟩ := ih (s := s₁) (hpml4 ▸ hne.right)
    rw [hpml4] at hkeep hv hle hlt hx
    refine ⟨m, d, v, ?_, fun g hg => ?_, fun g => ?_, Nat.le_trans hroot.left hle, fun g hg => ?_, fun x => ?_⟩
    · rw [List.foldl_cons, ← hs₁, he, hs₁]
      rfl
    · have ⟨hmg, hdg⟩ := hkeep g hg
      refine ⟨hmg.trans ?_, hdg.trans <| hdaddr g hg⟩
      rw [hs₁]
      exact Function.update_of_ne hg ..
    · rcases hv g with hvg | ⟨hg, hvg⟩
      · by_cases hgp : g = page
        · refine .inr ⟨hgp ▸ List.mem_cons_self, hvg.trans ?_⟩
          rw [hs₁, hgp]
          exact Function.update_self ..
        · refine .inl <| hvg.trans ?_
          rw [hs₁]
          exact Function.update_of_ne hgp ..
      · exact .inr ⟨List.mem_cons_of_mem _ hg, hvg⟩
    · rcases List.mem_cons.mp hg with rfl | hg
      · exact Nat.lt_of_lt_of_le hroot.right hle
      · exact hdaddr g (hne.right g hg) ▸ hlt g hg
    · rcases hx x with ⟨g, hg, hd, hmx⟩ | ⟨hno, hmx⟩
      · exact .inl ⟨g, List.mem_cons_of_mem _ hg, hdaddr g (hne.right g hg) ▸ hd, hmx⟩
      · have hload : s₁.mem s.pml4 = Function.update (s.mem s.pml4) (s.daddr page) (.table page) := by
          rw [hs₁]
          exact Function.update_self ..
        rw [hload] at hmx
        by_cases hxp : x = s.daddr page
        · refine .inl ⟨page, List.mem_cons_self, hxp.symm, hmx.trans ?_⟩
          rw [hxp, Function.update_self]
        · rw [Function.update_of_ne hxp] at hmx
          refine .inr ⟨fun g hg => ?_, hmx⟩
          rcases List.mem_cons.mp hg with rfl | hg
          · exact fun h => hxp h.symm
          · exact hdaddr g (hne.right g hg) ▸ hno g hg

omit [DecidableEq P] in
theorem Tables.load (ht : Tables s place) (hroot : ∀ x, s.mem s.pml4 x = .zero) (p : P) :
    Sound { (s.list (.mmuptp p 3)).foldl State.load s with up := some p } place := by
  have hmem {g : G} : g ∈ s.list (.mmuptp p 3) ↔ place g = some (.mmuptp p 3) := ht.shelves.mem
  obtain ⟨m, d, v, he, hkeep, hv, hle, hlt, hx⟩ := load_eq fun g hg => ht.ne_pml4 (hmem.mp hg)
  rw [he]
  have hd {g : G} (hg : place g = some (.mmuptp p 3)) : d g = s.daddr g := (hkeep g <| ht.ne_pml4 hg).right
  constructor
  case tables =>
    refine ht.congr rfl rfl rfl rfl fun g i hg => ?_
    have ⟨hmg, hdg⟩ := hkeep g <| ht.ne_pml4 hg
    refine ⟨hmg, ?_, hdg⟩
    rcases hv g with hvg | ⟨hg, hvg⟩
    · exact hvg
    · exact hvg.trans (ht.prev3 g p <| hmem.mp hg).symm
  case root =>
    constructor
    case own =>
      intro x hne
      rcases hx x with ⟨g, hg, hdg, hmx⟩ | ⟨-, hmx⟩
      · exact ⟨hdg ▸ hlt g hg, p, g, rfl, hmem.mp hg, (hd <| hmem.mp hg).trans hdg, hmx⟩
      · exact absurd (hmx.trans <| hroot x) hne
    case loaded =>
      intro q g hq hg
      obtain rfl := Option.some.inj hq
      dsimp only
      rw [hd hg]
      rcases hx (s.daddr g) with ⟨g', hg', hdg, hmx⟩ | ⟨hno, -⟩
      · have hg' := hmem.mp hg'
        have hprev := (ht.prev3 g' p hg').trans (ht.prev3 g p hg).symm
        rw [hmx, ht.inj g' g p 3 hg' hg nofun hprev hdg]
      · exact absurd rfl <| hno g <| hmem.mpr hg

-- A flush is done of a process that has no core, and whose tables are not those of another one or kept in part.
structure State.Flushes (s : State P G) (p : P) : Prop where
  ac    : s.ac p = false
  clean : s.Clean p
  alone : s.Alone p

omit [DecidableEq P] in
theorem Tables.mmuflushtlb (ht : Tables s place) : Tables s.mmuflushtlb place :=
  ht.congr rfl rfl rfl rfl fun _ _ hg =>
    ⟨Function.update_of_ne (ht.ne_pml4 hg) .., rfl, Function.update_of_ne (ht.ne_pml4 hg) ..⟩

omit [DecidableEq P] in
theorem Sound.mmuflushtlb_mem (hs : Sound s place) (x : Nat) : s.mmuflushtlb.mem s.pml4 x = .zero := by
  change Function.update s.mem s.pml4 (fun x => if x < s.daddr s.pml4 then .zero else s.mem s.pml4 x) s.pml4 x = _
  rw [Function.update_self]
  split
  case isTrue => rfl
  case isFalse hx => exact Classical.byContradiction fun hne => hx (hs.root.own x hne).left

theorem Sound.mmuswitch (hs : Sound s place) (hf : s.newtlb p = true → s.Flushes p) : ∃ place', Sound (s.mmuswitch p) place' := by
  have ht := hs.tables
  rw [State.mmuswitch]
  cases hn : s.newtlb p
  case true =>
    obtain ⟨hac, hclean, halone⟩ := hf hn
    obtain ⟨m, l, he, hl, hm⟩ := ht.mmuptpfree_eq p true
    have htables := ht.flush hclean (Function.update s.newtlb p false)
    have hpml4 (x : Nat) : m s.pml4 x = .zero := by
      by_cases hc : s.Cleared place p true s.pml4 x
      · exact (hm _ x).left hc
      · refine ((hm _ x).right hc).trans <| Classical.byContradiction fun hx => hc <| hs.cleared halone hx
    refine ⟨freed place p, ?_⟩
    rw [he] at htables
    rw [hac, he]
    simp only [if_true, Bool.false_eq_true, if_false, Function.update_self, ne_eq, not_true_eq_false]
    exact htables.load hpml4 p
  case false =>
    refine ⟨place, ?_⟩
    simp only [Bool.false_eq_true, if_false]
    split
    case isTrue => exact ht.mmuflushtlb.load hs.mmuflushtlb_mem p
    case isFalse hd =>
      refine ht.load (fun x => Classical.byContradiction fun hx => ?_) p
      exact Nat.not_lt_zero x <| not_not.mp hd ▸ (hs.root.own x hx).left

omit [DecidableEq P] in
theorem Sound.off (hs : Sound s place) : Sound { s.mmuflushtlb with up := none } place where
  tables := hs.tables.mmuflushtlb.congr rfl rfl rfl rfl fun _ _ _ => ⟨rfl, rfl, rfl⟩
  root   := ⟨fun x hx => absurd (hs.mmuflushtlb_mem x) hx, nofun⟩

theorem Sound.mmuflush (hs : Sound s place) (hf : ∀ p, s.up = some p → s.Flushes p) (h : s.mmuflush = some s') :
    ∃ place', Sound s' place' := by
  obtain ⟨p, hp, h⟩ := Option.bind_eq_some_iff.mp h
  obtain rfl := Option.some.inj h
  have hs' : Sound { s with newtlb := Function.update s.newtlb p true } place :=
    ⟨hs.tables.congr rfl rfl rfl rfl fun _ _ _ => ⟨rfl, rfl, rfl⟩, hs.root.own, hs.root.loaded⟩
  have ⟨hac, hclean, halone⟩ := hf p hp
  exact hs'.mmuswitch fun _ => ⟨hac, hclean, halone⟩

end Load

end K10.Mmu
