import Nix.Ip.IprouteLookup

-- The routes that were added and not removed, and where they are.
namespace Ip.Iproute

open Tree
open Arp (IPaddr)

section

variable {A G : Type} [LinearOrder A] {H : A → Nat} {P : Range A → Prop} {rt r s : Range A} {la : A} {n p q x y : Route A G}
  {t : Tree A G} {root root' : Nat → Tree A G} {g : Tree A G → Option (Tree A G)} {k j h i : Nat}

-- But for the interface that it was last used with.
def Route.bare (x : Route A G) : Route A G :=
  { x with ifc := none, ifcid := 0 }

theorem range_of_bare (h : x.bare = y.bare) : x.range = y.range := by
  have hrange := congrArg Route.range h
  exact hrange

-- The routes by their ranges.
abbrev Table (A G : Type) [LinearOrder A] := Range A → Option (Route A G)

namespace Table

def add (n : Route A G) (T : Table A G) : Table A G :=
  Function.update T n.range (some ((T n.range).elim n (supercede · n)).bare)

def del (rt : Range A) (T : Table A G) : Table A G :=
  Function.update T rt ((T rt).bind fun y => if y.ref = 1 then none else some { y with ref := y.ref - 1 })

def flush (tag : Option (List UInt8)) (T : Table A G) : Table A G :=
  fun rt => (T rt).filter fun x => !flushed tag x

-- The route is one of the table.
def Has (T : Table A G) (x : Route A G) : Prop :=
  T x.range = some x.bare

end Table

-- No route is one to the address.
def Table.Unreachable (T : Table A G) (la : A) : Prop :=
  ∀ rt x, T rt = some x → la ∉ rt

-- The most specific of the routes to the address.
def Table.Longest (T : Table A G) (la : A) (x : Route A G) : Prop :=
  T.Has x ∧ la ∈ x.range ∧ ∀ rt y, T rt = some y → la ∈ rt → rt = x.range ∨ x.range.Within rt

-- The ranges that there are routes for: they are nested, and the trees of a range are those of its addresses.
structure Prefixes (H : A → Nat) (P : Range A → Prop) : Prop where
  nested : ∀ r s, P r → P s → r.Nested s
  bucket : ∀ r la, P r → la ∈ r → H r.lo ≤ H la ∧ H la ≤ H r.hi
  roots  : ∀ la, H la < 1 <<< Lroot

def InBucket (H : A → Nat) (rt : Range A) (h : Nat) : Prop :=
  H rt.lo ≤ h ∧ h ≤ H rt.hi

-- Every tree is in order, and has in it the routes of the table that belong there.
structure Sound (H : A → Nat) (P : Range A → Prop) (T : Table A G) (root : Nat → Tree A G) : Prop where
  ordered : ∀ h, (root h).Ordered
  table   : ∀ h x, (∃ y ∈ (root h).routes, y.bare = x) ↔ T x.range = some x ∧ InBucket H x.range h
  key     : ∀ rt x, T rt = some x → x.range = rt
  good    : ∀ rt x, T rt = some x → P rt ∧ (x.type &&& Rifc = 0 → x.ref = 1)

theorem Sound.mem (hs : Sound H P T root) (hy : y ∈ (root h).routes) : T.Has y ∧ InBucket H y.range h :=
  (hs.table h y.bare).mp ⟨y, hy, rfl⟩

theorem Sound.ranged (hs : Sound H P T root) (hy : y ∈ (root h).routes) : P y.range :=
  (hs.good y.range y.bare (hs.mem hy).left).left

theorem Sound.exists_route (hs : Sound H P T root) (hT : T rt = some x) (hi : InBucket H rt h) :
    ∃ y ∈ (root h).routes, y.bare = x ∧ y.range = rt := by
  have hkey := hs.key rt x hT
  obtain ⟨y, hy, rfl⟩ := (hs.table h x).mpr ⟨by rw [hkey]; exact hT, by rw [hkey]; exact hi⟩
  exact ⟨y, hy, rfl, hkey⟩

theorem Sound.init (H : A → Nat) (P : Range A → Prop) : Sound H P (fun _ => none : Table A G) fun _ => nil where
  ordered := fun _ => trivial
  table   := by simp [routes]
  key     := by simp
  good    := by simp

-- Each of some trees is changed.
theorem buckets_spec {Q : Nat → Tree A G → Prop} (n : Nat)
    (hg : ∀ i, h ≤ i → i < h + n → ∃ t, g (root i) = some t ∧ Q i t) : ∃ root', buckets g n h root = some root' ∧
      (∀ i, h ≤ i → i < h + n → Q i (root' i)) ∧ ∀ i, ¬(h ≤ i ∧ i < h + n) → root' i = root i := by
  induction n generalizing h root
  case zero      => exact ⟨root, rfl, fun i hlo hhi => by omega, fun _ _ => rfl⟩
  case succ n ih =>
    obtain ⟨t, ht, hQ⟩ := hg h le_rfl (by omega)
    have hsame {i : Nat} (hi : i ≠ h) : Function.update root h t i = root i := Function.update_of_ne hi ..
    obtain ⟨root', hroot', hin, hout⟩ := @ih (Function.update root h t) (h + 1) fun i hlo hhi => by
      rw [hsame (by omega)]
      exact hg i (by omega) (by omega)
    refine ⟨root', by rw [buckets, ht]; exact hroot', fun i hlo hhi => ?_, fun i hi => ?_⟩
    · rcases Nat.eq_or_lt_of_le hlo with rfl | hlt
      · rw [hout h (by omega), Function.update_self]
        exact hQ
      · exact hin i hlt (by omega)
    · rw [hout i (by omega), hsame (by omega)]

theorem eachbucket_spec {Q : Nat → Tree A G → Prop} (hg : ∀ i, InBucket H rt i → ∃ t, g (root i) = some t ∧ Q i t) :
    ∃ root', eachbucket H rt g root = some root' ∧ (∀ i, InBucket H rt i → Q i (root' i)) ∧
      ∀ i, ¬InBucket H rt i → root' i = root i := by
  have hiff (i : Nat) : InBucket H rt i ↔ H rt.lo ≤ i ∧ i < H rt.lo + (H rt.hi + 1 - H rt.lo) := by
    rw [InBucket]
    omega
  obtain ⟨root', hroot', hin, hout⟩ := @buckets_spec _ _ _ root g (H rt.lo) Q (H rt.hi + 1 - H rt.lo)
    fun i hlo hhi => hg i ((hiff i).mpr ⟨hlo, hhi⟩)
  refine ⟨root', hroot', fun i hi => ?_, fun i hi => hout i ((hiff i).not.mp hi)⟩
  exact hin i ((hiff i).mp hi).left ((hiff i).mp hi).right

theorem bare_supercede (y n : Route A G) : (supercede y n).bare = (supercede y.bare n).bare := by
  have htype : y.bare.type = y.type := rfl
  rw [supercede, supercede, htype]
  split_ifs <;> rfl

-- One table is changed at one range, and the trees are changed where it belongs.
theorem Sound.change (hs : Sound H P T root) {T' : Table A G} (hT : ∀ s, s ≠ rt → T' s = T s)
    (hord : ∀ i, InBucket H rt i → (root' i).Ordered) (hout : ∀ i, ¬InBucket H rt i → root' i = root i)
    (hin : ∀ i, InBucket H rt i → ∀ x : Route A G, (∃ y ∈ (root' i).routes, y.bare = x) ↔
      (x.range ≠ rt ∧ ∃ y ∈ (root i).routes, y.bare = x) ∨ T' rt = some x)
    (hkey : ∀ x, T' rt = some x → x.range = rt) (hgood : ∀ x, T' rt = some x → P rt ∧ (x.type &&& Rifc = 0 → x.ref = 1)) :
    Sound H P T' root' := by
  refine ⟨fun i => ?_, fun i x => ?_, fun s x hx => ?_, fun s x hx => ?_⟩
  · by_cases hi : InBucket H rt i
    · exact hord i hi
    · rw [hout i hi]
      exact hs.ordered i
  · by_cases hi : InBucket H rt i
    · rw [hin i hi, hs.table]
      by_cases hx : x.range = rt
      · rw [hx]
        simp [hi]
      · rw [hT _ hx]
        exact ⟨fun h => h.elim And.right fun h => absurd (hkey x h) hx, fun h => .inl ⟨hx, h⟩⟩
    · rw [hout i hi, hs.table]
      by_cases hx : x.range = rt
      · rw [hx]
        exact iff_of_false (fun h => hi h.right) fun h => hi h.right
      · rw [hT _ hx]
  · by_cases hsrt : s = rt
    · subst hsrt
      exact hkey x hx
    · rw [hT s hsrt] at hx
      exact hs.key s x hx
  · by_cases hsrt : s = rt
    · subst hsrt
      exact hgood x hx
    · rw [hT s hsrt] at hx
      exact hs.good s x hx

theorem Sound.add (hs : Sound H P T root) (hp : Prefixes H P) (hn : P n.range) (hbare : n.bare = n) (href : n.ref = 1)
    (hk : 1 ≤ k) : ∃ root', eachbucket H n.range (addroute k n) root = some root' ∧ Sound H P (T.add n) root' := by
  have hspec (i : Nat) (_ : InBucket H n.range i) := @addroute_spec _ _ _ n (root i) k (hs.ordered i)
    (fun y hy => hp.nested _ _ hn (hs.ranged hy)) hk
  obtain ⟨root', hroot', hin, hout⟩ := eachbucket_spec hspec
  have hone : T.add n n.range = some ((T n.range).elim n (supercede · n)).bare := Function.update_self ..
  refine ⟨root', hroot', @Sound.change _ _ _ _ _ n.range _ _ _ hs _ (fun s hsn => Function.update_of_ne hsn ..)
    (fun i hi => (hin i hi).left) hout (fun i hi x => ?_) (fun x hx => ?_) fun x hx => ⟨hn, fun htype => ?_⟩⟩
  · rw [hone]
    simp only [(hin i hi).right, Option.some.injEq]
    constructor
    · rintro ⟨y, ⟨hy, hne⟩ | ⟨rfl, hne⟩ | ⟨z, hz, heq, rfl⟩, rfl⟩
      · exact .inl ⟨hne, y, hy, rfl⟩
      · right
        have hnone : T y.range = none := by
          refine Option.eq_none_iff_forall_not_mem.mpr fun z hz => ?_
          obtain ⟨w, hw, -, hrange⟩ := hs.exists_route hz hi
          exact hne w hw hrange
        rw [hnone]
        rfl
      · right
        have hT : T n.range = some z.bare := heq ▸ (hs.mem hz).left
        rw [hT]
        exact (bare_supercede z n).symm
    · rintro (⟨hne, y, hy, rfl⟩ | hx)
      · exact ⟨y, .inl ⟨hy, hne⟩, rfl⟩
      · cases hT : T n.range with
        | none   =>
          rw [hT] at hx
          refine ⟨n, .inr (.inl ⟨rfl, fun y hy heq => ?_⟩), hx⟩
          have hy := (hs.mem hy).left
          rw [Table.Has, heq, hT] at hy
          exact absurd hy (by simp)
        | some z =>
          rw [hT] at hx
          obtain ⟨w, hw, rfl, hrange⟩ := hs.exists_route hT hi
          exact ⟨supercede w n, .inr (.inr ⟨w, hw, hrange, rfl⟩), (bare_supercede w n).trans hx⟩
  · rw [hone] at hx
    obtain rfl := Option.some.inj hx
    cases hT : T n.range with
    | none   => rfl
    | some z => exact (supercede_range z n).trans (hs.key _ z hT)
  · rw [hone] at hx
    obtain rfl := Option.some.inj hx
    cases hT : T n.range with
    | none   => exact href
    | some z =>
      have hz := (hs.good _ z hT).right
      rw [hT] at htype
      simp only [Option.elim, Route.bare, supercede] at htype ⊢
      split_ifs at htype ⊢ with h1 h2
      · exact hz h1
      · exact absurd htype h1
      · exact absurd htype h1

-- Some of the routes are gone, and the others are the same.
def Without (gone : Route A G → Prop) (root root' : Nat → Tree A G) : Prop :=
  ∀ i x, x ∈ (root' i).routes ↔ x ∈ (root i).routes ∧ ¬gone x

theorem Without.trans {gone gone' : Route A G → Prop} {root'' : Nat → Tree A G} (h : Without gone root root')
    (h' : Without gone' root' root'') : Without (fun x => gone x ∨ gone' x) root root'' := by
  intro i x
  rw [h', h, not_or, and_assoc]

theorem Sound.del (hs : Sound H P T root) (hp : Prefixes H P) (hrt : P rt) (hk : 3 ≤ k) :
    ∃ root', eachbucket H rt (delroute k rt) root = some root' ∧ Sound H P (T.del rt) root' ∧
      ((∀ y, T rt = some y → y.ref = 1) → Without (·.range = rt) root root') := by
  have hspec (i : Nat) (_ : InBucket H rt i) := @delroute_spec _ _ _ rt (root i) k (hs.ordered i)
    (fun y hy => hp.nested _ _ hrt (hs.ranged hy)) hk
  obtain ⟨root', hroot', hin, hout⟩ := eachbucket_spec hspec
  have hone : T.del rt rt = (T rt).bind fun y => if y.ref = 1 then none else some { y with ref := y.ref - 1 } :=
    Function.update_self ..
  have hless (x : Route A G) : T.del rt rt = some x ↔ ∃ y, T rt = some y ∧ y.ref ≠ 1 ∧ x = { y with ref := y.ref - 1 } := by
    rw [hone, Option.bind_eq_some_iff]
    refine exists_congr fun y => and_congr_right fun _ => ?_
    split_ifs with href
    · exact iff_of_false (by simp) fun h => h.left href
    · rw [Option.some.injEq]
      exact ⟨fun h => ⟨href, h.symm⟩, fun h => h.right.symm⟩
  refine ⟨root', hroot', @Sound.change _ _ _ _ _ rt _ _ _ hs _ (fun s hsn => Function.update_of_ne hsn ..)
    (fun i hi => (hin i hi).left) hout (fun i hi x => ?_) (fun x hx => ?_) fun x hx => ?_, fun hone i x => ?_⟩
  · rw [hless]
    simp only [(hin i hi).right]
    constructor
    · rintro ⟨y, ⟨hy, hne⟩ | ⟨z, hz, heq, href, rfl⟩, rfl⟩
      · exact .inl ⟨hne, y, hy, rfl⟩
      · exact .inr ⟨z.bare, heq ▸ (hs.mem hz).left, href, rfl⟩
    · rintro (⟨hne, y, hy, rfl⟩ | ⟨z, hz, href, rfl⟩)
      · exact ⟨y, .inl ⟨hy, hne⟩, rfl⟩
      · obtain ⟨w, hw, rfl, hrange⟩ := hs.exists_route hz hi
        exact ⟨{ w with ref := w.ref - 1 }, .inr ⟨w, hw, hrange, href, rfl⟩, rfl⟩
  · obtain ⟨y, hy, -, rfl⟩ := (hless x).mp hx
    exact hs.key _ y hy
  · obtain ⟨y, hy, href, rfl⟩ := (hless x).mp hx
    exact ⟨hrt, fun htype => absurd ((hs.good _ y hy).right htype) href⟩
  · by_cases hi : InBucket H rt i
    · rw [(hin i hi).right]
      refine or_iff_left ?_
      rintro ⟨y, hy, rfl, href, -⟩
      exact href (hone y.bare (hs.mem hy).left)
    · rw [hout i hi]
      refine (and_iff_left_of_imp fun hx heq => hi ?_).symm
      rw [← heq]
      exact (hs.mem hx).right

theorem Sound.search (hs : Sound H P T root) (hp : Prefixes H P) (la : A) :
    (search la none (root (H la)) = none ∧ T.Unreachable la) ∨
      ∃ x ∈ (root (H la)).routes, search la none (root (H la)) = some x ∧ T.Longest la x := by
  have hhere (rt : Range A) (y : Route A G) (hy : T rt = some y) (hla : la ∈ rt) :
      ∃ z ∈ (root (H la)).routes, z.range = rt := by
    obtain ⟨z, hz, -, hrange⟩ := hs.exists_route hy (hp.bucket rt la (hs.good _ _ hy).left hla)
    exact ⟨z, hz, hrange⟩
  rcases search_spec (hs.ordered (H la)) (none : Option (Route A G)) with ⟨hnone, hne⟩ | ⟨x, hx, hmem, hla, hmost⟩
  · refine .inl ⟨hnone, fun rt y hy hla => ?_⟩
    obtain ⟨z, hz, rfl⟩ := hhere rt y hy hla
    exact hne z hz hla
  · refine .inr ⟨x, hmem, hx, (hs.mem hmem).left, hla, fun rt y hy hla => ?_⟩
    obtain ⟨z, hz, rfl⟩ := hhere rt y hy hla
    exact (hmost z hz hla).imp (congrArg Route.range) id

theorem Sound.set (hs : Sound H P T root) (hq : q ∈ (root h).routes) (hx : x.bare = q.bare) :
    Sound H P T (Function.update root h ((root h).set x)) := by
  have hrange := range_of_bare hx
  have hsame (y : Route A G) (hy : y ∈ (root h).routes) : (if y.range = x.range then x else y).bare = y.bare := by
    split
    case isTrue heq  =>
      have hhasq := (hs.mem hq).left
      have hhasy := (hs.mem hy).left
      rw [Table.Has, heq, hrange, hhasq] at hhasy
      exact hx.trans (Option.some.inj hhasy)
    case isFalse heq => rfl
  refine ⟨fun i => ?_, fun i z => ?_, hs.key, hs.good⟩
  · by_cases hi : i = h
    · rw [hi, Function.update_self]
      exact (hs.ordered h).set x
    · rw [Function.update_of_ne hi]
      exact hs.ordered i
  · rw [← hs.table]
    by_cases hi : i = h
    · rw [hi, Function.update_self, routes_set]
      constructor
      · rintro ⟨y, hy, rfl⟩
        obtain ⟨w, hw, rfl⟩ := List.mem_map.mp hy
        exact ⟨w, hw, (hsame w hw).symm⟩
      · rintro ⟨y, hy, rfl⟩
        exact ⟨_, List.mem_map_of_mem hy, hsame y hy⟩
    · rw [Function.update_of_ne hi]

-- What a lookup answers. The interface of a route is one that is there, and there is no answer where there is none.
def Table.Answers (T : Table A G) (ifcs : Ifcs) (gate : Route A G → IPaddr) (la : A) : Option (Route A G) → Prop
  | some x => T.Longest la x ∧ ∃ ifc, x.ifc = some ifc ∧ x.ifcid = ifcs.ifcid ifc
  | none   => T.Unreachable la ∨ ∃ x, T.Longest la x ∧ ifcs.findipifc (gate x) x.type = none

theorem resolve_spec {ifcs : Ifcs} {gate : Route A G → IPaddr} (h : ifcs.resolve gate q = some x) :
    x.bare = q.bare ∧ ∃ ifc, x.ifc = some ifc ∧ x.ifcid = ifcs.ifcid ifc := by
  rw [Ifcs.resolve] at h
  split_ifs at h with hvalid
  · obtain rfl := Option.some.inj h
    obtain ⟨ifc, hifc, hid⟩ := (Option.any_eq_true _ _).mp hvalid
    exact ⟨rfl, ifc, hifc, of_decide_eq_true hid⟩
  · obtain ⟨ifc, -, h⟩ := Option.bind_eq_some_iff.mp h
    obtain rfl := Option.some.inj h
    exact ⟨rfl, ifc, rfl, rfl⟩

theorem resolve_none {ifcs : Ifcs} {gate : Route A G → IPaddr} (h : ifcs.resolve gate q = none) :
    ifcs.findipifc (gate q) q.type = none := by
  rw [Ifcs.resolve] at h
  split_ifs at h
  cases hfind : ifcs.findipifc (gate q) q.type
  case none     => rfl
  case some ifc =>
    rw [hfind] at h
    exact absurd h (by simp)

theorem Sound.lookup (hs : Sound H P T root) (hp : Prefixes H P) (ifcs : Ifcs) (gate : Route A G → IPaddr) (la : A) :
    Sound H P T (Function.update root (H la) (lookup ifcs gate la (root (H la))).snd) ∧
      T.Answers ifcs gate la (lookup ifcs gate la (root (H la))).fst := by
  rw [Iproute.lookup]
  rcases hs.search hp la with ⟨hnone, hne⟩ | ⟨x, hmem, hx, hlongest⟩
  · rw [hnone]
    dsimp only
    rw [Function.update_eq_self]
    exact ⟨hs, .inl hne⟩
  · rw [hx]
    dsimp only
    split
    case h_1 hnone =>
      rw [Function.update_eq_self]
      exact ⟨hs, .inr ⟨x, hlongest, resolve_none hnone⟩⟩
    case h_2 q hq  =>
      obtain ⟨hbare, hifc⟩ := resolve_spec hq
      obtain ⟨hhas, hla, hmost⟩ := hlongest
      have hrange := range_of_bare hbare
      refine ⟨hs.set hmem hbare, ⟨?_, hrange ▸ hla, hrange ▸ hmost⟩, hifc⟩
      rw [Table.Has, hbare, hrange]
      exact hhas

-- No tree has more routes but for those of the ranges that are new to the table.
theorem Sound.length_le {T' : Table A G} (hs : Sound H P T root) (hs' : Sound H P T' root') (new : List (Range A))
    (hsub : ∀ rt x, T' rt = some x → rt ∈ new ∨ ∃ y, T rt = some y) (h : Nat) :
    (root' h).routes.length ≤ new.length + (root h).routes.length := by
  have hsubset : (root' h).routes.map Route.range ⊆ new ++ (root h).routes.map Route.range := by
    intro s hmem
    obtain ⟨x, hx, rfl⟩ := List.mem_map.mp hmem
    obtain ⟨hhas, hbucket⟩ := hs'.mem hx
    rw [List.mem_append]
    refine (hsub _ _ hhas).imp id ?_
    rintro ⟨y, hy⟩
    obtain ⟨z, hz, -, hrange⟩ := hs.exists_route hy hbucket
    exact List.mem_map.mpr ⟨z, hz, hrange⟩
  have hle := ((hs'.ordered h).nodup.subperm hsubset).length_le
  rwa [List.length_append, List.length_map, List.length_map] at hle

theorem Without.length_le {gone : Route A G → Prop} (h : Without gone root root') (ho : (root' i).Ordered) :
    (root' i).routes.length ≤ (root i).routes.length :=
  (ho.nodup.of_map.subperm fun x hx => ((h i x).mp hx).left).length_le

theorem Without.length_lt {gone : Route A G → Prop} (h : Without gone root root') (ho : (root' i).Ordered)
    (hq : q ∈ (root i).routes) (hgone : gone q) : (root' i).routes.length < (root i).routes.length := by
  have hnodup : (q :: (root' i).routes).Nodup :=
    List.nodup_cons.mpr ⟨fun hmem => ((h i q).mp hmem).right hgone, ho.nodup.of_map⟩
  refine (hnodup.subperm fun x hx => ?_).length_le
  rcases List.mem_cons.mp hx with rfl | hx
  · exact hq
  · exact ((h i x).mp hx).left

theorem flushed_bare (tag : Option (List UInt8)) (x : Route A G) : flushed tag x.bare = flushed tag x :=
  rfl

theorem flushed_ref {tag : Option (List UInt8)} (hs : Sound H P T root) (hT : T rt = some x) (hx : flushed tag x = true) :
    x.ref = 1 := by
  refine (hs.good rt x hT).right ?_
  rw [flushed, decide_eq_true_iff] at hx
  exact hx.left

-- It deletes a route that there is one reference to.
def Deletes (H : A → Nat) (P : Range A → Prop) (del : Range A → (Nat → Tree A G) → Option (Nat → Tree A G)) : Prop :=
  ∀ T rt root, Sound H P T root → P rt → (∀ y, T rt = some y → y.ref = 1) →
    ∃ T' root', del rt root = some root' ∧ Sound H P T' root' ∧ Without (·.range = rt) root root'

variable {del : Range A → (Nat → Tree A G) → Option (Nat → Tree A G)}

theorem Sound.flushbucket (hs : Sound H P T root) (tag : Option (List UInt8)) (h : Nat) (hdel : Deletes H P del)
    (hj : (root h).routes.length < j) : ∃ T' root', flushbucket del tag h j root = some root' ∧ Sound H P T' root' ∧
      Without (fun x => flushed tag x = true ∧ InBucket H x.range h) root root' := by
  induction j generalizing T root
  case zero      => omega
  case succ j ih =>
    rw [Iproute.flushbucket]
    rcases routeflush_spec tag (root h) with ⟨hnone, hall⟩ | ⟨q, hq, hsome, hflushed⟩
    · refine ⟨T, root, by rw [hnone]; rfl, hs, fun i x => (and_iff_left_of_imp ?_).symm⟩
      rintro hx ⟨hflush, hbucket⟩
      obtain ⟨y, hy, heq⟩ := (hs.table h x.bare).mpr ⟨(hs.mem hx).left, hbucket⟩
      have hnot := hall y hy
      rw [← flushed_bare, heq, flushed_bare, hflush] at hnot
      exact absurd hnot (by decide)
    · obtain ⟨hhas, hbucket⟩ := hs.mem hq
      have hone (y : Route A G) (hy : T q.range = some y) : y.ref = 1 := by
        rw [← Option.some.inj (hhas.symm.trans hy)]
        exact flushed_ref hs hhas hflushed
      obtain ⟨T1, root1, hroot1, hs1, hwithout1⟩ := hdel T q.range root hs (hs.ranged hq) hone
      have hlt := hwithout1.length_lt (hs1.ordered h) hq rfl
      obtain ⟨T', root', hroot', hs', hwithout'⟩ := ih hs1 (by omega)
      refine ⟨T', root', by rw [hsome]; dsimp only; rw [hroot1]; exact hroot', hs', fun i x => ?_⟩
      rw [hwithout1.trans hwithout']
      refine and_congr_right fun hx => not_congr (or_iff_right_of_imp fun heq => ?_)
      have hhasx := (hs.mem hx).left
      rw [Table.Has, heq, hhas] at hhasx
      rw [← flushed_bare, ← Option.some.inj hhasx, heq]
      exact ⟨hflushed, hbucket⟩

-- All of the trees, one after another.
theorem Sound.flushall (hs : Sound H P T root) (tag : Option (List UInt8)) (hdel : Deletes H P del) (heads : List Nat)
    (hj : ∀ h ∈ heads, (root h).routes.length < j) :
    ∃ T' root', heads.foldlM (fun root h => Iproute.flushbucket del tag h j root) root = some root' ∧ Sound H P T' root' ∧
      Without (fun x => ∃ h ∈ heads, flushed tag x = true ∧ InBucket H x.range h) root root' := by
  induction heads generalizing T root
  case nil              => exact ⟨T, root, rfl, hs, fun i x => by simp⟩
  case cons h heads ih =>
    obtain ⟨T1, root1, hroot1, hs1, hwithout1⟩ := hs.flushbucket tag h hdel (hj h List.mem_cons_self)
    obtain ⟨T', root', hroot', hs', hwithout'⟩ := ih hs1 fun i hi =>
      (hwithout1.length_le (hs1.ordered i)).trans_lt (hj i (List.mem_cons_of_mem h hi))
    refine ⟨T', root', ?_, hs', fun i x => ?_⟩
    · rw [List.foldlM_cons, hroot1]
      exact hroot'
    · rw [hwithout1.trans hwithout']
      dsimp only
      rw [List.exists_mem_cons_iff]

-- The routes with the tag are gone, and the others are where they were. There are turns enough where there are more than a
-- tree has routes.
theorem Sound.flush (hs : Sound H P T root) (hp : Prefixes H P) (tag : Option (List UInt8)) (hdel : Deletes H P del)
    (hj : ∀ h < 1 <<< Lroot, (root h).routes.length < j) : ∃ root', flush del tag j root = some root' ∧
      Sound H P (T.flush tag) root' ∧ Without (flushed tag · = true) root root' := by
  obtain ⟨T', root', hroot', hs', hall⟩ := hs.flushall tag hdel (List.range (1 <<< Lroot))
    fun h hh => hj h (List.mem_range.mp hh)
  have hwithout : Without (flushed tag · = true) root root' := by
    intro i x
    rw [hall]
    refine and_congr_right fun hx => not_congr ?_
    have hP := hs.ranged hx
    constructor
    · rintro ⟨h, -, hflush, -⟩
      exact hflush
    · exact fun hflush => ⟨H x.range.lo, List.mem_range.mpr (hp.roots x.range.lo), hflush, le_rfl,
        (hp.bucket x.range x.range.hi hP ⟨x.range.le, le_rfl⟩).left⟩
  have hsome (rt : Range A) (x : Route A G) : T.flush tag rt = some x ↔ T rt = some x ∧ ¬flushed tag x = true := by
    rw [Table.flush, Option.filter_eq_some_iff, Bool.not_eq_true', Bool.not_eq_true]
  refine ⟨root', hroot', ⟨hs'.ordered, fun h x => ?_, fun rt x hx => ?_, fun rt x hx => ?_⟩, hwithout⟩
  · rw [hsome, and_right_comm, ← hs.table]
    constructor
    · rintro ⟨y, hy, rfl⟩
      obtain ⟨hy, hnot⟩ := (hwithout h y).mp hy
      exact ⟨⟨y, hy, rfl⟩, hnot⟩
    · rintro ⟨⟨y, hy, rfl⟩, hnot⟩
      exact ⟨y, (hwithout h y).mpr ⟨hy, hnot⟩, rfl⟩
  · exact hs.key rt x ((hsome rt x).mp hx).left
  · exact hs.good rt x ((hsome rt x).mp hx).left

theorem Sound.walk (hs : Sound H P T root) (hp : Prefixes H P) : ((ipwalkroutes H root).map Route.range).Nodup ∧
    ∀ x, (∃ y ∈ ipwalkroutes H root, y.bare = x) ↔ T x.range = some x := by
  have hmem (y : Route A G) : y ∈ ipwalkroutes H root ↔ y ∈ (root (H y.range.lo)).routes := by
    simp only [ipwalkroutes, List.mem_flatMap, List.mem_range, rr_eq, List.mem_filter, decide_eq_true_eq]
    constructor
    · rintro ⟨h, -, hy, rfl⟩
      exact hy
    · exact fun hy => ⟨H y.range.lo, hp.roots _, hy, rfl⟩
  constructor
  · rw [ipwalkroutes, List.map_flatMap, List.nodup_flatMap]
    refine ⟨fun h _ => ?_, List.nodup_range.imp_of_mem fun {i j} _ _ hij => ?_⟩
    · rw [rr_eq]
      exact (hs.ordered h).nodup.sublist (List.filter_sublist.map _)
    · intro s hsi hsj
      obtain ⟨x, hx, rfl⟩ := List.mem_map.mp hsi
      obtain ⟨y, hy, hxy⟩ := List.mem_map.mp hsj
      rw [rr_eq, List.mem_filter, decide_eq_true_eq] at hx hy
      rw [hxy] at hy
      exact hij (hx.right.symm.trans hy.right)
  · intro x
    constructor
    · rintro ⟨y, hy, rfl⟩
      exact (hs.mem ((hmem y).mp hy)).left
    · intro hx
      have hle := (hp.bucket x.range x.range.hi (hs.good _ x hx).left ⟨x.range.le, le_rfl⟩).left
      obtain ⟨y, hy, rfl⟩ := (hs.table (H x.range.lo) x).mpr ⟨hx, le_rfl, hle⟩
      exact ⟨y, (hmem y).mpr hy, rfl⟩

theorem Prefixes.of_block {toNat : A → Nat} (hle : ∀ a b, a ≤ b ↔ toNat a ≤ toNat b)
    (hH : ∀ a, H a = toNat a % 2 ^ 27 / 2 ^ 17) (hP : ∀ rt, P rt → Range.Block (toNat rt.lo) (toNat rt.hi)) :
    Prefixes H P := by
  have hlt (a b : A) : a < b ↔ toNat a < toNat b := by
    rw [← not_le, hle, Nat.not_le]
  refine ⟨fun r s hr hs => ?_, fun r la hr hla => ?_, fun la => ?_⟩
  · by_cases heq : r = s
    · exact .inr (.inr (.inl heq))
    · rcases (hP r hr).nested (hP s hs) with h | h | h | h
      · exact .inl ((hlt _ _).mpr h)
      · exact .inr (.inl ((hlt _ _).mpr h))
      · exact .inr (.inr (.inr (.inl ⟨(hle _ _).mpr h.left, (hle _ _).mpr h.right, heq⟩)))
      · exact .inr (.inr (.inr (.inr ⟨(hle _ _).mpr h.left, (hle _ _).mpr h.right, Ne.symm heq⟩)))
  · rw [hH, hH, hH]
    exact (hP r hr).bits ((hle _ _).mp hla.left) ((hle _ _).mp hla.right) 27 17
  · rw [hH]
    have hmod := Nat.mod_lt (toNat la) (by decide : 2 ^ 27 > 0)
    have hdiv : toNat la % 2 ^ 27 / 2 ^ 17 < 2 ^ 10 := by omega
    exact hdiv

end

-- The masks of `n` zeros after the ones.
def V4.Contiguous (mask : V4) (n : Nat) : Prop :=
  n ≤ 32 ∧ ∀ j < 32, mask.word.getLsbD j = decide (n ≤ j)

def V6.Contiguous (mask : V6) (n : Nat) : Prop :=
  n ≤ 128 ∧ ∀ (i : Fin 4) j, j < 32 → (mask.word i).getLsbD j = decide (n ≤ 32 * (3 - i.val) + j)

def V4.Prefix (rt : Range V4) : Prop :=
  ∃ a mask n, V4.Contiguous mask n ∧ rt = v4range a mask

def V6.Prefix (rt : Range V6) : Prop :=
  ∃ a mask n, V6.Contiguous mask n ∧ rt = v6range a mask

theorem hash_eq (w : BitVec 32) : ((w &&& 0x07ffffff) >>> (32 - Lroot - 5)).toNat = w.toNat % 2 ^ 27 / 2 ^ 17 := by
  rw [BitVec.toNat_ushiftRight, BitVec.toNat_and, Nat.shiftRight_eq_div_pow]
  exact congrArg (· / 2 ^ 17) (Nat.and_two_pow_sub_one_eq_mod w.toNat 27)

theorem V4.prefixes : Prefixes V4H V4.Prefix := by
  refine @Prefixes.of_block _ _ V4H V4.Prefix V4.toNat (fun _ _ => Iff.rfl) (fun a => hash_eq a.word) ?_
  rintro rt ⟨a, mask, n, ⟨hn, hmask⟩, rfl⟩
  have hout (w : BitVec 32) {j : Nat} (hj : ¬j < 32) : w.getLsbD j = false := BitVec.getLsbD_of_ge w j (by omega)
  refine Range.Block.of_testBit (y := a.toNat) (n := n) (fun j => ?_) fun j => ?_
  · change (a.word &&& mask.word).getLsbD j = (a.word.getLsbD j && _)
    rw [BitVec.getLsbD_and]
    by_cases hj : j < 32
    · rw [hmask j hj]
    · rw [hout a.word hj, Bool.false_and, Bool.false_and]
  · change (a.word &&& mask.word ||| ~~~mask.word).getLsbD j = (a.word.getLsbD j || _)
    rw [BitVec.getLsbD_or, BitVec.getLsbD_and, BitVec.getLsbD_not]
    by_cases hj : j < 32
    · rw [hmask j hj]
      by_cases hnj : n ≤ j
      · simp [hnj, hj]
      · simp [hnj, hj]
        omega
    · have hnj : ¬j < n := by omega
      simp [hout, hj, hnj]

theorem V6.testBit (a : V6) (j : Nat) : a.toNat.testBit j =
    if j < 32 then (a.word 3).getLsbD j
    else if j - 32 < 32 then (a.word 2).getLsbD (j - 32)
    else if j - 32 - 32 < 32 then (a.word 1).getLsbD (j - 32 - 32)
    else (a.word 0).getLsbD (j - 32 - 32 - 32) := by
  have hlow (x : Nat) (w : BitVec 32) (j : Nat) :
      (x * 2 ^ 32 + w.toNat).testBit j = if j < 32 then w.getLsbD j else x.testBit (j - 32) := by
    rw [mul_comm, Nat.testBit_two_pow_mul_add _ w.isLt]
    rfl
  rw [V6.toNat, hlow, hlow, hlow]
  rfl

theorem V6.prefixes : Prefixes V6H V6.Prefix := by
  refine @Prefixes.of_block _ _ V6H V6.Prefix V6.toNat (fun a b => (lcmp_spec a b).right) (fun a => ?_) ?_
  · rw [V6H, hash_eq, V6.toNat]
    omega
  rintro rt ⟨a, mask, n, ⟨hn, hmask⟩, rfl⟩
  have hout (w : BitVec 32) {j : Nat} (hj : ¬j < 32) : w.getLsbD j = false := BitVec.getLsbD_of_ge w j (by omega)
  have hand (i : Fin 4) {j j' : Nat} (hj : j = 32 * (3 - i.val) + j') :
      (a.word i &&& mask.word i).getLsbD j' = ((a.word i).getLsbD j' && decide (n ≤ j)) := by
    rw [BitVec.getLsbD_and]
    by_cases hlt : j' < 32
    · rw [hmask i j' hlt, hj]
    · rw [hout _ hlt, Bool.false_and, Bool.false_and]
  have hor (i : Fin 4) {j j' : Nat} (hj : j = 32 * (3 - i.val) + j') (hlast : j' < 32 ∨ i = 0) :
      (a.word i ||| ~~~mask.word i).getLsbD j' = ((a.word i).getLsbD j' || decide (j < n)) := by
    rw [BitVec.getLsbD_or, BitVec.getLsbD_not]
    by_cases hlt : j' < 32
    · rw [hmask i j' hlt, ← hj]
      by_cases hnj : n ≤ j
      · simp [hnj, Nat.not_lt.mpr hnj]
      · simp [hnj, Nat.not_le.mp hnj, hlt]
    · obtain rfl := hlast.resolve_left hlt
      have hnj : ¬j < n := by simp only [Fin.val_zero] at hj; omega
      simp [hout, hlt, hnj]
  refine Range.Block.of_testBit (y := a.toNat) (n := n) (fun j => ?_) fun j => ?_
  · change (V6.mk fun i => a.word i &&& mask.word i).toNat.testBit j = _
    rw [V6.testBit, V6.testBit]
    split_ifs
    · exact hand 3 (by simp)
    · exact hand 2 (by simp; omega)
    · exact hand 1 (by simp; omega)
    · exact hand 0 (by simp; omega)
  · change (V6.mk fun i => a.word i ||| ~~~mask.word i).toNat.testBit j = _
    rw [V6.testBit, V6.testBit]
    split_ifs
    · exact hor 3 (by simp) (.inl ‹_›)
    · exact hor 2 (by simp; omega) (.inl ‹_›)
    · exact hor 1 (by simp; omega) (.inl ‹_›)
    · exact hor 0 (by simp; omega) (.inr rfl)

end Ip.Iproute
