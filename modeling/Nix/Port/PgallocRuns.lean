import Nix.Port.PgallocStep
import Mathlib.Data.Fintype.Card

namespace Port.Pgalloc

variable {P I : Type} [DecidableEq P] [DecidableEq I] {s : State P I} {spot : Addr → Spot P} {l : Nat → List Addr} {c : Conf I}

-- At the beginning the pages that there are are on the lists.
omit [DecidableEq P] [DecidableEq I] in
theorem Begins.inv (h : Begins s) : Sane s := by
  obtain ⟨l, hl⟩ := h.lists
  refine ⟨fun p => if p ∈ s.live then .listed (s.page p).pgszi else .gone, l, ⟨?_, fun p => ?_, h.nodup, fun _ => ?_, .inl h.panic⟩,
    fun x => ?_, fun p x hp => ?_⟩
  · have hplaces : places (fun p => if p ∈ s.live then Spot.listed (P := P) (s.page p).pgszi else .gone) =
        fun p => if p ∈ s.live then some (s.page p).pgszi else none := by
      funext p
      rw [places]
      split <;> rfl
    rw [State.Lists, hplaces]
    exact hl
  · have hheld : s.held p = [] := by simp [State.held, h.refs]
    rw [Good]
    by_cases hp : p ∈ s.live
    case pos => simpa [hp] using ⟨(h.page p hp).left, hheld⟩
    case neg => simpa [hp] using hheld
  · refine ⟨fun _ => [], h.chain, fun _ => trivial, fun _ => .nil, ?_⟩
    intro p i
    by_cases hp : p ∈ s.live <;> simp [State.cached, hp]
    simp [(h.page p hp).right]
  · rw [h.pc]
    trivial
  · split at hp <;> contradiction

theorem sane_invariant (c : Conf I) : (machine P c).Invariant (Careful c) Sane where
  init := Begins.inv
  step := fun ⟨_, _, h⟩ hc hs => by
    obtain ⟨hn, hs⟩ := Option.ite_none_right_eq_some.mp hs
    exact h.act hn hc hs

section

omit [DecidableEq P] [DecidableEq I]

theorem Inv.taken_iff (h : Inv spot l s) : (s.pc x).taken = some p ↔ spot p = .taken x := by
  refine ⟨fun hp => ?_, h.hands p x⟩
  have hok := h.procs x
  cases hpc : s.pc x <;> rw [hpc] at hp hok <;> try contradiction
  case newlock q =>
    obtain rfl := Option.some.inj hp
    exact hok.right
  case auxlock q =>
    obtain rfl := Option.some.inj hp
    exact hok.right
  case kick r k =>
    cases k <;> try contradiction
    case chain n q =>
      obtain rfl := Option.some.inj hp
      exact hok.left
    case freed si once q =>
      obtain rfl := Option.some.inj hp
      exact hok.left

theorem Inv.free_iff (h : Inv spot l s) : p ∈ l si ↔
    p ∈ s.live ∧ (s.page p).pgszi = si ∧ (s.page p).ref = 0 ∧ ∀ x, (s.pc x).taken ≠ some p := by
  have hg := h.good p
  simp only [ne_eq, h.taken_iff, h.lists.mem_iff]
  rw [Good] at hg
  cases hspot : spot p <;> rw [hspot] at hg
  case listed sj => simp [hg]
  case taken y   => simp
  case used      => simp [Nat.ne_of_gt hg.right.right]
  case gone      => simp [hg.left]

end

theorem Inv.sound (h : Inv spot l s) : Sound c s where
  lists   := ⟨l, fun si => Listing.list h.lists si, fun _ _ => h.free_iff⟩
  counted p hp := by
    have hg := h.good p
    rw [Good] at hg
    cases hspot : spot p <;> rw [hspot] at hg
    case listed si => rw [hg.right.left, hg.right.right.left]; rfl
    case taken x   => rw [hg.right.left, hg.right.right]; rfl
    case used      => exact hg.right.left
    case gone      => exact absurd hp hg.left
  live _  := h.live_of_ref
  newpage x p hpc := by
    have hp : spot p = .taken x := h.taken_iff.mp (by rw [hpc]; rfl)
    obtain ⟨hlive, _, hheld⟩ := (h.good p).taken hp
    exact ⟨hlive, hheld⟩
  lookpage x f i d hpc hi hd := by
    obtain ⟨hpga, hf⟩ : Ok spot s x (.looklock f i d) := hpc ▸ h.procs x
    refine ⟨by_contra fun hno => (absurd (hi.symm.trans (hf hno)) (by simp)), fun new has s' hs => ?_⟩
    obtain ⟨-, hs⟩ := Option.ite_none_right_eq_some.mp hs
    rw [State.act, State.go, hpc] at hs
    obtain ⟨-, hs⟩ := Option.ite_none_right_eq_some.mp hs
    rw [if_neg (by simp [hi, hd])] at hs
    obtain rfl := Option.some.inj hs
    split <;> rfl
  panic   := h.panic

-- In a run in which `freepages` gives back no page that is in the cache or is about to be put there, and in which no
-- process looks at memory that was freed and is used for something else, the lists have the free pages.
theorem page_lists (hr : (machine P c).Reachable (Careful c) s) : Sound c s := by
  obtain ⟨spot, l, h⟩ := (sane_invariant c).holds hr
  exact h.sound

section Examples

-- Pages of 2 MiB and of 1 GiB.
def k10 : Conf Unit where
  npgsz     := 2
  pgsz si   := if si = 0 then 2 * MiB else 1024 * MiB
  notext _  := false

def bare : State Unit Unit where
  page _     := { ref := 0, image := none, daddr := 0, color := 0, pgszi := 0 }
  lock _     := none
  links      := { next := fun _ => none, prev := fun _ => none }
  hash _     := none
  live       := []
  known      := []
  pgsza _    := { hd := none, tl := none, n := 0 }
  chain _    := none
  pga        := none
  pagerlck   := none
  dupretries := 15000
  pc _       := .idle
  refs       := []
  panic      := none

theorem bare_begins : Begins bare where
  pc _    := rfl
  pga     := rfl
  refs    := rfl
  panic   := rfl
  chain _ := rfl
  nodup   := .nil
  page    := nofun
  lists   := ⟨fun _ => [], fun _ => ⟨rfl, rfl, rfl, .nil, trivial, trivial⟩, by simp [bare], fun _ => ⟨rfl, rfl⟩⟩

-- A page is allocated, put in the cache and given up.
def caching : List (Act Unit Unit) :=
  [.newpage () { si := 0, color := 0, tries := 0, seg := true }, .go () (some (1, 0)) false, .go () none false,
   .cachepage 1 () 0, .putpage () 1, .go () none false, .go () none false]

-- It is found in the cache again.
def again : List (Act Unit Unit) :=
  [.lookpage () () 0, .go () none false, .go () none false]

instance (c : Conf Unit) (s : State Unit Unit) : DecidablePred (Careful c s)
  | .go x _ _    => inferInstanceAs <| Decidable (∀ si ∈ (s.pc x).frees, c.npgsz ≤ si ∨ ∀ p ∈ (s.pgsza si).hd, _ ∧ _)
  | .reuse a _ _ => inferInstanceAs <| Decidable (∀ x, (s.pc x).found ≠ some a)
  | .newpage .. | .putpage .. | .auxpage .. | .duppage .. | .lookpage .. | .pagereclaim .. | .cachepage .. | .uncachepage ..
  | .cachedel .. | .ptecpy .. => instDecidableTrue

def found : State Unit Unit :=
  (((machine Unit k10).guarded (Careful k10)).exec bare (caching ++ again)).get (by decide +kernel)

theorem page_lists_found : found.refs = [(none, 1)] ∧ Sound k10 found :=
  ⟨by decide +kernel, page_lists <| (Machine.Reachable.init bare_begins).guarded (Option.some_get _).symm⟩

-- There is no page of the other size, and none can be allocated.
def pressing : List (Act Unit Unit) :=
  .newpage () { si := 1, color := 0, tries := 0, seg := true } :: List.replicate 14 (.go () none false)

-- `freepages` gives the page back, `lookpage` still finds it in the cache, and takes it off a list where it is not.
def dangling : State Unit Unit :=
  ((machine Unit k10).exec bare (caching ++ pressing ++ again)).get (by decide +kernel)

theorem dangling_page :
    (machine Unit k10).Reachable (fun _ _ => True) dangling ∧ dangling.refs = [(none, 1)] ∧ dangling.live = [] ∧
      ¬Sound k10 dangling := by
  have hs : (machine Unit k10).exec bare (caching ++ pressing ++ again) = some dangling := (Option.some_get _).symm
  refine ⟨(Machine.Reachable.init bare_begins).exec (fun _ _ _ => trivial) hs, by decide +kernel, by decide +kernel, fun h => ?_⟩
  have hlive := h.live (none, 1) (by decide +kernel)
  exact absurd hlive (by decide +kernel)

end Examples

end Port.Pgalloc
