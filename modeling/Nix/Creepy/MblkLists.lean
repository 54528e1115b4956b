import Mathlib.Data.List.Pairwise
import Nix.Creepy.MblkStep

namespace Creepy.Mblk

variable {Blk Pid : Type*} [DecidableEq Blk] [DecidableEq Pid] {B : Blocks Blk} {s : State Blk Pid}

omit [DecidableEq Blk] [DecidableEq Pid] in
theorem init_inv : Inv B (init : State Blk Pid) fun _ => none where
  listing := ⟨fun _ => [], fun _ => ⟨rfl, rfl, rfl, .nil, trivial, trivial⟩, by simp, fun _ => ⟨rfl, rfl⟩⟩
  fits    := by simp
  home    := by simp [State.still, State.hashed, init]
  used    := by simp [State.hashed, init, Proc.moves]
  alone   := by simp [init, Proc.moves]
  ok      := fun _ => trivial
  nodl    := by simp
  hash    := fun _ => ⟨.nil, by simp [init]⟩

theorem invariant : (machine Pid B).Invariant (Apart B) fun s => ∃ place, Inv B s place where
  init hs := hs ▸ ⟨_, init_inv⟩
  step    := fun ⟨_, h⟩ hc hs => h.step hc hs

-- The list of a block that stays.
def State.ison (s : State Blk Pid) (B : Blocks Blk) (l : ListId → List Blk) (b : Blk) : Prop :=
  match B.type b with
  | .super => True
  | .ref   => b ∈ l .refs
  | .other => if s.dirty b then b ∈ l .mdirty ∨ b ∈ l .dl else b ∈ l .lru

-- Each list is well formed, and no block is on two lists. The blocks that are in the hash and that
-- nobody is moving are where they belong, but for the super block and those with fake addresses,
-- which are on no list. A dirty one may be on the private list while there is a process writing.
structure InPlace (B : Blocks Blk) (s : State Blk Pid) (l : ListId → List Blk) : Prop where
  list   : ∀ i, DList s.links (s.ends i) (l i)
  one    : ∀ b i j, b ∈ l i → b ∈ l j → i = j
  home   : ∀ b, s.still B b → ¬B.fake b → s.ison B l b
  clean  : ∀ b ∈ l .lru, B.type b = .other ∧ ¬s.dirty b
  -- so that `fslru` finds clean blocks only
  scan   : ∀ p b, s.proc p = .scan (some b) → b ∈ l .lru
  nodl   : s.lk .dl = none → l .dl = []
  unique : ∀ a b, s.hashed B a → s.hashed B b → B.addr a = B.addr b → a = b

omit [DecidableEq Blk] [DecidableEq Pid] in
theorem Inv.inPlace {place : Blk → Option ListId} (h : Inv B s place) : ∃ l, InPlace B s l := by
  obtain ⟨l, hl⟩ := h.listing
  refine ⟨l, ⟨hl.list, ?one, ?home, ?clean, ?scan, ?nodl, ?unique⟩⟩
  case one =>
    intro b i j hi hj
    exact Option.some.inj <| (hl.mem.mp hi).symm.trans (hl.mem.mp hj)
  case home =>
    intro b hs hf
    rw [State.ison]
    split
    case h_1 => trivial
    case h_2 ht =>
      obtain ⟨i, hi⟩ := Option.ne_none_iff_exists'.mp <| h.home b hs hf (by simp [ht])
      have hfits := h.fits b i hi
      cases i
      case refs => exact hl.mem.mpr hi
      all_goals simp [State.fits, Blocks.moves, ht] at hfits
    case h_3 ht =>
      have hm : B.moves b := by simpa [Blocks.moves, ht] using hf
      simpa only [hl.mem] using h.place_of_still hs hm
  case clean =>
    intro b hb
    obtain ⟨hm, hd⟩ := h.fits b _ (hl.mem.mp hb)
    exact ⟨by simp [Blocks.moves] at hm; exact hm.left, hd⟩
  case scan =>
    intro p b hp
    have hok := h.ok p
    rw [hp] at hok
    exact hl.mem.mpr (hok.right b rfl)
  case nodl =>
    intro hdl
    exact List.eq_nil_iff_forall_not_mem.mpr fun b hb => h.nodl hdl b (hl.mem.mp hb)
  case unique =>
    intro a b ha hb he
    by_contra hne
    have hv : B.bucket a = B.bucket b := by rw [Blocks.bucket, Blocks.bucket, he]
    have hb : b ∈ s.hash (B.bucket a) := hv ▸ hb
    have : Std.Symm (B.addr · ≠ B.addr ·) := ⟨fun _ _ => Ne.symm⟩
    exact (h.hash (B.bucket a)).left.forall ha hb hne he

-- In a run that moves each block by one process at a time, and none that is being written.
theorem mblk_lists (hr : (machine Pid B).Reachable (Apart B) s) : ∃ l, InPlace B s l :=
  have ⟨_, h⟩ := invariant.holds hr
  h.inPlace

-- Three data blocks.
def three : Blocks (Fin 3) where
  addr b := blkaddr (b + 2)
  type _ := .other
  nhash  := 7

-- Block 1 is brought in.
theorem mblk_lists_mbget :
    ∃ (s : State (Fin 3) (Fin 2)) (l : ListId → List (Fin 3)),
      InPlace three s l ∧ s.hashed three 1 ∧ (s.ends .lru).hd = some 1 := by
  have hr : (machine (Fin 2) three).Reachable (Apart three) init := .init rfl
  have hr := hr.step (a := (0, Act.mbget (blkaddr 3) (some 1))) trivial rfl
  have hr := hr.step (a := (0, Act.next)) trivial rfl
  have ⟨l, hl⟩ := mblk_lists hr
  exact ⟨_, l, hl, by decide +kernel, by decide +kernel⟩

-- Blocks 1 and 2 are brought in. Then both processes get block 1, and each of them takes it off the
-- lru list before either of them puts it back.
def twice : List (Fin 2 × Act (Fin 3)) :=
  [(0, .mbget (blkaddr 3) (some 1)), (0, .next), (0, .next), (0, .next), (0, .next),
   (0, .mbget (blkaddr 4) (some 2)), (0, .next), (0, .next), (0, .next), (0, .next),
   (0, .mbget (blkaddr 3) none), (1, .mbget (blkaddr 3) none), (0, .next), (1, .next),
   (0, .next), (1, .next), (0, .next), (1, .next)]

-- The state after the run.
def raced : State (Fin 3) (Fin 2) :=
  ((machine (Fin 2) three).exec init twice).get (by decide +kernel)

-- Block 1 then comes next after itself, and block 2 is lost.
theorem mblk_lists_race :
    (machine (Fin 2) three).Reachable (fun _ _ => True) raced ∧ (∀ p, raced.proc p = .idle) ∧
      ∀ l, ¬DList raced.links (raced.ends .lru) l := by
  have hinit : (machine (Fin 2) three).Reachable (fun _ _ => True) init := .init rfl
  refine ⟨hinit.exec (fun _ _ _ => trivial) (Option.some_get _).symm, by decide +kernel, fun l hl => ?_⟩
  have hhd : (raced.ends .lru).hd = some 1 := by decide +kernel
  have hnext : raced.links.next 1 = some 1 := by decide +kernel
  have hmem : 1 ∈ l := hl.hd_mem hhd
  exact hl.next_ne hmem hnext

end Creepy.Mblk
