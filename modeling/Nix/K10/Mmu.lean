import Nix.Lib.Machine
import Nix.Lib.Buckets

-- The page tables of processes that run on one processor.
namespace K10.Mmu

section

abbrev PGSHFT : Nat := 12
abbrev PTSHFT : Nat := 9
abbrev MiB : Nat := 2 ^ 20
abbrev GiB : Nat := 2 ^ 30

-- The index into a table of level `l`.
def PTLX (va l : Nat) : Nat :=
  va / 2 ^ (l * PTSHFT + PGSHFT) % 2 ^ PTSHFT

abbrev PTEVALID : UInt32 := 1
abbrev PTEWRITE : UInt32 := 2
abbrev PTEUSER : UInt32 := 4
abbrev PTEUNCACHED : UInt32 := 16

abbrev PteP : UInt32 := 1
abbrev PteRW : UInt32 := 2
abbrev PteU : UInt32 := 4
abbrev PtePCD : UInt32 := 16

-- `none` is a panic.
def pteflags (attr : UInt32) : Option UInt32 :=
  if attr &&& ~~~ (PTEVALID ||| PTEWRITE ||| PTEUSER ||| PTEUNCACHED) ≠ 0 then none else
    some <|
      (if attr &&& PTEVALID ≠ 0 then PteP else 0) ||| (if attr &&& PTEWRITE ≠ 0 then PteRW else 0) |||
      (if attr &&& PTEUSER ≠ 0 then PteU else 0) ||| (if attr &&& PTEUNCACHED ≠ 0 then PtePCD else 0)

-- An entry of a table: 0, the page of another table with `PteU|PteRW|PteP`, or a page of the user with its flags
-- and `PtePS`.
inductive Pte (G : Type)
  | zero
  | table (page : G)
  | leaf (pa : Nat) (flags : UInt32)
deriving DecidableEq

-- A page of the user. `pgsz` is `m->pgsz[pg->pgszi]`.
structure Page where
  pa   : Nat
  pgsz : Nat
deriving DecidableEq

-- Where the pages of tables are: `mmuptp[l]` of a process, or `mmuptpfreelist`.
inductive Loc (P : Type)
  | mmuptp (p : P) (l : Nat)
  | free
deriving DecidableEq

-- What was put for an address.
structure Put where
  va    : Nat
  pa    : Nat
  pgsz  : Nat
  flags : UInt32
deriving DecidableEq

-- Its page has the address `a`.
def Put.covers (u : Put) (a : Nat) : Bool :=
  PTLX u.va 3 = PTLX a 3 && PTLX u.va 2 = PTLX a 2 && (u.pgsz = GiB || PTLX u.va 1 = PTLX a 1)

-- `list` has the pages of tables in the order of their `next`, `heap` those that were allocated, and `up` is the
-- process whose tables were loaded. `puts` are those of a process since its last flush, the last one first.
structure State (P G : Type) where
  pml4   : G
  mem    : G → Nat → Pte G
  ref    : G → Nat
  daddr  : G → Nat
  prev   : G → Option G
  list   : Loc P → List G
  heap   : List G
  newtlb : P → Bool
  ac     : P → Bool
  up     : Option P
  puts   : P → List Put

variable {P G : Type} [DecidableEq P] [DecidableEq G]

namespace State

variable (s : State P G)

def setpte (t : G) (x : Nat) (e : Pte G) : State P G :=
  { s with mem := Function.update s.mem t (Function.update (s.mem t) x e) }

-- `pte[page->daddr] = 0` in the table that the page hangs on.
def unhang (page : G) : State P G :=
  match s.prev page with
  | some t => s.setpte t (s.daddr page) .zero
  | none   => s

-- The loop of `mmuptpfree` along a list.
def wipe (clear : Bool) : List G → State P G → State P G
  | [], s        => s
  | page :: l, s =>
    wipe clear l <|
      (if clear then { s with mem := Function.update s.mem page fun _ => .zero } else s).unhang page

-- `mmuptpfree` at a level.
def ptpfree (p : P) (clear : Bool) (l : Nat) : State P G :=
  let s' := wipe (l ≤ 2 && clear) (s.list (.mmuptp p l)) s
  { s' with
    list := Function.update (Function.update s.list (.mmuptp p l) []) (.mmuptp p 0)
      (s.list (.mmuptp p l) ++ s.list (.mmuptp p 0)) }

def mmuptpfree (p : P) (clear : Bool) : State P G :=
  let s := ((s.ptpfree p clear 1).ptpfree p clear 2).ptpfree p clear 3
  { s with daddr := Function.update s.daddr s.pml4 0 }

-- `fresh` is what `mallocalign` gives, which is cleared.
def mmuptpalloc (fresh : G) : Option (State P G × G) :=
  match s.list .free with
  | page :: rest =>
    if s.ref page ≠ 0 then none else some
      ({ s with
        list := Function.update s.list .free rest
        ref  := Function.update s.ref page (s.ref page + 1)
        prev := Function.update s.prev page none
        mem  := Function.update s.mem page fun _ => .zero }, page)
  | [] =>
    if fresh ∈ s.heap ∨ fresh = s.pml4 then none else some
      ({ s with
        heap := fresh :: s.heap
        ref  := Function.update s.ref fresh 1
        mem  := Function.update s.mem fresh fun _ => .zero }, fresh)

-- A page for a table.
def getpage (p : P) (fresh : G) : Option (State P G × G) :=
  match s.list (.mmuptp p 0) with
  | page :: rest => some ({ s with list := Function.update s.list (.mmuptp p 0) rest }, page)
  | []           => s.mmuptpalloc fresh

-- What `mmuput` does at a level. `t` is the table that `pte` is in.
def level (p : P) (fresh : G) (lvl : Nat) (t prev : G) (x : Nat) : Option (State P G × G) :=
  match (s.list (.mmuptp p lvl)).find? fun page => s.prev page = some prev ∧ s.daddr page = x with
  | some page => some (if s.mem t x = .zero then s.setpte t x (.table page) else s, page)
  | none      => do
    let (s, page) ← s.getpage p fresh
    let daddr := Function.update s.daddr page x
    some
      ({ s with
        daddr := if lvl = 3 ∧ x ≥ daddr s.pml4 then Function.update daddr s.pml4 (x + 1) else daddr
        list  := Function.update s.list (.mmuptp p lvl) (page :: s.list (.mmuptp p lvl))
        prev  := Function.update s.prev page (some prev) }.setpte t x (.table page), page)

-- `va` is an address of the user. Where an entry that leads to no table is followed, the page of the user is written.
def mmuput (fresh fresh' : G) (va : Nat) (pg : Page) (attr : UInt32) : Option (State P G) := do
  let p ← s.up
  if pg.pa = 0 ∨ pg.pa % pg.pgsz ≠ 0 then none else do
    let flags ← pteflags attr
    let pte := .leaf pg.pa (flags ||| PteU)
    let puts := Function.update s.puts p ({ va, pa := pg.pa, pgsz := pg.pgsz, flags := flags ||| PteU } :: s.puts p)
    let (s, page) ← s.level p fresh 3 s.pml4 s.pml4 (PTLX va 3)
    match s.mem s.pml4 (PTLX va 3) with
    | .table t =>
      if pg.pgsz = GiB then
        some { s.setpte t (PTLX va 2) pte with puts }
      else if pg.pgsz = 2 * MiB then do
        let (s, _) ← s.level p fresh' 2 t page (PTLX va 2)
        match s.mem t (PTLX va 2) with
        | .table t => some { s.setpte t (PTLX va 1) pte with puts }
        | .leaf .. => some { s with puts }
        | .zero    => none
      else
        none
    | _ => none

-- The entries of the root below its `daddr` are cleared.
def mmuflushtlb : State P G :=
  { s with
    mem   := Function.update s.mem s.pml4 fun x => if x < s.daddr s.pml4 then .zero else s.mem s.pml4 x
    daddr := Function.update s.daddr s.pml4 0 }

def load (page : G) : State P G :=
  let s' := s.setpte s.pml4 (s.daddr page) (.table page)
  { s' with
    daddr := if s.daddr page ≥ s.daddr s.pml4 then Function.update s.daddr s.pml4 (s.daddr page + 1) else s.daddr
    prev  := Function.update s.prev page (some s.pml4) }

def mmuswitch (p : P) : State P G :=
  let s :=
    if s.newtlb p then
      { if s.ac p then s else s.mmuptpfree p true with
        newtlb := Function.update s.newtlb p false
        puts   := Function.update s.puts p [] }
    else
      s
  let s := if s.daddr s.pml4 ≠ 0 then s.mmuflushtlb else s
  { (s.list (.mmuptp p 3)).foldl load s with up := some p }

def mmuflush : Option (State P G) := do
  let p ← s.up
  some <| { s with newtlb := Function.update s.newtlb p true }.mmuswitch p

-- The loop of `mmurelease`, which gives the pages to the free list.
def putpages (p : P) : List G → State P G → Option (State P G)
  | [], s        => some { s with list := Function.update s.list (.mmuptp p 0) [] }
  | page :: l, s =>
    if s.ref page ≠ 1 then none else
      putpages p l
        { s with
          ref  := Function.update s.ref page 0
          list := Function.update s.list .free (page :: s.list .free)
          prev := Function.update s.prev page none }

def mmurelease (p : P) : Option (State P G) := do
  let s := s.mmuptpfree p false
  let s ← putpages p (s.list (.mmuptp p 0)) s
  some { s with up := none, puts := Function.update s.puts p [] }

-- What the processor makes of an address: how large its page is, where, and the flags.
def walk (a : Nat) : Option (Nat × Nat × UInt32) :=
  let present (pgsz : Nat) : Pte G → Option (Nat × Nat × UInt32)
    | .leaf pa flags => if flags &&& PteP ≠ 0 then some (pgsz, pa, flags) else none
    | _              => none
  match s.mem s.pml4 (PTLX a 3) with
  | .table t =>
    match s.mem t (PTLX a 2) with
    | .table t =>
      match s.mem t (PTLX a 1) with
      | .table t => present (2 ^ PGSHFT) (s.mem t (PTLX a 0))
      | e        => present (2 * MiB) e
    | e        => present GiB e
  | _ => none

end State

inductive Act (P G : Type)
  | mmuput (fresh fresh' : G) (va : Nat) (pg : Page) (attr : UInt32)
  | mmuflush
  | mmuswitch (p : P)
  | mmurelease (p : P)
  -- A process leaves the processor.
  | mmuflushtlb
  -- Somebody asks for a flush of a process that does not run, and a process gets a core or leaves it.
  | newtlb (p : P)
  | ac (p : P) (b : Bool)

def step (s : State P G) : Act P G → Option (State P G)
  | .mmuput fresh fresh' va pg attr => s.mmuput fresh fresh' va pg attr
  | .mmuflush                       => s.mmuflush
  | .mmuswitch p                    => some <| s.mmuswitch p
  | .mmurelease p                   => s.mmurelease p
  | .mmuflushtlb                    => some { s.mmuflushtlb with up := none }
  | .newtlb p                       => some { s with newtlb := Function.update s.newtlb p true }
  | .ac p b                         => some { s with ac := Function.update s.ac p b }

structure Init (s : State P G) : Prop where
  mem  : ∀ x, s.mem s.pml4 x = .zero
  list : ∀ i, s.list i = []
  heap : s.heap = []
  up   : s.up = none
  puts : ∀ p, s.puts p = []

def machine : Machine (State P G) (Act P G) where
  init := Init
  step := step

end

variable {P G : Type} {s s' : State P G} {place place' : G → Option (Loc P)} {p q : P} {g t : G} {a x y : Nat}

-- The last thing put for an address.
def State.last (s : State P G) (p : P) (a : Nat) : Option Put :=
  (s.puts p).find? fun u => u.covers a

def State.Shows (s : State P G) (p : P) (a pgsz pa : Nat) (flags : UInt32) : Prop :=
  ∃ u, s.last p a = some u ∧ u.pgsz = pgsz ∧ u.pa = pa ∧ u.flags = flags

-- The tables of the processes, whatever is loaded. The second level's are on list 3, and the third level's on list 2.
structure Tables (s : State P G) (place : G → Option (Loc P)) : Prop where
  shelves : Shelves place s.list
  heap    : ∀ g, g ∈ s.heap ↔ (place g).isSome
  pml4    : place s.pml4 = none
  levels  : ∀ g p l, place g = some (.mmuptp p l) → l = 0 ∨ l = 2 ∨ l = 3
  prev3   : ∀ g p, place g = some (.mmuptp p 3) → s.prev g = some s.pml4
  prev2   : ∀ g p, place g = some (.mmuptp p 2) → ∃ t, s.prev g = some t ∧ place t = some (.mmuptp p 3)
  inj     : ∀ g g' p l, place g = some (.mmuptp p l) → place g' = some (.mmuptp p l) → l ≠ 0 → s.prev g = s.prev g' →
    s.daddr g = s.daddr g' → g = g'
  pdp     : ∀ t p, place t = some (.mmuptp p 3) → ∀ x g, s.mem t x = .table g →
    place g = some (.mmuptp p 2) ∧ s.prev g = some t ∧ s.daddr g = x
  listed  : ∀ g t p, place g = some (.mmuptp p 2) → s.prev g = some t → s.mem t (s.daddr g) ≠ .zero
  pd      : ∀ g p, place g = some (.mmuptp p 2) → ∀ x t, s.mem g x ≠ .table t
  reuse   : ∀ g p, place g = some (.mmuptp p 0) → ∀ x, s.mem g x = .zero
  big     : ∀ t p, place t = some (.mmuptp p 3) → ∀ x pa flags, s.mem t x = .leaf pa flags →
    ∀ a, PTLX a 3 = s.daddr t → PTLX a 2 = x → s.Shows p a GiB pa flags
  small   : ∀ g p t, place g = some (.mmuptp p 2) → s.prev g = some t → s.mem t (s.daddr g) = .table g →
    ∀ y pa flags, s.mem g y = .leaf pa flags →
    ∀ a, PTLX a 3 = s.daddr t → PTLX a 2 = s.daddr g → PTLX a 1 = y → s.Shows p a (2 * MiB) pa flags

-- What is loaded is what the process has.
structure Root (s : State P G) (place : G → Option (Loc P)) : Prop where
  own    : ∀ x, s.mem s.pml4 x ≠ .zero → x < s.daddr s.pml4 ∧
    ∃ p g, s.up = some p ∧ place g = some (.mmuptp p 3) ∧ s.daddr g = x ∧ s.mem s.pml4 x = .table g
  loaded : ∀ p g, s.up = some p → place g = some (.mmuptp p 3) → s.mem s.pml4 (s.daddr g) = .table g

structure Sound (s : State P G) (place : G → Option (Loc P)) : Prop where
  tables : Tables s place
  root   : Root s place

-- The translation of an address is that of the last page put for it, or there is none.
theorem Sound.walk (hs : Sound s place) (hp : s.up = some p) (a : Nat) :
    s.walk a = none ∨ ∃ u, s.last p a = some u ∧ s.walk a = some (u.pgsz, u.pa, u.flags) := by
  have ht := hs.tables
  have hshows {pgsz pa : Nat} {flags : UInt32} (h : s.Shows p a pgsz pa flags) :
      (if flags &&& PteP ≠ 0 then some (pgsz, pa, flags) else none) = none ∨
      ∃ u, s.last p a = some u ∧
        (if flags &&& PteP ≠ 0 then some (pgsz, pa, flags) else none) = some (u.pgsz, u.pa, u.flags) := by
    obtain ⟨u, hu, rfl, rfl, rfl⟩ := h
    split
    · exact .inr ⟨u, hu, rfl⟩
    · exact .inl rfl
  rw [State.walk]
  cases h3 : s.mem s.pml4 (PTLX a 3)
  case zero | leaf => exact .inl rfl
  case table t =>
    obtain ⟨-, q, g, hq, hg, hd, he⟩ := hs.root.own (PTLX a 3) (h3 ▸ nofun)
    obtain rfl : p = q := Option.some.inj <| hp.symm.trans hq
    obtain rfl : t = g := Pte.table.inj <| h3.symm.trans he
    dsimp only
    cases h2 : s.mem t (PTLX a 2)
    case zero => exact .inl rfl
    case leaf pa flags => exact hshows <| ht.big t p hg _ pa flags h2 a hd.symm rfl
    case table g =>
      obtain ⟨hgp, hprev, hdg⟩ := ht.pdp t p hg _ g h2
      dsimp only
      cases h1 : s.mem g (PTLX a 1)
      case zero => exact .inl rfl
      case table => exact absurd h1 <| ht.pd g p hgp _ _
      case leaf pa flags => exact hshows <| ht.small g p t hgp hprev (hdg ▸ h2) _ pa flags h1 a hd.symm hdg.symm rfl

theorem Tables.unique (ht : Tables s place) (hg : g ∈ s.heap) : ∃ i, g ∈ s.list i ∧ ∀ j, g ∈ s.list j → j = i := by
  obtain ⟨i, hi⟩ := Option.isSome_iff_exists.mp <| (ht.heap g).mp hg
  refine ⟨i, ht.shelves.mem.mpr hi, fun j hj => ?_⟩
  exact Option.some.inj <| (ht.shelves.mem.mp hj).symm.trans hi

end K10.Mmu
