import Nix.Lib.Fifos
import Nix.Lib.Machine

-- Pages of memory, the lists of those that are free, and the cache of what they have of images.
namespace Port.Pgalloc

abbrev Addr := Nat

def Nminfree := 3
def Nfreepgs := 512
def NOCOLOR : Int := -1
def PGSHFT := 12
def PGHSIZE := 512
def MiB := 1024 * 1024

structure Page (I : Type) where
  ref   : Nat
  image : Option I
  daddr : Nat
  color : Int
  pgszi : Nat
deriving DecidableEq

structure Conf (I : Type) where
  npgsz  : Nat
  pgsz   : Nat → Nat
  notext : I → Bool

-- What `newpage` is asked for, how often it has tried, and whether it has a segment to give up.
structure Request where
  si    : Nat
  color : Int
  tries : Nat
  seg   : Bool
deriving DecidableEq

-- What `kickpager` does next: it has tried to allocate a page `n` times before `check n`.
inductive Kick
  | start
  | alloc (n : Nat)
  | chain (n : Nat) (a : Addr)
  | check (n : Nat)
  | free (si : Nat) (once : Bool)
  | freed (si : Nat) (once : Bool) (p : Addr)
  | done
deriving DecidableEq

-- What a process does next. With `newlock`, `putlock`, `auxlock`, `duplock`, `looklock` and `reclaim` it holds the lock of
-- the allocator.
inductive Pc (I : Type)
  | idle
  | newpage (r : Request)
  | newlock (p : Addr)
  | kick (r : Request) (k : Kick)
  | putpage (p : Addr)
  | putlock (p : Addr)
  | auxpage (si : Nat)
  | auxlock (p : Addr)
  -- it holds the lock of `p`, and has tried `n` times to get that of the allocator
  | duppage (p : Addr) (n : Nat)
  | dupagain (p : Addr) (n : Nat)
  | duplock (p np : Addr)
  -- it holds the lock of `np` as well
  | dupcopy (p np : Addr)
  | dupcache (p np : Addr)
  | dupend (p : Addr)
  | lookpage (f : Addr) (i : I) (daddr : Nat)
  | looklock (f : Addr) (i : I) (daddr : Nat)
  | pagereclaim (i : I)
  | reclaim (i : I) (p : Option Addr)
deriving DecidableEq

-- The page that the process has in its hands.
def Pc.taken {I : Type} : Pc I → Option Addr
  | .newlock p | .auxlock p | .kick _ (.chain _ p) | .kick _ (.freed _ _ p) => some p
  | _ => none

-- The size of the pages of which `freepages` is about to give one back.
def Pc.frees {I : Type} : Pc I → Option Nat
  | .kick _ (.free si _) => some si
  | _ => none

-- The page that the process has found in the cache, and is about to look at again.
def Pc.found {I : Type} : Pc I → Option Addr
  | .lookpage f _ _ | .looklock f _ _ => some f
  | _ => none

structure State (P I : Type) where
  page       : Addr → Page I
  lock       : Addr → Option P
  links      : Links Addr
  hash       : Addr → Option Addr
  -- the pages that there are, and all that there have been
  live       : List Addr
  known      : List Addr
  pgsza      : Nat → Ends Addr
  chain      : Nat → Option Addr
  pga        : Option P
  pagerlck   : Option P
  dupretries : Nat
  pc         : P → Pc I
  -- the references to pages, and the processes that make use of them in what they do
  refs       : List (Option P × Addr)
  panic      : Option String

inductive Act (P I : Type)
  | newpage (x : P) (r : Request)
  | putpage (x : P) (p : Addr)
  | auxpage (x : P) (si : Nat)
  | duppage (x : P) (p : Addr)
  | lookpage (x : P) (i : I) (daddr : Nat)
  | pagereclaim (x : P) (i : I)
  | cachepage (p : Addr) (i : I) (daddr : Nat)
  | uncachepage (p : Addr)
  | cachedel (i : I) (daddr : Nat)
  -- `ptecpy` makes one more segment refer to the page
  | ptecpy (p : Addr)
  -- the next step of the process. `new` is what there is if it allocates a page, and `has` what `hascolor` says
  | go (x : P) (new : Option (Addr × Int)) (has : Bool)
  -- memory of a page that was freed is used for something else
  | reuse (a : Addr) (pg : Page I) (x : Option P)

def pghash (daddr : Nat) : Nat :=
  daddr >>> PGSHFT % PGHSIZE

variable {P I : Type} [DecidableEq P] [DecidableEq I]

namespace State

variable (s : State P I) (x : P) (p np a : Addr) (r : Request)

def goto (c : Pc I) : State P I :=
  { s with pc := Function.update s.pc x c }

def setpage (pg : Page I) : State P I :=
  { s with page := Function.update s.page p pg }

def setlock (o : Option P) : State P I :=
  { s with lock := Function.update s.lock p o }

def fails (msg : String) : State P I :=
  { s with panic := some msg }

-- The references to a page.
def held : List (Option P × Addr) :=
  s.refs.filter fun r => r.snd = p

-- One more refers to the page.
def addref : State P I :=
  { s.setpage p { s.page p with ref := (s.page p).ref + 1 } with refs := (none, p) :: s.refs }

-- A reference that the process makes use of.
def lend : State P I :=
  { s with refs := (some x, p) :: s.refs.erase (none, p) }

def restore : State P I :=
  { s with refs := (none, p) :: s.refs.erase (some x, p) }

def pageunchain : State P I :=
  let si := (s.page p).pgszi
  { s with
    links := s.links.unlink p
    pgsza := Function.update s.pgsza si ((s.pgsza si).unlink s.links p) }

def pagechaintail : State P I :=
  let si := (s.page p).pgszi
  let k  := s.links.linklast (s.pgsza si) p
  { s with
    links := { k with next := Function.update k.next p none }
    pgsza := Function.update s.pgsza si ((s.pgsza si).linklast p) }

def pagechainhead : State P I :=
  let si := (s.page p).pgszi
  let k  := s.links.link (s.pgsza si) p
  { s with
    links := { k with prev := Function.update k.prev p none }
    pgsza := Function.update s.pgsza si ((s.pgsza si).link p) }

-- A new page that is not used.
def pgalloc (si : Nat) (color : Int) : Option (State P I) :=
  if a ∈ s.live then none
  else some
    { s with
      page  := Function.update s.page a { ref := 0, image := none, daddr := 0, color := color, pgszi := si }
      lock  := Function.update s.lock a none
      links := { next := Function.update s.links.next a none, prev := Function.update s.links.prev a none }
      hash  := Function.update s.hash a none
      live  := a :: s.live
      known := if a ∈ s.known then s.known else a :: s.known }

-- What was in the page is still in memory.
def pgfree : State P I :=
  { s with live := s.live.erase p }

def findpg (si : Nat) (color : Int) : Option (Option Addr) :=
  (search s.links.next (fun p => some <| decide (color = NOCOLOR ∨ (s.page p).color = color)) s.known.length none
    (s.pgsza si).hd).map Prod.snd

-- What `duppage` looks for has just this color.
def samecolor (si : Nat) (color : Int) : Option (Option Addr) :=
  (search s.links.next (fun p => some <| decide ((s.page p).color = color)) s.known.length none (s.pgsza si).hd).map Prod.snd

-- The page in the cache, and the one that is before it on its chain.
def lookup (i : I) (daddr : Nat) : Option (Option Addr × Option Addr) :=
  search s.hash (fun f => some <| decide ((s.page f).image = some i ∧ (s.page f).daddr = daddr)) s.known.length none
    (s.chain <| pghash daddr)

-- The page is taken off its chain, where it comes after `l` or is the first one.
def unhash (l : Option Addr) (h : Nat) : State P I :=
  { s with
    chain := if l = none then Function.update s.chain h (s.hash p) else s.chain
    hash  := updateAt s.hash l (s.hash p) }

def forget : State P I :=
  s.setpage p { s.page p with image := none, daddr := 0 }

-- What is done while `hashlock` is held is one step, here and below.
def uncachepage : Option (State P I) :=
  if (s.page p).image = none then some s
  else do
    let h := pghash (s.page p).daddr
    let (l, f) ← search s.hash (fun f => some <| decide (f = p)) s.known.length none (s.chain h)
    match f with
    | none   => some (s.forget p)
    | some _ => some ((s.unhash p l h).forget p)

def cachepage (i : I) : State P I :=
  if (s.page p).image ≠ none then s.fails "cachepage"
  else
    let h := pghash (s.page p).daddr
    { s.setpage p { s.page p with image := some i } with
      hash  := Function.update s.hash p (s.chain h)
      chain := Function.update s.chain h (some p) }

def cachedel (i : I) (daddr : Nat) : Option (State P I) := do
  let (l, f) ← s.lookup i daddr
  match f with
  | none   => some s
  | some f => if s.lock f = none then some ((s.unhash f l <| pghash daddr).forget f) else none

-- After some tries any color will do.
def wanted : Int :=
  if 3 < r.tries then NOCOLOR else r.color

-- The page is off the list that it was on, and the process holds the lock of the allocator.
def take (c : Pc I) : State P I :=
  ({ s with pga := some x }.pageunchain p).goto x c

def newpage (new : Option (Addr × Int)) : Option (State P I) :=
  if s.pga = none then do
    match ← s.findpg r.si (wanted r) with
    | some p => some (s.take x p <| .newlock p)
    | none   =>
      match new with
      | some (a, color) => do
        let s ← s.pgalloc a r.si color
        some ((s.pagechainhead a).take x a <| .newlock a)
      | none => some (s.goto x <| .kick r .start)
  else none

-- `newpage` and `auxpage` return a page that nobody refers to.
def handout (msg : String) : Option (State P I) :=
  if s.lock p = none then
    if (s.page p).ref ≠ 0 then some (s.fails msg)
    else do
      let s ← s.uncachepage p
      some ({ s.addref p with pga := none }.goto x .idle)
  else none

-- One refers to the page no longer.
def unref : State P I :=
  { s.setpage p { s.page p with ref := (s.page p).ref - 1 } with pga := none, refs := s.refs.erase (some x, p) }.goto x .idle

def putpage : Option (State P I) :=
  if s.lock p = none then
    if (s.page p).ref = 0 then some (s.fails "putpage")
    else
      let s := s.unref x p
      if 0 < (s.page p).ref then some s
      else if (s.page p).image ≠ none then some (s.pagechaintail p)
      else if (s.pgsza (s.page p).pgszi).n > Nfreepgs then some (s.pgfree p)
      else some (s.pagechainhead p)
  else none

def auxpage (si : Nat) : Option (State P I) :=
  if s.pga = none then
    if (s.pgsza si).n < Nminfree then some (s.goto x .idle)
    else do
      let p ← (s.pgsza si).hd
      some (s.take x p <| .auxlock p)
  else none

-- `duppage` returns, and its caller gives up the lock of the page.
def dupdone : State P I :=
  ((s.setlock p none).restore x p).goto x .idle

def duppage (c : Conf I) (n : Nat) : Option (State P I) :=
  if n > s.dupretries then
    if s.dupretries + 100 > 100000 then some (s.fails "duppage\n")
    else do
      let s ← { s with dupretries := s.dupretries + 100 }.uncachepage p
      some (s.dupdone x p)
  else if (s.page p).ref = 0 ∨ (s.page p).image = none ∨ (s.page p).image.any c.notext then some (s.dupdone x p)
  else if s.pga ≠ none then some ((s.setlock p none).goto x <| .dupagain p (n + 1))
  else if (s.pgsza (s.page p).pgszi).n < Nminfree then do
    let s ← s.uncachepage p
    some (s.dupdone x p)
  else do
    match ← s.samecolor (s.page p).pgszi (s.page p).color with
    | none    => do
      let s ← s.uncachepage p
      some (s.dupdone x p)
    -- It is on the list, and yet is not free for others until its lock is given up.
    | some np => some ((({ s with pga := some x }.pageunchain np).pagechaintail np).goto x <| .duplock p np)

def dupcache : Option (State P I) := do
  let i ← (s.page p).image
  let s := (s.setpage np { s.page np with daddr := (s.page p).daddr }).cachepage np i
  some ((s.setlock np none).goto x <| .dupend p)

def lookpage (i : I) (daddr : Nat) : Option (State P I) := do
  let (_, f) ← s.lookup i daddr
  match f with
  | none   => some (s.goto x .idle)
  | some f => some (s.goto x <| .lookpage f i daddr)

-- The page is looked at again, now that it is locked.
def looklock (f : Addr) (i : I) (daddr : Nat) : Option (State P I) :=
  if s.lock f = none then
    if (s.page f).image ≠ some i ∨ (s.page f).daddr ≠ daddr then some ({ s with pga := none }.goto x .idle)
    else
      let s := s.addref f
      let s := if (s.page f).ref = 1 then s.pageunchain f else s
      some ({ s with pga := none }.goto x .idle)
  else none

def reclaim (i : I) : Option Addr → Option (State P I)
  | none   => some ({ s with pga := none }.goto x .idle)
  | some p =>
    if (s.page p).image ≠ some i then some ({ s with pga := none }.goto x .idle)
    else if (s.page p).ref = 0 ∧ s.lock p = none then do
      let s ← s.uncachepage p
      some (s.goto x <| .reclaim i (s.links.prev p))
    else some (s.goto x <| .reclaim i (s.links.prev p))

-- The last one goes on once `freepages` is done with a page, or with all of them.
def freepages (c : Conf I) (si : Nat) (once : Bool) : Option (State P I) :=
  if c.npgsz ≤ si then some (s.goto x <| .kick r <| .alloc <| if once then 3 else 4)
  else if (s.pgsza si).n > 0 then
    if s.pga = none then do
      let p ← (s.pgsza si).hd
      some ((s.pageunchain p).goto x <| .kick r <| .freed si once p)
    else none
  else some (s.goto x <| .kick r <| .free (si + 1) once)

-- Text pages are put back by `putpage` before the second attempt.
def kickpager (c : Conf I) (new : Option (Addr × Int)) (has : Bool) : Kick → Option (State P I)
  | .start =>
    if s.pagerlck = none then
      some ({ s with pagerlck := some x }.goto x <| .kick r <| if has then .done else .alloc 1)
    else none
  | .alloc n =>
    match new with
    | none            => some (s.goto x <| .kick r <| .check n)
    | some (a, color) => do
      let s ← s.pgalloc a r.si color
      some (s.goto x <| .kick r <| .chain n a)
  | .chain n a => if s.pga = none then some ((s.pagechainhead a).goto x <| .kick r <| .check n) else none
  | .check n =>
    if n < 4 then
      if has then some (s.goto x <| .kick r .done)
      else if n = 1 ∧ c.pgsz r.si ≤ 2 * MiB then some (s.goto x <| .kick r <| .alloc 2)
      else if n < 3 then some (s.goto x <| .kick r <| .free (r.si + 1) true)
      else some (s.goto x <| .kick r <| .free 0 false)
    else if (s.pgsza r.si).n > 0 then some (s.goto x <| .kick r .done)
    else if wanted r = NOCOLOR then some (s.fails "kickpager(): no physical memory")
    else some (s.goto x <| .kick r .done)
  | .free si once    => s.freepages x r c si once
  | .freed si once p =>
    if (s.page p).ref ≠ 0 then some (s.fails "freepages pa")
    else some ((s.pgfree p).goto x <| .kick r <| if once then .alloc 3 else .free (si + 1) once)
  -- `newpage` returns no page if it lost its segment, and else tries again.
  | .done =>
    some ({ s with pagerlck := none }.goto x <| if r.seg then .idle else .newpage { r with tries := r.tries + 1 })

def go (c : Conf I) (new : Option (Addr × Int)) (has : Bool) : Option (State P I) :=
  match s.pc x with
  | .idle             => none
  | .newpage r        => s.newpage x r new
  | .newlock p        => s.handout x p "newpage pa"
  | .kick r k         => s.kickpager x r c new has k
  | .putpage p        => if s.pga = none then some ({ s with pga := some x }.goto x <| .putlock p) else none
  | .putlock p        => s.putpage x p
  | .auxpage si       => s.auxpage x si
  | .auxlock p        => s.handout x p "auxpage"
  | .duppage p n      => s.duppage x p c n
  | .dupagain p n     => if s.lock p = none then some ((s.setlock p (some x)).goto x <| .duppage p n) else none
  | .duplock p np     =>
    if s.lock np = none then some ({ s.setlock np (some x) with pga := none }.goto x <| .dupcopy p np) else none
  | .dupcopy p np     => (s.uncachepage np).map fun s => s.goto x <| .dupcache p np
  | .dupcache p np    => s.dupcache x p np
  | .dupend p         => (s.uncachepage p).map fun s => s.dupdone x p
  | .lookpage f i d   => if s.pga = none then some ({ s with pga := some x }.goto x <| .looklock f i d) else none
  | .looklock f i d   => s.looklock x f i d
  | .pagereclaim i    =>
    if s.pga = none then some ({ s with pga := some x }.goto x <| .reclaim i (s.pgsza 0).tl) else none
  | .reclaim i p      => s.reclaim x i p

-- A process calls one of these only when it is done with the one before, and with a page that is referred to.
def act (c : Conf I) : Act P I → Option (State P I)
  | .newpage x r         => if s.pc x = .idle then some (s.goto x <| .newpage r) else none
  | .putpage x p         =>
    if s.pc x = .idle ∧ (none, p) ∈ s.refs then some ((s.lend x p).goto x <| .putpage p) else none
  | .auxpage x si        => if s.pc x = .idle then some (s.goto x <| .auxpage si) else none
  | .duppage x p         =>
    if s.pc x = .idle ∧ (none, p) ∈ s.refs ∧ s.lock p = none then
      some (((s.lend x p).setlock p (some x)).goto x <| .duppage p 0)
    else none
  | .lookpage x i daddr  => if s.pc x = .idle then s.lookpage x i daddr else none
  | .pagereclaim x i     => if s.pc x = .idle then some (s.goto x <| .pagereclaim i) else none
  | .cachepage p i daddr =>
    if (none, p) ∈ s.refs then
      if (s.page p).image = none then some ((s.setpage p { s.page p with daddr := daddr }).cachepage p i)
      else some (s.fails "cachepage")
    else none
  | .uncachepage p       => if p ∈ s.live ∧ s.lock p = none then s.uncachepage p else none
  | .cachedel i daddr    => s.cachedel i daddr
  | .ptecpy p            =>
    if (none, p) ∈ s.refs ∧ s.lock p = none then some (s.addref p) else none
  | .go x new has        => s.go x c new has
  | .reuse a pg x        => if a ∈ s.live then none else some ((s.setpage a pg).setlock a x)

-- Nothing happens after a panic.
def step (c : Conf I) (s : State P I) (b : Act P I) : Option (State P I) :=
  if s.panic = none then s.act c b else none

end State

-- All pages are free, and none is in the cache.
structure Begins (s : State P I) : Prop where
  pc    : ∀ x, s.pc x = .idle
  pga   : s.pga = none
  refs  : s.refs = []
  panic : s.panic = none
  chain : ∀ h, s.chain h = none
  nodup : s.live.Nodup
  page  : ∀ p ∈ s.live, (s.page p).ref = 0 ∧ (s.page p).image = none
  lists : ∃ l, Listing s.links s.pgsza (fun p => if p ∈ s.live then some (s.page p).pgszi else none) l

def machine (P : Type) {I : Type} [DecidableEq P] [DecidableEq I] (c : Conf I) : Machine (State P I) (Act P I) where
  init := Begins
  step := State.step c

-- No page that is in the cache, or that `duppage` is about to put there, is given back by `freepages`. The memory of a page
-- that was freed is not used for something else while `lookpage` is about to look at it.
def Careful (c : Conf I) (s : State P I) : Act P I → Prop
  | .go x _ _    =>
    ∀ si ∈ (s.pc x).frees, c.npgsz ≤ si ∨ ∀ p ∈ (s.pgsza si).hd, (s.page p).image = none ∧ s.lock p = none
  | .reuse a _ _ => ∀ x, (s.pc x).found ≠ some a
  | _ => True

-- The panics that the allocator does not bring about by itself.
def Tolerated (o : Option String) : Prop :=
  o = none ∨ o = some "cachepage" ∨ o = some "duppage\n" ∨ o = some "kickpager(): no physical memory"

-- The pages that are not referred to are those on the lists, and those that some process is about to hand out, to put on a
-- list or to free.
structure Sound (c : Conf I) (s : State P I) : Prop where
  lists    : ∃ l : Nat → List Addr, (∀ si, DList s.links (s.pgsza si) (l si)) ∧ ∀ si p, p ∈ l si ↔
    p ∈ s.live ∧ (s.page p).pgszi = si ∧ (s.page p).ref = 0 ∧ ∀ x, (s.pc x).taken ≠ some p
  counted  : ∀ p ∈ s.live, (s.page p).ref = (s.held p).length
  live     : ∀ r ∈ s.refs, r.snd ∈ s.live
  newpage  : ∀ x p, s.pc x = .newlock p → p ∈ s.live ∧ s.held p = []
  lookpage : ∀ x f i d, s.pc x = .looklock f i d → (s.page f).image = some i → (s.page f).daddr = d →
    f ∈ s.live ∧ ∀ new has s', s.step c (.go x new has) = some s' → s'.refs = (none, f) :: s.refs
  panic    : Tolerated s.panic

end Port.Pgalloc
