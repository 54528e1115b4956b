import Nix.Lib.Contents
import Nix.Lib.DList
import Nix.Lib.Words
import Nix.Lib.Ledger
import Nix.Lib.Machine

-- Queues of blocks between drivers and processes. A queue links its blocks, and keeps count of what
-- they hold and of what they take.
namespace Port.Qio

abbrev Byte := UInt8
abbrev Addr := Nat

def Maxatomic := 64 * 1024
def BLOCKALIGN := 8
def Hdrspc := 64
def Ehungup := "i/o on hungup channel"

def roundup (n : Nat) : Nat :=
  (n + (BLOCKALIGN - 1)) / BLOCKALIGN * BLOCKALIGN

-- The data is what `mem` has between `rp` and `wp`.
structure Block where
  base : Nat
  rp   : Nat
  wp   : Nat
  lim  : Nat
  mem  : Nat → Byte

namespace Block

def blen (b : Block) : Nat := b.wp - b.rp
def balloc (b : Block) : Nat := b.lim - b.base

def bytes (b : Block) : List Byte :=
  (List.range' b.rp b.blen).map b.mem

def Ok (b : Block) : Prop :=
  b.base ≤ b.rp ∧ b.rp ≤ b.wp ∧ b.wp ≤ b.lim

instance : DecidablePred Ok :=
  fun b => inferInstanceAs <| Decidable (b.base ≤ b.rp ∧ b.rp ≤ b.wp ∧ b.wp ≤ b.lim)

-- The header of a block is at the end of the space that it takes, and `base` at the beginning.
def allocb (a : Addr) (size : Nat) : Block where
  base  := a - (BLOCKALIGN + roundup (size + Hdrspc))
  rp    := a / BLOCKALIGN * BLOCKALIGN - roundup size
  wp    := a / BLOCKALIGN * BLOCKALIGN - roundup size
  lim   := a / BLOCKALIGN * BLOCKALIGN
  mem _ := 0

-- Bytes are moved to the end of the data.
def fill (b : Block) (p : List Byte) : Block :=
  { b with wp := b.wp + p.length, mem := overwrite b.mem b.wp p }

def skip (b : Block) (n : Nat) : Block :=
  { b with rp := b.rp + n }

def cut (b : Block) (n : Nat) : Block :=
  { b with wp := b.rp + n }

end Block

structure Queue where
  bfirst   : Option Addr
  blast    : Option Addr
  len      : Int
  dlen     : Int
  limit    : Int
  inilim   : Int
  starve   : Bool
  msg      : Bool
  closed   : Bool
  flow     : Bool
  coalesce : Bool
  noblock  : Bool
  eof      : Nat
  err      : String
  -- the blocks that are the queue's, and how they are linked
  blk      : Addr → Block
  next     : Addr → Option Addr
  live     : List Addr
  -- which blocks were allocated or handed in, and which were freed or handed out
  trace    : List (Entry Addr)

-- Why a reader gets nothing: the queue is closed, it is an error to go on reading, or the reader waits.
inductive Stop
  | closed
  | error
  | sleeps

namespace Queue

variable (q : Queue)

-- What an address points to. Other blocks must not be looked at.
def get (a : Addr) : Option Block :=
  if a ∈ q.live then some (q.blk a) else none

def set (a : Addr) (b : Block) : Queue :=
  { q with blk := Function.update q.blk a b }

def setnext (a : Addr) (n : Option Addr) : Queue :=
  { q with next := Function.update q.next a n }

-- A block that was made by its caller.
def enter (a : Addr) (b : Block) : Queue :=
  { q with
    blk  := Function.update q.blk a b,
    next := Function.update q.next a none,
    live := a :: q.live }

-- A block that is off the queue.
def leave (a : Addr) : Queue :=
  { q with live := q.live.erase a }

-- A block that is allocated, or that a caller hands in.
def came (a : Addr) : Queue :=
  { q with trace := .acquire a :: q.trace }

-- A block that is now its caller's.
def returned (a : Addr) : Queue :=
  { q with trace := .release a :: q.trace }

def freeb (a : Addr) : Queue :=
  { q with trace := .release a :: q.trace }

def arrived (as : List Addr) : Queue :=
  as.foldl came q

def freebs (as : List Addr) : Queue :=
  as.foldl freeb q

-- The links of a list of blocks.
def linked (next : Addr → Option Addr) : List (Addr × Block) → Addr → Option Addr
  | []           => next
  | (a, _) :: bs => Function.update (linked next bs) a (bs.head?.map Prod.fst)

-- A list of blocks of a caller.
def adopt (bs : List (Addr × Block)) : Queue :=
  { q with
    blk  := bs.foldr (fun x blk => Function.update blk x.fst x.snd) q.blk,
    next := linked q.next bs,
    live := bs.map Prod.fst ++ q.live }

-- A block for which there is space at this address.
def allocb (a : Addr) (size : Nat) : Option Block :=
  if a ∉ q.live ∧ BLOCKALIGN + roundup (size + Hdrspc) ≤ a then some (.allocb a size) else none

-- If a writer is flow controlled, it may go on.
def restart : Queue :=
  { q with flow := q.flow && !decide (q.len < q.limit.tdiv 2) }

-- The block comes next after the last one.
def link (a : Addr) : Option Queue :=
  match q.bfirst with
  | none   => some { q with bfirst := some a }
  | some _ => do
    let l ← q.blast
    let _ ← q.get l
    some <| q.setnext l (some a)

-- The first block is taken off.
def unlink (a : Addr) (b : Block) : Queue :=
  { q with bfirst := q.next a, len := int32 (q.len - b.balloc), dlen := int32 (q.dlen - b.blen) }.leave a

def qremove : Option (Queue × Option (Addr × Block)) :=
  match q.bfirst with
  | none   => some (q, none)
  | some a => do
    let b ← q.get a
    some (q.unlink a b, some (a, b))

def qget : Option (Queue × Option (Addr × Block)) :=
  match q.bfirst with
  | none   => some ({ q with starve := true }, none)
  | some a => do
    let b ← q.get a
    some ((q.unlink a b).restart, some (a, b))

def discard : Nat → Queue → Nat → Option (Queue × List Byte)
  | 0, _, _ => none
  | fuel + 1, q, len =>
    if len = 0 then some (q, [])
    else
      match q.bfirst with
      | none   => some (q, [])
      | some a => do
        let b ← q.get a
        if b.blen ≤ len then
          let (q, p) ← discard fuel ((q.unlink a b).freeb a) (len - b.blen)
          some (q, b.bytes ++ p)
        else some ({ q.set a (b.skip len) with dlen := int32 (q.dlen - len) }, b.bytes.take len)

def qdiscard (len : Nat) : Option (Queue × List Byte) := do
  let (q, p) ← discard (q.live.length + 1) q len
  some (q.restart, p)

-- The first block that is not empty. Those before it are to be freed, and do not count in `dlen`.
def nonempty : Nat → Queue → List Addr → Option (Queue × List Addr × Option (Addr × Block))
  | 0, _, _ => none
  | fuel + 1, q, tofree =>
    match q.bfirst with
    | none   => some ({ q with starve := true }, tofree, none)
    | some a => do
      let b ← q.get a
      if 0 < b.blen then some (q, tofree, some (a, b))
      else nonempty fuel ({ q with bfirst := q.next a, len := int32 (q.len - b.balloc) }.leave a) (a :: tofree)

-- What was to be freed is not, where there is no block that is not empty.
def qconsume (len : Nat) : Option (Queue × Option (List Byte)) := do
  match ← nonempty (q.live.length + 1) q [] with
  | (q, _, none) => some (q, none)
  | (q, tofree, some (a, b)) =>
    let n := min b.blen len
    let q : Queue := { q.set a (b.skip n) with dlen := int32 (q.dlen - n) }
    let (q, tofree) := if q.msg ∨ n = b.blen then (q.unlink a (b.skip n), a :: tofree) else (q, tofree)
    some (q.restart.freebs tofree, some <| b.bytes.take n)

-- The part that `qpass`, `qpassnolim` and `qaddlist` have in common.
def addlist (bs : List (Addr × Block)) : Option Queue := do
  let (a, _) ← bs.head?
  let q ← (q.adopt bs).link a
  some { q with
    blast := bs.getLast?.map Prod.fst,
    len   := int32 (q.len + (bs.map (·.snd.balloc)).sum),
    dlen  := int32 (q.dlen + (bs.map (·.snd.blen)).sum) }

-- A list of blocks is queued for the readers, and a writer may have to wait.
def pass (bs : List (Addr × Block)) : Option (Queue × Int × List Byte) := do
  let q ← q.addlist bs
  let q := { q with flow := q.flow || decide (q.len ≥ q.limit.tdiv 2), starve := false }
  some (q, int32 (bs.map (·.snd.balloc)).sum, bs.flatMap (·.snd.bytes))

-- A list that is not queued is freed.
def qpassnolim (bs : List (Addr × Block)) : Option (Queue × Int × List Byte) :=
  if q.closed then bs.head?.map fun (_, b) => (q.freebs (bs.map Prod.fst), b.balloc, []) else q.pass bs

def qpass (bs : List (Addr × Block)) : Option (Queue × Int × List Byte) :=
  if q.len ≥ q.limit then some (q.freebs (bs.map Prod.fst), -1, []) else q.qpassnolim bs

def qaddlist (bs : List (Addr × Block)) : Option Queue :=
  q.addlist bs

-- One block is queued.
def put (a : Addr) (b : Block) : Option Queue := do
  let q ← (q.enter a b).link a
  some { q with blast := some a, len := int32 (q.len + b.balloc), dlen := int32 (q.dlen + b.blen), starve := false }

-- `iallocb` may find no memory.
def qproduce (p : List Byte) (new : Option Addr) : Option (Queue × Int × List Byte) :=
  if q.len ≥ q.limit then some ({ q with flow := true }, -1, [])
  else
    match new with
    | none   => some (q, 0, [])
    | some a => do
      let b ← q.allocb a p.length
      let q ← (q.came a).put a (b.fill p)
      some ({ q with flow := q.flow || decide (q.len ≥ q.limit) }, p.length, p)

-- The loop of `pullupblock`, which moves bytes of the blocks that follow into the first one.
def pullup : Nat → Queue → Addr → Nat → Option (Queue × Option Addr)
  | 0, _, _, _ => none
  | fuel + 1, q, bp, n => do
    let b ← q.get bp
    match q.next bp with
    | none     => some ((q.leave bp).freeb bp, none)
    | some nbp =>
      let nb ← q.get nbp
      if n < nb.blen then some ((q.set bp (b.fill <| nb.bytes.take n)).set nbp (nb.skip n), some bp)
      else
        let q := (((q.set bp (b.fill nb.bytes)).setnext bp (q.next nbp)).leave nbp).freeb nbp
        if n = nb.blen then some (q, some bp) else pullup fuel q bp (n - nb.blen)

def pullupblock (bp : Addr) (n : Nat) (new : Addr) : Option (Queue × Option Addr) := do
  let b ← q.get bp
  if n ≤ b.blen then some (q, some bp)
  else if b.lim - b.rp < n then
    let nb ← q.allocb new n
    pullup (q.live.length + 1) (((q.came new).enter new nb).setnext new (some bp)) new n
  else pullup q.live.length q bp (n - b.blen)

-- The end of a list.
def last : Nat → Addr → Option Addr
  | 0, _ => none
  | fuel + 1, a => do
    let _ ← q.get a
    match q.next a with
    | none   => some a
    | some n => last fuel n

def pullupqueue (n : Nat) (new : Addr) : Option (Queue × Option Addr) := do
  let a ← q.bfirst
  let b ← q.get a
  if n ≤ b.blen then some (q, some a)
  else
    match ← q.pullupblock a n new with
    | (q, none)   => some ({ q with bfirst := none, blast := none }, none)
    | (q, some a) =>
      let l ← q.last q.live.length a
      some ({ q with bfirst := some a, blast := some l }, some a)

def qputback (a : Addr) (b : Block) : Queue :=
  let q := (q.enter a b).setnext a q.bfirst
  { q with
    blast  := if q.bfirst = none then some a else q.blast,
    bfirst := some a,
    len    := int32 (q.len + b.balloc),
    dlen   := int32 (q.dlen + b.blen) }

def qwait : Queue × Except Stop Addr :=
  match q.bfirst with
  | some a => (q, .ok a)
  | none   =>
    if q.closed then
      ({ q with eof := q.eof + 1 },
        .error <| if q.eof + 1 > 3 ∨ q.err ≠ "" ∧ q.err ≠ Ehungup then .error else .closed)
    else ({ q with starve := true }, .error .sleeps)

def qbread (len : Nat) (new : Addr) : Option (Queue × Except Stop (Addr × Block)) :=
  match q.qwait with
  | (q, .error e) => some (q, .error e)
  | (q, .ok a)    => do
    let b ← q.get a
    let q' := q.unlink a b
    if b.blen ≤ len then some (q'.restart, .ok (a, b))
    else if q.msg then some (q'.restart, .ok (a, b.cut len))
    else
      -- The block that was taken off still has its space.
      let nb ← q.allocb new (b.blen - len)
      some (((q'.came new).qputback new <| nb.fill <| b.bytes.drop len).restart, .ok (a, b.cut len))

-- The blocks that `qread` takes off when it coalesces: the first one, and those after it that fit in
-- the read. `n` is what was taken before.
def grab (len : Nat) : Nat → Queue → Nat → Option (Queue × List (Addr × Block))
  | 0, _, _ => none
  | fuel + 1, q, n => do
    let a ← q.bfirst
    let b ← q.get a
    let q := q.unlink a b
    match q.bfirst with
    | none    => some (q, [(a, b)])
    | some a' =>
      let b' ← q.get a'
      if n + b.blen + b'.blen > len then some (q, [(a, b)])
      else
        let (q, bs) ← grab len fuel q (n + b.blen)
        some (q, (a, b) :: bs)

-- The blocks that `qread` takes off.
def first (len : Nat) : Nat → Queue → Option (Queue × Except Stop (List (Addr × Block)))
  | 0, _ => none
  | fuel + 1, q =>
    match q.qwait with
    | (q, .error e) => some (q, .error e)
    | (q, .ok a)    => do
      let b ← q.get a
      if !q.coalesce then some (q.unlink a b, .ok [(a, b)])
      else if b.blen = 0 then first len fuel ((q.unlink a b).freeb a)
      else
        let (q, bs) ← grab len (fuel + 1) q 0
        some (q, .ok bs)

-- What is copied to memory, and the first block that is not consumed. Those before it are freed.
def bl2mem (q : Queue) : List (Addr × Block) → Nat → Queue × List Byte × Option (Addr × Block)
  | [], _ => (q, [], none)
  | (a, b) :: bs, n =>
    if n < b.blen then (q, b.bytes.take n, some (a, b.skip n))
    else
      let (q, p, left) := bl2mem (q.freeb a) bs (n - b.blen)
      (q, b.bytes ++ p, left)

def qread (len : Nat) : Option (Queue × Except Stop (List Byte)) := do
  match ← first len (q.live.length + 1) q with
  | (q, .error e) => some (q, .error e)
  | (q, .ok bs)   =>
    match q.bl2mem bs len with
    | (q, p, none)        => some (q.restart, .ok p)
    | (q, p, some (a, b)) => some ((if q.msg then q.freeb a else q.qputback a b).restart, .ok p)

def qnotfull : Bool :=
  decide (q.len < q.limit) || q.closed

-- The bytes are none if the queue is closed. A process that finds the queue full waits at the end.
def qbwrite (a : Addr) (b : Block) : Option (Queue × Option (List Byte)) :=
  if q.closed then some (q.freeb a, none)
  else if q.len ≥ q.limit ∧ q.noblock then some (q.freeb a, some [])
  else do
    let q ← q.put a b
    some ({ q with flow := q.flow || !(q.noblock || q.qnotfull) }, some b.bytes)

-- One block after the other is allocated, at the given addresses.
def qwrite (q : Queue) (p : List Byte) : List Addr → Option (Queue × List Byte)
  | [] => none
  | a :: as => do
    let n := min p.length Maxatomic
    let b ← q.allocb a n
    match ← (q.came a).qbwrite a (b.fill <| p.take n) with
    | (q, none)   => some (q, [])
    | (q, some l) =>
      if n < p.length ∧ !q.msg then
        let (q, m) ← qwrite q (p.drop n) as
        some (q, l ++ m)
      else some (q, l)

-- `iallocb` finds no memory when there are no more addresses.
def qiwrite (q : Queue) (p : List Byte) : List Addr → Option (Queue × List Byte)
  | [] => some (q, [])
  | a :: as => do
    let n := min p.length Maxatomic
    let b ← q.allocb a n
    if q.dlen ≥ 16 * 1024 then some ((q.came a).freeb a, [])
    else
      let q ← (q.came a).put a (b.fill <| p.take n)
      if n < p.length ∧ !q.msg then
        let (q, m) ← qiwrite q (p.drop n) as
        some (q, p.take n ++ m)
      else some (q, p.take n)

def freeblist : Nat → Queue → Option Addr → Option Queue
  | _, q, none => some q
  | 0, _, some _ => none
  | fuel + 1, q, some a => do
    let _ ← q.get a
    freeblist fuel ((q.leave a).freeb a) (q.next a)

def qflush : Option Queue :=
  freeblist q.live.length { q with bfirst := none, len := 0, dlen := 0 } q.bfirst

def qclose : Option Queue :=
  freeblist q.live.length
    { q with
      closed := true, flow := false, starve := false, err := Ehungup,
      bfirst := none, len := 0, dlen := 0, noblock := false }
    q.bfirst

def qhangup (err : String) : Queue :=
  { q with closed := true, err := if err = "" then Ehungup else err }

def qreopen : Queue :=
  { q with closed := false, starve := true, eof := 0, limit := q.inilim }

end Queue

-- `qopen`.
def qopen (limit : Int) (msg coalesce : Bool) : Queue where
  bfirst   := none
  blast    := none
  len      := 0
  dlen     := 0
  limit    := limit
  inilim   := limit
  starve   := true
  msg      := msg
  closed   := false
  flow     := false
  coalesce := coalesce
  noblock  := false
  eof      := 0
  err      := ""
  blk _    := { base := 0, rp := 0, wp := 0, lim := 0, mem := fun _ => 0 }
  next _   := none
  live     := []
  trace    := []

inductive Act
  | qget
  | qremove
  | qdiscard (len : Nat)
  | qconsume (len : Nat)
  | qpass (bs : List (Addr × Block))
  | qpassnolim (bs : List (Addr × Block))
  | qaddlist (bs : List (Addr × Block))
  | qproduce (p : List Byte) (new : Option Addr)
  | pullupqueue (n : Nat) (new : Addr)
  | qputback (a : Addr) (b : Block)
  | qbread (len : Nat) (new : Addr)
  | qread (len : Nat)
  | qbwrite (a : Addr) (b : Block)
  | qwrite (p : List Byte) (new : List Addr)
  | qiwrite (p : List Byte) (new : List Addr)
  | qflush
  | qclose
  | qhangup (err : String)
  | qreopen
  | qsetlimit (limit : Int)
  | qnoblock (onoff : Bool)

-- A queue, with what was written to it and read from it so far.
structure Stream where
  q         : Queue
  accepted  : List Byte
  delivered : List Byte

namespace Stream

variable (s : Stream)

def accept (q : Queue) (p : List Byte) : Stream :=
  { s with q := q, accepted := s.accepted ++ p }

def deliver (q : Queue) (p : List Byte) : Stream :=
  { s with q := q, delivered := s.delivered ++ p }

end Stream

-- Blocks of a caller, which are not on the queue.
def Queue.Fresh (q : Queue) (bs : List (Addr × Block)) : Prop :=
  (bs.map Prod.fst).Nodup ∧ ∀ x ∈ bs, x.fst ∉ q.live ∧ x.snd.Ok

instance (q : Queue) (bs : List (Addr × Block)) : Decidable (q.Fresh bs) :=
  inferInstanceAs <| Decidable (_ ∧ _)

-- A block is returned, or none.
def Stream.hand (s : Stream) (q : Queue) : Option (Addr × Block) → Stream
  | none        => s.deliver q []
  | some (a, b) => s.deliver (q.returned a) b.bytes

def step (s : Stream) : Act → Option Stream
  | .qget            => s.q.qget.map fun (q, b) => s.hand q b
  | .qremove         => s.q.qremove.map fun (q, b) => s.hand q b
  | .qdiscard len    => (s.q.qdiscard len).map fun (q, p) => s.deliver q p
  | .qconsume len    => (s.q.qconsume len).map fun (q, p) => s.deliver q <| p.getD []
  | .qpass bs        => if s.q.Fresh bs then ((s.q.arrived (bs.map Prod.fst)).qpass bs).map fun (q, _, p) => s.accept q p else none
  | .qpassnolim bs   =>
    if s.q.Fresh bs then ((s.q.arrived (bs.map Prod.fst)).qpassnolim bs).map fun (q, _, p) => s.accept q p else none
  | .qaddlist bs     =>
    if s.q.Fresh bs then
      ((s.q.arrived (bs.map Prod.fst)).qaddlist bs).map fun q => s.accept q <| bs.flatMap (·.snd.bytes)
    else none
  | .qproduce p new  => (s.q.qproduce p new).map fun (q, _, p) => s.accept q p
  | .pullupqueue n new => (s.q.pullupqueue n new).map fun (q, _) => { s with q := q }
  | .qputback a b    =>
    if s.q.Fresh [(a, b)] then
      some { s with q := (s.q.came a).qputback a b, delivered := s.delivered.take (s.delivered.length - b.blen) }
    else none
  | .qbread len new  =>
    (s.q.qbread len new).map fun
      | (q, .ok x)    => s.hand q (some x)
      | (q, .error _) => { s with q := q }
  | .qread len       =>
    (s.q.qread len).map fun
      | (q, .ok p)    => s.deliver q p
      | (q, .error _) => { s with q := q }
  | .qbwrite a b     =>
    if s.q.Fresh [(a, b)] then ((s.q.came a).qbwrite a b).map fun (q, p) => s.accept q <| p.getD [] else none
  | .qwrite p new    => (s.q.qwrite p new).map fun (q, p) => s.accept q p
  | .qiwrite p new   => (s.q.qiwrite p new).map fun (q, p) => s.accept q p
  | .qflush          => s.q.qflush.map fun q => { s with q := q }
  | .qclose          => s.q.qclose.map fun q => { s with q := q }
  | .qhangup err     => some { s with q := s.q.qhangup err }
  | .qreopen         => some { s with q := s.q.qreopen }
  | .qsetlimit limit => some { s with q := { s.q with limit := limit } }
  | .qnoblock onoff  => some { s with q := { s.q with noblock := onoff } }

def machine : Machine Stream Act where
  init s := ∃ limit msg coalesce, s = { q := qopen limit msg coalesce, accepted := [], delivered := [] }
  step   := step

end Port.Qio
