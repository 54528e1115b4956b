import Nix.Lib.Machine
import Nix.Libc.Cleanname
import Nix.Libc.Dir

-- The names that channels were opened by, with the mount points that were crossed on the way. `C` are the channels.
namespace Port.Chan

open Libc (CStr cleanname slash dot hash)

variable {A C H : Type}

abbrev PATHSLOP  := 20
abbrev PATHMSLOP := 20

structure Path (C : Type) where
  ref   : Nat
  s     : Block UInt8
  len   : Nat
  alen  : Nat
  mtpt  : Block (Option C)
  mlen  : Nat
  malen : Nat

-- The string that begins a block.
def str (s : Block UInt8) : List UInt8 :=
  s.takeWhile (· ≠ 0)

def isdotdot (e : CStr) : Prop :=
  e.bytes = [dot, dot]

instance : DecidablePred isdotdot :=
  fun e => inferInstanceAs (Decidable (e.bytes = [dot, dot]))

def newpath (name : CStr) : Option (Path C) := do
  let alen := name.bytes.length + PATHSLOP
  let s ← (Block.alloc (0 : UInt8) alen).store 0 (name.bytes ++ [0])
  some { ref := 1, s, len := name.bytes.length, alen, mtpt := Block.alloc none PATHMSLOP, mlen := 1, malen := PATHMSLOP }

namespace Path

variable (p : Path C)

-- The mount points that are there, each with a reference to its channel.
def mtpts : List C :=
  (p.mtpt.take p.mlen).filterMap id

def copypath : Option (Path C) := do
  let s ← (Block.alloc 0 p.alen).store 0 (← p.s.load (p.len + 1))
  let mtpt ← (Block.alloc none p.malen).store 0 (← p.mtpt.load p.mlen)
  some { p with ref := 1, s, mtpt }

-- What `cleanname` leaves behind the end of the string is not modelled.
def fixdotdotname : Option (Path C) := do
  let name := str p.s
  let r := if name.head? = some hash then name.dropWhile (· ≠ slash) else name
  if r = [] then
    some p
  else
    let c := cleanname r
    let c := if name.head? = some hash ∧ c = [slash] ∧ name[1]? ≠ some slash then [] else c
    let s ← p.s.store (name.length - r.length) (c ++ [0])
    some { p with s, len := (str s).length }

-- The steps of `addelem`: there is room for the element and a slash, the slash is there, the element is copied.
def growname (i : Nat) : Option (Path C) :=
  if p.alen < p.len + 1 + i + 1 then do
    let a := p.len + 1 + i + 1 + PATHSLOP
    let t ← (Block.alloc 0 a).store 0 (← p.s.load (p.len + 1))
    some { p with s := t, alen := a }
  else some p

def addslash (e : CStr) : Option (Path C) :=
  if 0 < p.len ∧ p.s[p.len - 1]? ≠ some slash ∧ e.bytes.head? ≠ some slash then do
    let s ← p.s.store p.len [slash]
    some { p with s, len := p.len + 1 }
  else some p

def addname (e : CStr) : Option (Path C) := do
  let p ← p.growname e.bytes.length
  let p ← p.addslash e
  let s ← p.s.store p.len (e.bytes ++ [0])
  some { p with s, len := p.len + e.bytes.length }

def growmtpt : Option (Path C) :=
  if p.malen ≤ p.mlen then do
    let malen := p.mlen + 1 + PATHMSLOP
    let tt ← (Block.alloc none malen).store 0 (← p.mtpt.load p.mlen)
    some { p with mtpt := tt, malen }
  else some p

def addmtpt (mtpt : Option C) : Option (Path C) := do
  let p ← p.growmtpt
  let tt ← p.mtpt.store p.mlen [mtpt]
  some { p with mtpt := tt, mlen := p.mlen + 1 }

-- The path without its last mount point, and the channel that is to be closed.
def dropmtpt : Option (Path C × Option C) :=
  if 1 < p.mlen then do
    match ← p.mtpt[p.mlen - 1]? with
    | none   => some ({ p with mlen := p.mlen - 1 }, none)
    | some c => some ({ p with mlen := p.mlen - 1, mtpt := p.mtpt.set (p.mlen - 1) none }, some c)
  else some (p, none)

end Path

-- The paths by their addresses, and the references to channels: those that were taken for them, those that were closed,
-- and those that were handed out.
structure Mem (A C : Type) where
  path   : A → Option (Path C)
  taken  : List C
  closed : List C
  given  : List C

namespace Mem

variable [DecidableEq A] (m : Mem A C)

def set (a : A) (p : Path C) : Mem A C :=
  { m with path := Function.update m.path a (some p) }

def pathclose (a : A) : Option (Mem A C) := do
  let p ← m.path a
  if p.ref - 1 ≠ 0 then
    some (m.set a { p with ref := p.ref - 1 })
  else
    some { m with path := Function.update m.path a none, closed := m.closed ++ p.mtpts }

-- A copy is made at `new`.
def uniquepath (a new : A) : Option (Mem A C × A) := do
  let p ← m.path a
  if 1 < p.ref then
    let pp ← p.copypath
    let m' ← { m.set new pp with taken := m.taken ++ pp.mtpts }.pathclose a
    some (m', new)
  else some (m, a)

def addelem (a new : A) (e : CStr) (mtpt : Option C) : Option (Mem A C × A) :=
  if e.bytes = [dot] then
    some (m, a)
  else do
    let (m, a) ← m.uniquepath a new
    let p ← (← m.path a).addname e
    if isdotdot e then
      let (p, c) ← (← p.fixdotdotname).dropmtpt
      some ({ m.set a p with closed := m.closed ++ c.toList }, a)
    else
      let p ← p.addmtpt mtpt
      some ({ m.set a p with taken := m.taken ++ mtpt.toList }, a)

-- `mfrom` is the channel of the mount head that `findmount` found.
def domount (a new : A) (mfrom : C) : Option (Mem A C × A) := do
  let (m, a) ← m.uniquepath a new
  let p ← m.path a
  if p.mlen = 0 then
    some (m, a)
  else
    let lc ← p.mtpt[p.mlen - 1]?
    some ({ m.set a { p with mtpt := p.mtpt.set (p.mlen - 1) (some mfrom) } with
      taken := m.taken ++ [mfrom], closed := m.closed ++ lc.toList }, a)

-- The channel of the mount point goes to the caller, who had another one before.
def undomount (a : A) : Option (Mem A C) := do
  let p ← m.path a
  if p.mlen = 0 then
    some m
  else
    match ← p.mtpt[p.mlen - 1]? with
    | none   => some m
    | some c =>
      some { m.set a { p with mtpt := p.mtpt.set (p.mlen - 1) none } with given := m.given ++ [c] }

end Mem

-- The variables that hold paths, each with a reference of its own.
structure State (A C H : Type) extends Mem A C where
  hold : H → Option A

inductive Act (A C H : Type)
  | newpath (h : H) (new : A) (name : CStr)
  | incref (h h' : H)
  | pathclose (h : H)
  | addelem (h : H) (new : A) (e : CStr) (mtpt : Option C)
  | domount (h : H) (new : A) (mfrom : C)
  -- `..` in `walk`
  | updir (h : H) (new : A)

namespace State

variable [DecidableEq A] [DecidableEq H] (s : State A C H)

def dotdot : CStr :=
  ⟨[dot, dot], by decide⟩

-- The path of `h` is replaced by one that was made of it.
def become (h : H) (r : Mem A C × A) : State A C H :=
  { r.fst with hold := Function.update s.hold h (some r.snd) }

def step : Act A C H → Option (State A C H)
  | .newpath h new name => do
    guard (s.hold h = none ∧ (s.path new).isNone)
    let p ← Chan.newpath name
    some (s.become h (s.toMem.set new p, new))
  | .incref h h' => do
    guard (s.hold h' = none)
    let a ← s.hold h
    let p ← s.path a
    some (s.become h' (s.toMem.set a { p with ref := p.ref + 1 }, a))
  | .pathclose h => do
    let m ← s.toMem.pathclose (← s.hold h)
    some { m with hold := Function.update s.hold h none }
  | .addelem h new e mtpt => do
    guard (s.path new).isNone
    let r ← s.toMem.addelem (← s.hold h) new e mtpt
    some (s.become h r)
  | .domount h new mfrom => do
    guard (s.path new).isNone
    let r ← s.toMem.domount (← s.hold h) new mfrom
    some (s.become h r)
  | .updir h new => do
    guard (s.path new).isNone
    let r ← s.toMem.addelem (← s.hold h) new dotdot none
    let m ← r.fst.undomount r.snd
    some (s.become h (m, r.snd))

end State

def chan (A C H : Type) [DecidableEq A] [DecidableEq H] : Machine (State A C H) (Act A C H) where
  init s := (∀ a, s.path a = none) ∧ (∀ h, s.hold h = none) ∧ s.taken = [] ∧ s.closed = [] ∧ s.given = []
  step s := s.step

end Port.Chan
