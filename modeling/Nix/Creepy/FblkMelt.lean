import Nix.Creepy.Fblk

-- The blocks that `dfblk` goes through, by address, and what melting does to them. A block is the words of 64 bits that
-- are in it. The blocks with the counters are in memory.
namespace Creepy.Fblk

-- Why there is no block.
inductive Stop
  -- offset exceeds file capacity
  | capacity
  -- i/o error
  | io
  -- disk is full
  | full
  -- an address, a type or a counter that is not right: there is a call to `fatal`
  | bad
  | divzero
  -- an index that is not in the block
  | range
  deriving DecidableEq

abbrev DBdata := 5
abbrev DBptr0 := DBdata + 1

-- Where an address is: in the file, or at an index of a block.
inductive Slot
  | dptr (i : Nat)
  | iptr (i : Nat)
  | ptr (addr idx : Nat)
  deriving DecidableEq

structure Blk where
  type   : Nat
  frozen : Bool
  ptr    : Nat → Nat

structure Blks where
  dptr  : Nat → Nat
  iptr  : Nat → Nat
  blk   : Nat → Option Blk
  -- the counters on disk
  ref   : Nat → UInt64
  -- the addresses that `newblkaddr` gives, from the first on
  free  : List Nat
  -- the addresses that `getmelted` has stored, and where
  melts : List (Slot × Nat)

abbrev Fs := ExceptT Stop (StateM Blks)

def Fs.exec (m : Fs α) (s : Blks) : Except Stop α × Blks :=
  m s

namespace Blks

variable (s : Blks)

def read : Slot → Nat
  | .dptr i     => s.dptr i
  | .iptr i     => s.iptr i
  | .ptr a idx  => (s.blk a).elim 0 (·.ptr idx)

def write (x : Nat) : Slot → Blks
  | .dptr i     => { s with dptr := Function.update s.dptr i x }
  | .iptr i     => { s with iptr := Function.update s.iptr i x }
  | .ptr a idx  =>
    { s with blk := Function.update s.blk a <| (s.blk a).map fun b => { b with ptr := Function.update b.ptr idx x } }

def melted (a : Nat) : Bool :=
  (s.blk a).any fun b => !b.frozen

end Blks

-- `dbincref` for each address in a block, or what `dbput` does for them. Root and ctl files don't count.
def addrefs (delta : UInt64) (ptr : Nat → Nat) (ref : Nat → UInt64) : Nat → UInt64 :=
  (List.range Dptrperblk).foldl
    (fun ref i => if ptr i = 0 ∨ Fakeaddr ≤ ptr i then ref else Function.update ref (ptr i) (ref (ptr i) + delta)) ref

def dbget (type addr : Nat) : Fs Blk := do
  if addr < Dblksz then throw .bad
  match (← get).blk addr with
  | none   => throw .io
  | some b => if b.type = type then return b else throw .bad

def newblkaddr : Fs Nat := do
  match (← get).free with
  | []     => throw .full
  | a :: l =>
    modify fun s => { s with free := l }
    return a

def dballoc (type : Nat) : Fs Nat := do
  let addr ← newblkaddr
  modify fun s => { s with
    blk := Function.update s.blk addr (some { type := type, frozen := false, ptr := 0 })
    ref := Function.update s.ref addr 1 }
  return addr

def dbdup (b : Blk) : Fs Nat := do
  let addr ← dballoc b.type
  modify fun s => { s with
    blk := Function.update s.blk addr (some { b with frozen := false })
    ref := if b.type = DBdata then s.ref else addrefs 1 b.ptr s.ref }
  return addr

-- `dbput` for a block that `dbdup` has copied, which has added a reference to each block that it points to: none of them
-- is released.
def dbput (b : Blk) (addr : Nat) : Fs Unit := do
  let ref := (← get).ref addr
  if ref.toNat > 2 * Dblksz then throw .bad
  if ref - 1 ≠ 0 then
    modify fun s => { s with ref := Function.update s.ref addr (ref - 1) }
  else
    modify fun s => { s with
      blk  := Function.update s.blk addr none
      ref  := if b.type = DBdata then s.ref else addrefs (-1) b.ptr s.ref
      free := addr :: s.free }

def getmelted (isdir : Bool) (type : Nat) (addrp : Slot) : Fs Nat := do
  let addr := (← get).read addrp
  if addr = 0 then
    let nb ← dballoc type
    modify fun s => { s.write nb addrp with melts := s.melts ++ [(addrp, nb)] }
    return nb
  let b ← dbget type addr
  if ¬b.frozen then return addr
  let nb ← dbdup b
  -- `dupdentries`
  modify fun s => { s with ref := if isdir ∧ type = DBdata then addrefs 1 b.ptr s.ref else s.ref }
  modify fun s => { s.write nb addrp with melts := s.melts ++ [(addrp, nb)] }
  dbput b addr
  return nb

-- The block at a place, if there is one.
def block (isdir mkit : Bool) (type : Nat) (addrp : Slot) : Fs (Option Nat) := do
  let addr := (← get).read addrp
  if addr = 0 ∧ ¬mkit then return none
  if mkit then
    return some (← getmelted isdir type addrp)
  let _ ← dbget type addr
  return some addr

-- The loop of `dfblk` from block to block. It stays at a hole.
def descend (isdir mkit : Bool) : (nindir : Nat) → (addrp : Slot) → (nblks bno : Nat) → Fs (Option Nat)
  | 0, addrp, _, _ => block isdir mkit DBdata addrp
  | nindir + 1, addrp, nblks, bno => do
    let nblks := nblks / Dptrperblk
    if nblks = 0 then throw .divzero
    let idx := bno / nblks
    match ← block isdir mkit (DBdata + (nindir + 1)) addrp with
    | none   => descend isdir mkit nindir addrp nblks (bno - idx * nblks)
    | some b =>
      if idx ≥ Dptrperblk then throw .range
      descend isdir mkit nindir (.ptr b idx) nblks (bno - idx * nblks)

-- The pointers of the file are not checked when nothing is made.
def fileblock (isdir mkit : Bool) (type : Nat) (addrp : Slot) : Fs Nat := do
  if mkit then
    getmelted isdir type addrp
  else
    let addr := (← get).read addrp
    let _ ← dbget type addr
    return addr

def dfblk (isdir : Bool) (bno : Nat) (mkit : Bool) : Fs (Option Nat) := do
  if bno < Ndptr then
    return some (← fileblock isdir mkit DBdata (.dptr bno))
  match findptr Niptr 0 (bno - Ndptr) Dptrperblk with
  | none                => throw .capacity
  | some (i, bno, nblks) =>
    let _ ← fileblock isdir mkit (DBptr0 + i) (.iptr i)
    descend isdir mkit (i + 1) (.iptr i) nblks bno

variable {s s₁ s' : Blks} {isdir mkit : Bool} {type t a x : Nat} {r r' : Slot} {p : List Nat}

namespace Fs

variable {α β : Type} {m : Fs α} {f : α → Fs β}

theorem exec_bind :
    (m >>= f).exec s =
      match m.exec s with
      | (.ok a, s₁)    => (f a).exec s₁
      | (.error e, s₁) => (.error e, s₁) := by
  change ExceptT.bindCont f (m s).fst (m s).snd = _
  rw [exec]
  rcases m s with ⟨_ | _, _⟩ <;> rfl

theorem exec_map {g : α → β} :
    (g <$> m).exec s =
      match m.exec s with
      | (.ok a, s₁)    => (.ok (g a), s₁)
      | (.error e, s₁) => (.error e, s₁) := by
  rw [map_eq_pure_bind, exec_bind]
  rfl

theorem bind_eq_ok_iff {b : β} :
    (m >>= f).exec s = (.ok b, s') ↔ ∃ a s₁, m.exec s = (.ok a, s₁) ∧ (f a).exec s₁ = (.ok b, s') := by
  rw [exec_bind]
  rcases m.exec s with ⟨_ | _, _⟩ <;> simp

theorem exec_pure (a : α) : (pure a : Fs α).exec s = (.ok a, s) :=
  rfl

theorem exec_throw (e : Stop) : (throw e : Fs α).exec s = (.error e, s) :=
  rfl

theorem exec_get : (get : Fs Blks).exec s = (.ok s, s) :=
  rfl

theorem exec_modify (g : Blks → Blks) : (modify g : Fs PUnit).exec s = (.ok (), g s) :=
  rfl

end Fs

namespace Blks

-- A block that is melted and of a type.
def Holds (s : Blks) (type a : Nat) : Prop :=
  ∃ b, s.blk a = some b ∧ b.frozen = false ∧ b.type = type

theorem melted_iff : s.melted a ↔ ∃ type, s.Holds type a := by
  simp [melted, Holds, Option.any_eq_true]

theorem Holds.eq (h : s.Holds type a) (h' : s.Holds t a) : type = t := by
  obtain ⟨b, hb, -, rfl⟩ := h
  obtain ⟨b', hb', -, rfl⟩ := h'
  rw [hb] at hb'
  rw [Option.some.inj hb']

-- The addresses that are given have no block. Block 0 is not one of them.
structure Wf (s : Blks) : Prop where
  nodup : s.free.Nodup
  fresh : ∀ a ∈ s.free, s.blk a = none
  le    : ∀ a ∈ s.free, Dblksz ≤ a

end Blks

-- The slot is in the file, or in a melted block that is nearer to it than those of a type.
def Slot.Live (s : Blks) (type : Nat) : Slot → Prop
  | .ptr a _ => ∃ t, type < t ∧ s.Holds t a
  | _        => True

theorem Slot.Live.lt (h : r.Live s type) (ht : t ≤ type) : r.Live s t := by
  cases r
  case ptr =>
    obtain ⟨u, hu, h⟩ := h
    exact ⟨u, Nat.lt_of_le_of_lt ht hu, h⟩
  all_goals trivial

namespace Blks

theorem holds_write : (s.write x r).Holds type a ↔ s.Holds type a := by
  cases r
  case ptr y idx =>
    by_cases hy : a = y
    case pos =>
      subst hy
      cases hb : s.blk a <;> simp [Holds, write, hb]
    case neg => simp [Holds, write, hy]
  all_goals rfl

theorem read_write_self (h : r.Live s type) : (s.write x r).read r = x := by
  cases r
  case ptr y idx =>
    obtain ⟨t, -, b, hb, -⟩ := h
    simp [read, write, hb]
  all_goals simp [read, write]

theorem read_write_of_ne (h : r' ≠ r) : (s.write x r).read r' = s.read r' := by
  cases r <;> cases r'
  case ptr.ptr y idx y' idx' =>
    by_cases hy : y' = y
    case pos =>
      subst hy
      have hidx : idx' ≠ idx := fun he => h (he ▸ rfl)
      cases hb : s.blk y' <;> simp [read, write, hb, hidx]
    case neg => simp [read, write, hy]
  case dptr.dptr i i' =>
    have hi : i' ≠ i := fun he => h (he ▸ rfl)
    simp [read, write, hi]
  case iptr.iptr i i' =>
    have hi : i' ≠ i := fun he => h (he ▸ rfl)
    simp [read, write, hi]
  all_goals rfl

theorem write_free : (s.write x r).free = s.free := by
  cases r <;> rfl

theorem write_melts : (s.write x r).melts = s.melts := by
  cases r <;> rfl

theorem blk_write_eq_none : (s.write x r).blk a = none ↔ s.blk a = none := by
  cases r
  case ptr y idx =>
    by_cases hy : a = y
    case pos =>
      subst hy
      simp [write]
    case neg => simp [write, hy]
  all_goals rfl

-- `addrp` is set, after a block was put at an address.
def put (s : Blks) (b : Blk) (l : List Nat) (ref : Nat → UInt64) (a : Nat) (r : Slot) : Blks :=
  { ({ s with blk := Function.update s.blk a (some b), free := l, ref := ref } : Blks).write a r with
    melts := s.melts ++ [(r, a)] }

-- A block goes to the free addresses.
def release (s : Blks) (a : Nat) (ref : Nat → UInt64) : Blks :=
  { s with blk := Function.update s.blk a none, free := a :: s.free, ref := ref }

end Blks

-- What `getmelted` does when it gets a block.
inductive Got (type : Nat) (r : Slot) (s : Blks) : Nat → Blks → Prop
  | alloc {nb : Nat} (hz : s.read r = 0) (hf : s.free = nb :: l) (ref : Nat → UInt64) :
    Got type r s nb (s.put { type := type, frozen := false, ptr := 0 } l ref nb r)
  | same (hle : Dblksz ≤ s.read r) (h : s.Holds type (s.read r)) : Got type r s (s.read r) s
  | dup {nb : Nat} (b : Blk) (hb : s.blk (s.read r) = some b) (ht : b.type = type) (hfr : b.frozen = true)
    (hf : s.free = nb :: l) (ref ref' : Nat → UInt64) :
    Got type r s nb { s.put { b with frozen := false } l ref nb r with ref := ref' }
  | last {nb : Nat} (b : Blk) (hb : s.blk (s.read r) = some b) (ht : b.type = type) (hfr : b.frozen = true)
    (hf : s.free = nb :: l) (hle : Dblksz ≤ s.read r) (ref ref' : Nat → UInt64) :
    Got type r s nb ((s.put { b with frozen := false } l ref nb r).release (s.read r) ref')

-- What may go wrong with a block.
def Stop.isblock : Stop → Bool
  | .io | .full | .bad => true
  | _                  => false

attribute [local simp] Fs.exec_bind Fs.exec_map Fs.exec_pure Fs.exec_throw Fs.exec_get Fs.exec_modify

theorem dbget_eq_ok_iff {b : Blk} :
    (dbget type a).exec s = (.ok b, s') ↔ Dblksz ≤ a ∧ s.blk a = some b ∧ b.type = type ∧ s = s' := by
  by_cases hle : a < Dblksz
  case pos => simp [dbget, hle]
  case neg =>
    cases hb : s.blk a
    case none => simp [dbget, hle, hb]
    case some b =>
      by_cases ht : b.type = type <;> simp [dbget, hle, hb, ht] <;> grind

theorem dballoc_eq_ok_iff : (dballoc type).exec s = (.ok a, s') ↔
    ∃ l, s.free = a :: l ∧ s' = { s with
      blk := Function.update s.blk a (some { type := type, frozen := false, ptr := 0 }), free := l,
      ref := Function.update s.ref a 1 } := by
  cases hf : s.free
  case nil => simp [dballoc, newblkaddr, hf]
  case cons nb l =>
    simp [dballoc, newblkaddr, hf]
    grind

theorem dbdup_eq_ok_iff {b : Blk} : (dbdup b).exec s = (.ok a, s') ↔
    ∃ l, s.free = a :: l ∧ s' = { s with
      blk := Function.update s.blk a (some { b with frozen := false }), free := l,
      ref := if b.type = DBdata then Function.update s.ref a 1 else addrefs 1 b.ptr (Function.update s.ref a 1) } := by
  cases hf : s.free
  case nil => simp [dbdup, dballoc, newblkaddr, hf]
  case cons nb l =>
    simp [dbdup, dballoc, newblkaddr, hf]
    grind

theorem dbput_cases {b : Blk} (h : (dbput b a).exec s = (.ok (), s')) :
    (∃ ref, s' = { s with ref := ref }) ∨ ∃ ref, s' = s.release a ref := by
  by_cases hbad : 2 * Dblksz < (s.ref a).toNat
  case pos => simp [dbput, hbad] at h
  case neg =>
    by_cases hlast : s.ref a - 1 = 0
    case pos =>
      simp [dbput, hbad, hlast] at h
      exact .inr ⟨_, h.symm⟩
    case neg =>
      simp [dbput, hbad, hlast] at h
      exact .inl ⟨_, h.symm⟩

theorem got_of_getmelted (h : (getmelted isdir type r).exec s = (.ok a, s')) : Got type r s a s' := by
  rw [getmelted, Fs.bind_eq_ok_iff] at h
  obtain ⟨_, _, hg, h⟩ := h
  obtain ⟨rfl, rfl⟩ : s = _ ∧ s = _ := by simpa using hg
  dsimp only at h
  by_cases hz : s.read r = 0
  case pos =>
    rw [if_pos hz, Fs.bind_eq_ok_iff] at h
    obtain ⟨nb, s₁, ha, h⟩ := h
    obtain ⟨l, hf, rfl⟩ := dballoc_eq_ok_iff.mp ha
    simp at h
    obtain ⟨rfl, rfl⟩ := h
    exact .alloc hz hf _
  case neg =>
    rw [if_neg hz, Fs.bind_eq_ok_iff] at h
    obtain ⟨b, s₁, hb, h⟩ := h
    obtain ⟨hle, hbk, ht, rfl⟩ := dbget_eq_ok_iff.mp hb
    cases hfr : b.frozen
    case false =>
      simp [hfr] at h
      obtain ⟨rfl, rfl⟩ := h
      exact .same hle ⟨b, hbk, hfr, ht⟩
    case true =>
      simp only [hfr, not_true, if_false] at h
      obtain ⟨nb, s₁, hd, h⟩ := Fs.bind_eq_ok_iff.mp h
      obtain ⟨l, hf, rfl⟩ := dbdup_eq_ok_iff.mp hd
      obtain ⟨_, s₂, hs₂, h⟩ := Fs.bind_eq_ok_iff.mp h
      obtain ⟨ref, rfl⟩ : ∃ ref, s₂ = { s with
          blk := Function.update s.blk nb (some { b with frozen := false }), free := l, ref := ref } := by
        simp at hs₂
        exact ⟨_, hs₂.symm⟩
      obtain ⟨_, s₃, hs₃, h⟩ := Fs.bind_eq_ok_iff.mp h
      obtain rfl : _ = s₃ := by simpa using hs₃
      obtain ⟨_, s₄, hp, h⟩ := Fs.bind_eq_ok_iff.mp h
      obtain ⟨rfl, rfl⟩ : nb = a ∧ s₄ = s' := by simpa using h
      rcases dbput_cases hp with ⟨ref', rfl⟩ | ⟨ref', rfl⟩
      · exact .dup b hbk ht hfr hf ref ref'
      · exact .last b hbk ht hfr hf hle ref ref'

-- After a block was put at a slot, if it was not there.
structure Renews (type : Nat) (r : Slot) (s : Blks) (a : Nat) (s' : Blks) : Prop where
  wf    : s'.Wf
  le    : Dblksz ≤ a
  read  : s'.read r = a
  holds : s'.Holds type a
  other : ∀ r' ≠ r, r'.Live s type → s'.read r' = s.read r'
  stays : ∀ t x, s.Holds t x → s'.Holds t x
  news  : ∀ t x, s'.Holds t x → s.Holds t x ∨ x = a ∧ t = type
  melts : s'.melts = s.melts ++ if s.melted a then [] else [(r, a)]

theorem Slot.Live.mono (h : r.Live s type) (hs : ∀ t x, s.Holds t x → s'.Holds t x) : r.Live s' type := by
  cases r
  case ptr =>
    obtain ⟨t, ht, h⟩ := h
    exact ⟨t, ht, hs _ _ h⟩
  all_goals trivial

-- There is another block, or none, at an address where no block was melted.
structure Replaces (s : Blks) (a : Nat) (b : Option Blk) (s' : Blks) : Prop where
  vacant : ∀ t, ¬s.Holds t a
  dptr   : s'.dptr = s.dptr
  iptr   : s'.iptr = s.iptr
  blk    : s'.blk = Function.update s.blk a b

namespace Replaces

variable {b : Option Blk} (h : Replaces s a b s')
include h

theorem blk_of_ne (hx : x ≠ a) : s'.blk x = s.blk x := by
  rw [h.blk, Function.update_of_ne hx]

theorem holds (hx : s.Holds t x) : s'.Holds t x := by
  have hne : x ≠ a := by
    rintro rfl
    exact h.vacant t hx
  rwa [Blks.Holds, h.blk_of_ne hne]

theorem read (hr : r.Live s type) : s'.read r = s.read r := by
  cases r
  case dptr i => exact congrFun h.dptr i
  case iptr i => exact congrFun h.iptr i
  case ptr y idx =>
    obtain ⟨t, -, hy⟩ := hr
    have hne : y ≠ a := by
      rintro rfl
      exact h.vacant t hy
    rw [Blks.read, Blks.read, h.blk_of_ne hne]

theorem of_holds (hx : s'.Holds t x) : s.Holds t x ∨ x = a := by
  by_cases hxa : x = a
  case pos => exact .inr hxa
  case neg =>
    rw [Blks.Holds, h.blk_of_ne hxa] at hx
    exact .inl hx

end Replaces

theorem Blks.Wf.put {b : Blk} {l : List Nat} (h : s.Wf) (hf : s.free = a :: l) (hr : r.Live s type)
    (hfr : b.frozen = false) (ht : b.type = type) (ref : Nat → UInt64) : Renews type r s a (s.put b l ref a r) := by
  have ha : s.blk a = none := h.fresh a (hf ▸ List.mem_cons_self)
  have hl {x : Nat} (hx : x ∈ l) : x ∈ s.free := hf ▸ List.mem_cons_of_mem _ hx
  obtain ⟨hnotin, hnodup⟩ := List.nodup_cons.mp (hf ▸ h.nodup)
  obtain ⟨s₁, hs₁⟩ : ∃ s₁ : Blks, s₁ = { s with blk := Function.update s.blk a (some b), free := l, ref := ref } := ⟨_, rfl⟩
  have hrep : Replaces s a (some b) s₁ := by
    rw [hs₁]
    exact ⟨fun t ⟨b, hb, _⟩ => Option.some_ne_none b (hb.symm.trans ha), rfl, rfl, rfl⟩
  have hput : s.put b l ref a r = { s₁.write a r with melts := s.melts ++ [(r, a)] } := hs₁ ▸ rfl
  have hnew : s₁.Holds type a := ⟨b, by rw [hrep.blk, Function.update_self], hfr, ht⟩
  have hfree : (s₁.write a r).free = l := by rw [write_free, hs₁]
  have hholds {t x : Nat} : (s₁.write a r).Holds t x ↔ s₁.Holds t x := holds_write
  rw [hput]
  constructor
  case wf =>
    refine ⟨hfree ▸ hnodup, fun x hx => ?_, fun x hx => h.le x <| hl (hfree ▸ hx)⟩
    have hx : x ∈ l := hfree ▸ hx
    have hxa : x ≠ a := fun he => hnotin (he ▸ hx)
    exact blk_write_eq_none.mpr <| (hrep.blk_of_ne hxa).trans <| h.fresh x (hl hx)
  case le => exact h.le a (hf ▸ List.mem_cons_self)
  case read => exact read_write_self <| hr.mono fun _ _ => hrep.holds
  case holds => exact hholds.mpr hnew
  case other => exact fun r' hne hr' => (read_write_of_ne hne).trans (hrep.read hr')
  case stays => exact fun t x hx => hholds.mpr (hrep.holds hx)
  case news =>
    intro t x hx
    rcases hrep.of_holds (hholds.mp hx) with hx' | rfl
    · exact .inl hx'
    · exact .inr ⟨rfl, (hholds.mp hx).eq hnew⟩
  case melts =>
    have hnot : s.melted a = false := by rw [melted, ha]; rfl
    rw [hnot]
    rfl

namespace Renews

theorem withref (h : Renews type r s a s') (ref : Nat → UInt64) : Renews type r s a { s' with ref := ref } :=
  ⟨⟨h.wf.nodup, h.wf.fresh, h.wf.le⟩, h.le, h.read, h.holds, h.other, h.stays, h.news, h.melts⟩

theorem release (h : Renews type r s a s') (hr : r.Live s type) (hx : ∀ t, ¬s'.Holds t x) (hb : s'.blk x ≠ none)
    (hle : Dblksz ≤ x) (ref : Nat → UInt64) : Renews type r s a (s'.release x ref) := by
  have hrep : Replaces s' x none (s'.release x ref) := ⟨hx, rfl, rfl, rfl⟩
  have hnone : (s'.release x ref).blk x = none := by rw [hrep.blk, Function.update_self]
  have hlive {r' : Slot} (hr' : r'.Live s type) : (s'.release x ref).read r' = s'.read r' :=
    hrep.read <| hr'.mono h.stays
  constructor
  case wf =>
    have hnotin : x ∉ s'.free := fun hxf => hb (h.wf.fresh x hxf)
    refine ⟨List.nodup_cons.mpr ⟨hnotin, h.wf.nodup⟩, fun y hy => ?_, fun y hy => ?_⟩
    · rcases List.mem_cons.mp hy with rfl | hy
      · exact hnone
      · have hne : y ≠ x := fun he => hnotin (he ▸ hy)
        rw [hrep.blk_of_ne hne]
        exact h.wf.fresh y hy
    · rcases List.mem_cons.mp hy with rfl | hy
      · exact hle
      · exact h.wf.le y hy
  case le => exact h.le
  case read => exact (hlive hr).trans h.read
  case holds => exact hrep.holds h.holds
  case other => exact fun r' hne hr' => (hlive hr').trans (h.other r' hne hr')
  case stays => exact fun t y hy => hrep.holds (h.stays t y hy)
  case news =>
    intro t y hy
    rcases hrep.of_holds hy with hy' | rfl
    · exact h.news t y hy'
    · obtain ⟨b, hb', -⟩ := hy
      rw [hnone] at hb'
      contradiction
  case melts => exact h.melts

end Renews

theorem Got.renews (h : Got type r s a s') (hs : s.Wf) (hr : r.Live s type) : Renews type r s a s' := by
  cases h with
  | alloc hz hf ref => exact hs.put hf hr rfl rfl ref
  | same hle h =>
    have hm : s.melted (s.read r) := Blks.melted_iff.mpr ⟨type, h⟩
    exact ⟨hs, hle, rfl, h, fun _ _ _ => rfl, fun _ _ hx => hx, fun _ _ hx => .inl hx, by simp [hm]⟩
  | dup b hb ht hfr hf ref ref' => exact (hs.put (b := { b with frozen := false }) hf hr rfl ht ref).withref ref'
  | last b hb ht hfr hf hle ref ref' =>
    have hput := hs.put (b := { b with frozen := false }) hf hr rfl ht ref
    have hne : s.read r ≠ a := by
      intro he
      rw [he, hs.fresh a (hf ▸ List.mem_cons_self)] at hb
      contradiction
    refine hput.release hr (fun t ht' => ?_) (fun hnone => ?_) hle ref'
    · rcases hput.news _ _ ht' with ⟨b', hb', hfr', -⟩ | ⟨he, -⟩
      · rw [hb] at hb'
        rw [← Option.some.inj hb', hfr] at hfr'
        contradiction
      · exact hne he
    · have hnone := Blks.blk_write_eq_none.mp hnone
      simp [hne, hb] at hnone

end Creepy.Fblk
