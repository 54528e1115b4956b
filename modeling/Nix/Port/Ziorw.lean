import Nix.Port.Fault
import Nix.Port.Syszio
import Mathlib.Data.List.Count

-- Zero-copy reads and writes, and the references to segments that they take.
namespace Port.Ziorw

open Sysseg (SegNo Proc usize)
open Fault (long ulong okaddr)

def SG_ZIO : Nat := 128
def SG_KZIO : Nat := 256

def Maxatomic : Nat := 64 * 1024

-- The size of a `Zio`, and how many vectors there are room for on the stack.
def ziosize : Nat := 16
def nskio : Nat := 16

structure Zio where
  data : Nat
  size : Nat
deriving DecidableEq

-- A reference to a segment, or what the stack happens to hold.
inductive Ref
  | seg (i : SegNo)
  | stack (n : Nat)
deriving DecidableEq

structure Kzio extends Zio where
  seg : Option Ref
deriving DecidableEq

-- What is done with references, and what the device makes of a call.
inductive Event
  | incref (r : Ref)
  | putseg (r : Ref)
  | dev (offset : Int) (r : Except String Int)
deriving DecidableEq

inductive Stop
  | error (msg : String)
  -- by `validaddr`
  | suicide
  | panic (msg : String)
  | nil
deriving DecidableEq

-- The maps of the segments of kernel memory.
abbrev Maps := SegNo → List Syszio.Map

structure State where
  maps : Maps
  es   : List Event

def State.note (s : State) (e : Event) : State :=
  { s with es := s.es ++ [e] }

structure Chan where
  offset    : Int
  devoffset : Int
deriving DecidableEq

-- A call, with what it finds: the segments of the process, the channel that `fd` is, what the stack holds where there
-- was no segment stored yet, whether there is memory for a block, and the device, which has no `zread` or `zwrite` of its
-- own.
structure Call where
  p       : Proc
  maps    : Maps
  c       : Except String Chan
  -- the address of the vectors
  a       : Nat
  io      : List Zio
  count   : Nat
  offset  : Int
  iswrite : Bool
  stack   : Nat → Option Nat
  allocb  : Bool
  read    : Nat → Nat → Int → Except String Int
  write   : Nat → Nat → Int → Except String Int
  bwrite  : Int → Int → Except String Int

section

variable (p : Proc)

def segno (addr : Nat) : Option SegNo :=
  SegNo.all.find? fun i => (p i).any fun n => n.base ≤ addr ∧ addr < n.top

def has (flag : Nat) (i : SegNo) : Bool :=
  (p i).any fun s => s.type &&& flag ≠ 0

def getzkseg : Option SegNo :=
  SegNo.all.find? (has p SG_KZIO)

def fault : Syszio.Fault → Stop
  | .panic msg => .panic msg
  | .nil       => .nil

def alloczio (maps : Maps) (i : SegNo) (len : Nat) : Except Stop (Nat × Maps) :=
  match Syszio.zmapalloc len (maps i) with
  | .error e       => .error (fault e)
  | .ok (va, map)  =>
    if va = 0 then .error (.error "kernel zero copy segment exhausted") else .ok (va, Function.update maps i map)

-- The addresses that are kept for readers of a segment that is not the kernel's are not looked at here.
def zputaddr (maps : Maps) (i : SegNo) (va : Nat) : Except Stop (Int × Maps) :=
  if has p SG_ZIO i = false then
    .ok (-1, maps)
  else if has p SG_KZIO i then
    match Syszio.zmapfree (maps i) va with
    | .error e => .error (fault e)
    | .ok map  => .ok (0, Function.update maps i map)
  else
    .ok (0, maps)

def kernzio (k : Kzio) (r : Ref) (s : State) : Option Stop × Kzio × State :=
  match getzkseg p with
  | none   => (some (.error "can't use zero copy in this segment"), k, s)
  | some i =>
    let s := s.note (.incref (.seg i))
    match alloczio s.maps i k.size with
    | .error e        => (some e, k, s)
    | .ok (va, maps)  => (none, { k with data := va, seg := some (.seg i) }, { s with maps := maps }.note (.putseg r))

def zio (k : Kzio) : Bool :=
  match k.seg with
  | some (.seg i) => has p SG_ZIO i
  | _             => false

-- What is done to one vector of a write.
def kzio (z : Zio) (s : State) : Option Stop × Kzio × State :=
  match segno p z.data with
  | none   => (some (.error "invalid address in zio"), ⟨z, none⟩, s)
  | some i =>
    let s := s.note (.incref (.seg i))
    let k := ⟨z, some (.seg i)⟩
    if okaddr p z.data (long z.size) true ≠ some true then
      (some .suicide, k, s)
    else if has p SG_ZIO i then
      (none, k, s)
    else
      match kernzio p k (.seg i) s with
      | (none, k, s) => (if zio p k then none else some (.panic "assert failed: kio[i].seg->type&SG_ZIO"), k, s)
      | r            => r

-- The vectors that something was stored in.
def kzios : List Zio → State → Option Stop × List Kzio × State
  | [], s      => (none, [], s)
  | z :: zs, s =>
    match kzio p z s with
    | (some e, k, s) => (some e, [k], s)
    | (none, k, s)   =>
      let r := kzios zs s
      (r.fst, k :: r.snd.fst, r.snd.snd)

def zputaddrs : List Kzio → Maps → Except Stop Maps
  | [], maps      => .ok maps
  | k :: ks, maps =>
    match k.seg with
    | some (.seg i) =>
      match zputaddr p maps i k.data with
      | .error e      => .error e
      | .ok (n, maps) => if n < 0 then .error (.panic "devzwrite: not a shared data segment") else zputaddrs ks maps
    | _             => .error .nil

end

-- What is left of each vector after `tot` bytes were written, from the `i`th on. All of them have lost their segments.
def settle : List Kzio → Nat → Int → Nat → Nat × List Kzio
  | [], _, _, j        => (j, [])
  | k :: ks, i, tot, j =>
    if 0 < tot then
      if k.size ≤ tot then
        let r := settle ks (i + 1) (tot - k.size) j
        (r.fst, ⟨⟨0, k.size⟩, none⟩ :: r.snd)
      else
        let r := settle ks (i + 1) tot j
        (r.fst, ⟨⟨0, tot.toNat⟩, none⟩ :: r.snd)
    else
      let r := settle ks (i + 1) tot i
      (r.fst, ⟨⟨0, 0⟩, none⟩ :: r.snd)

namespace Call

variable (x : Call)

-- The first vector is the only one that is read into. The others stay as they are.
def devzread (ks : List Kzio) (offset : Int) (s : State) : Except Stop Nat × List Kzio × State :=
  match getzkseg x.p with
  | none   => (.error (.error "no kernel segment for zero-copy"), ks, s)
  | some i =>
    let s := s.note (.incref (.seg i))
    let tot := min x.count Maxatomic
    match alloczio s.maps i tot with
    | .error e       => (.error e, ks, s)
    | .ok (va, maps) =>
      let s := { s with maps := maps }
      let k := ⟨⟨va, 0⟩, some (.seg i)⟩
      match x.read va tot offset with
      | .ok n      => (.ok 1, ⟨⟨va, ulong n⟩, some (.seg i)⟩ :: ks.tail, s.note (.dev offset (.ok n)))
      | .error msg =>
        let s := s.note (.dev offset (.error msg))
        match zputaddr x.p s.maps i va with
        | .error e     => (.error e, k :: ks.tail, s)
        | .ok (_, maps) => (.error (.error msg), k :: ks.tail, { s with maps := maps }.note (.putseg (.seg i)))

-- What the device makes of a write. A single vector is written from where it is.
def devwrite (ks : List Kzio) (offset : Int) (maps : Maps) : Except Stop (Except String Int × Maps) :=
  match ks with
  | [k] => .ok (x.write k.data k.size offset, maps)
  | ks  =>
    let tot := long (ks.map fun k => (k.size : Int)).sum
    if x.allocb = false then
      .error (.panic s!"allocb: no memory for {tot} bytes")
    else
      match zputaddrs x.p ks maps with
      | .error e => .error e
      | .ok maps => .ok (x.bwrite tot offset, maps)

def devzwrite (ks : List Kzio) (offset : Int) (s : State) : Except Stop Nat × List Kzio × State :=
  match x.devwrite ks offset s.maps with
  | .error e      => (.error e, ks, s)
  | .ok (r, maps) =>
    let s := { s with maps := maps }.note (.dev offset r)
    match r with
    | .error msg => (.error (.error msg), ks, s)
    | .ok tot    =>
      let r' := settle ks 0 tot 0
      (.ok r'.fst, r'.snd, s)

-- The segments that there seem to be where something was stored in `ks` only.
def segs (ks : List Kzio) : List Ref :=
  ks.filterMap Kzio.seg ++ (List.range' ks.length (x.io.length - ks.length)).filterMap fun i =>
    if x.io.length < nskio then (x.stack i).map .stack else none

end Call

structure Result where
  out : Except Stop Nat
  -- the vectors that are given back
  io  : List Zio
  c   : Except String Chan
  es  : List Event

namespace Call

variable (x : Call)

def transfer (c : Chan) : Except Stop Nat × List Kzio × State :=
  let isprw := x.offset ≠ -1
  let offset := if isprw then c.offset else x.offset
  let s : State := ⟨x.maps, []⟩
  if x.iswrite then
    match kzios x.p x.io s with
    | (some e, ks, s) => (.error e, ks, s)
    | (none, ks, s)   => x.devzwrite ks offset s
  else
    x.devzread (x.io.map fun z => ⟨⟨0, z.size⟩, none⟩) offset s

-- After the device, or after what came before it.
def finish (c : Chan) : Except Stop Nat × List Kzio × State → Result
  | (.ok n, ks, s) =>
    let tot := usize ((ks.take n).map fun k => k.size).sum
    let c := if x.offset ≠ -1 then c else ⟨c.offset + tot, c.devoffset + tot⟩
    ⟨.ok n, (ks.take n).map Kzio.toZio, .ok c, s.es⟩
  | (.error (.error msg), ks, s) => ⟨.error (.error msg), [], .ok c, s.es ++ (x.segs ks).map .putseg⟩
  | (.error e, _, s)             => ⟨.error e, [], .ok c, s.es⟩

def ziorw : Result :=
  if x.io.length = 0 ∨ 512 < x.io.length then
    ⟨.error (.error "wrong io[] size"), [], x.c, []⟩
  else if okaddr x.p x.a (ziosize * x.io.length) true ≠ some true then
    ⟨.error .suicide, [], x.c, []⟩
  else
    match x.c with
    | .error msg => ⟨.error (.error msg), [], x.c, []⟩
    | .ok c      => x.finish c (x.transfer c)

end Call

-- The vectors that some of `m` bytes are of.
def transferred : List Zio → Int → Nat
  | [], _      => 0
  | z :: zs, m => if 0 < m then transferred zs (m - z.size) + 1 else 0

-- What a call is to come to.
structure Kept (x : Call) (r : Result) : Prop where
  offset : ∀ c o d, x.c = .ok c → .dev o d ∈ r.es → o = if x.offset = -1 then c.offset else x.offset
  -- Every reference is released once.
  refs   : ∀ ref, r.es.count (.incref ref) = r.es.count (.putseg ref)
  ok     : ∀ n, r.out = .ok n → ∃ c o m, x.c = .ok c ∧ .dev o (.ok m) ∈ r.es ∧
    n = (if x.iswrite then transferred x.io m else 1) ∧
    r.c = .ok (if x.offset = -1 then ⟨c.offset + m, c.devoffset + m⟩ else c)
  error  : ∀ e, r.out = .error e → r.c = x.c

section

variable (p : Proc)

-- A vector of a write that is taken, with the maps before and after it.
inductive Took (maps : Maps) (z : Zio) : Kzio → Maps → Prop
  | user : segno p z.data = some i → okaddr p z.data (long z.size) true = some true → has p SG_ZIO i →
    Took maps z ⟨z, some (.seg i)⟩ maps
  | kern : segno p z.data = some i → okaddr p z.data (long z.size) true = some true → has p SG_ZIO i = false →
    getzkseg p = some j → alloczio maps j z.size = .ok (va, maps') → has p SG_ZIO j →
    Took maps z ⟨⟨va, z.size⟩, some (.seg j)⟩ maps'

inductive Taken : Maps → List Zio → List Kzio → Maps → Prop
  | nil : Taken maps [] [] maps
  | cons : Took p maps z k maps₁ → Taken maps₁ zs ks maps' → Taken maps (z :: zs) (k :: ks) maps'

-- A vector at no address of the process, or one that there is no kernel segment for.
def Refused (z : Zio) : Prop :=
  segno p z.data = none ∨ ∃ i, segno p z.data = some i ∧ okaddr p z.data (long z.size) true = some true ∧
    has p SG_ZIO i = false ∧ getzkseg p = none

end

-- The device raises an error.
def Fails (x : Call) (offset : Int) (maps : Maps) : List Kzio → Prop
  | [k] => ∃ msg, x.write k.data k.size offset = .error msg
  | ks  => x.allocb ∧ (∃ maps', zputaddrs x.p ks maps = .ok maps') ∧
    ∃ msg, x.bwrite (long (ks.map fun k => (k.size : Int)).sum) offset = .error msg

-- Where nothing is looked at that was not stored.
def Cleared (x : Call) (n : Nat) : Prop :=
  ∀ i, n ≤ i → i < x.io.length → x.io.length < nskio → x.stack i = none

-- A call that stops before a segment is taken, or that stops in a write: where a vector is refused, or where the device
-- raises an error at the offset that was to be used.
def Clean (x : Call) : Prop :=
  x.io.length = 0 ∨ 512 < x.io.length ∨ okaddr x.p x.a (ziosize * x.io.length) true ≠ some true ∨
  (∃ msg, x.c = .error msg) ∨ ∃ c, x.c = .ok c ∧
    if x.iswrite then
      (∃ pre z post ks maps, x.io = pre ++ z :: post ∧ Taken x.p x.maps pre ks maps ∧ Refused x.p z ∧
        Cleared x (pre.length + 1)) ∨
      ∃ ks maps, Taken x.p x.maps x.io ks maps ∧ x.offset = c.offset ∧ Fails x c.offset maps ks
    else
      getzkseg x.p = none

variable {p : Proc} {maps maps' : Maps} {z : Zio} {zs post : List Zio} {k : Kzio} {ks : List Kzio} {es d d' : List Event}
  {refs refs' : List Ref} {x : Call} {c : Chan}

-- What was taken and has not been released is `refs`.
structure Holds (d : List Event) (refs : List Ref) : Prop where
  count : ∀ ref, d.count (.incref ref) = d.count (.putseg ref) + refs.count ref
  dev   : ∀ o r, .dev o r ∉ d

namespace Holds

theorem nil : Holds [] [] :=
  ⟨fun _ => rfl, by simp⟩

theorem incref (r : Ref) : Holds [.incref r] [r] :=
  ⟨fun ref => by by_cases h : r = ref <;> simp [h], by simp⟩

theorem append (h : Holds d refs) (h' : Holds d' refs') : Holds (d ++ d') (refs ++ refs') where
  count ref := by
    have := h.count ref
    have := h'.count ref
    simp only [List.count_append]
    omega
  dev o r hm := (List.mem_append.mp hm).elim (h.dev o r) (h'.dev o r)

-- All of them are released.
theorem putseg (h : Holds d refs) : Holds (d ++ refs.map .putseg) [] where
  count ref := by
    have hinc : (refs.map Event.putseg).count (.incref ref) = 0 := List.count_eq_zero.mpr (by simp)
    have hput : (refs.map Event.putseg).count (.putseg ref) = refs.count ref :=
      List.count_map_of_injective _ _ (fun _ _ h => Event.putseg.inj h) _
    rw [List.count_append, List.count_append, hinc, hput, h.count]
    rfl
  dev o r hm := (List.mem_append.mp hm).elim (h.dev o r) (by simp)

end Holds

-- What is released after a stop.
def released (ks : List Kzio) : Stop → List Ref
  | .error _ => ks.filterMap Kzio.seg
  | _        => []

-- There is a reference that was taken and is not released.
def Lost (d : List Event) (refs : List Ref) : Prop :=
  ∃ i, d.count (.putseg (.seg i)) + refs.count (.seg i) < d.count (.incref (.seg i))

theorem Refused.kzio (h : Refused p z) : ∃ k d msg, Holds d k.seg.toList ∧
    ∀ es, kzio p z ⟨maps, es⟩ = (some (.error msg), k, ⟨maps, es ++ d⟩) := by
  rcases h with hno | ⟨i, hno, hok, hzio, hzk⟩
  · refine ⟨⟨z, none⟩, [], "invalid address in zio", .nil, fun es => ?_⟩
    rw [Ziorw.kzio, hno, List.append_nil]
  · refine ⟨⟨z, some (.seg i)⟩, _, "can't use zero copy in this segment", .incref _, fun es => ?_⟩
    simp only [Ziorw.kzio, hno, hok, hzio, kernzio, hzk]
    rfl

theorem kzio_cases (p : Proc) (maps : Maps) (z : Zio) : (∃ k maps', Took p maps z k maps') ∨ Refused p z ∨
    ∃ e k maps' d, (∀ es, kzio p z ⟨maps, es⟩ = (some e, k, ⟨maps', es ++ d⟩)) ∧ Lost d (released [k] e) := by
  cases hno : segno p z.data
  case none   => exact .inr (.inl (.inl hno))
  case some i =>
    by_cases hok : okaddr p z.data (long z.size) true = some true
    case neg =>
      refine .inr (.inr ⟨.suicide, ⟨z, some (.seg i)⟩, maps, [.incref (.seg i)], fun es => ?_, i, ?_⟩)
      · simp [Ziorw.kzio, hno, hok, State.note]
      · simp [released]
    case pos =>
      cases hzio : has p SG_ZIO i
      case true  => exact .inl ⟨_, _, .user hno hok hzio⟩
      case false =>
        cases hzk : getzkseg p
        case none   => exact .inr (.inl (.inr ⟨i, hno, hok, hzio, hzk⟩))
        case some j =>
          cases halloc : alloczio maps j z.size
          case error e =>
            refine .inr (.inr ⟨e, ⟨z, some (.seg i)⟩, maps, [.incref (.seg i), .incref (.seg j)], fun es => ?_, j, ?_⟩)
            · simp [Ziorw.kzio, hno, hok, hzio, kernzio, hzk, State.note, halloc]
            · cases e <;> simp [released, List.count_cons] <;> split <;> omega
          case ok r =>
            obtain ⟨va, maps'⟩ := r
            by_cases hkern : has p SG_ZIO j = true
            case pos => exact .inl ⟨_, _, .kern hno hok hzio hzk halloc hkern⟩
            case neg =>
              refine .inr (.inr ⟨.panic "assert failed: kio[i].seg->type&SG_ZIO", ⟨⟨va, z.size⟩, some (.seg j)⟩, maps',
                [.incref (.seg i), .incref (.seg j), .putseg (.seg i)], fun es => ?_, j, ?_⟩)
              · simp [Ziorw.kzio, hno, hok, hzio, kernzio, hzk, State.note, halloc, zio, hkern]
              · simp [released, List.count_cons]

theorem Took.kzio (h : Took p maps z k maps') :
    ∃ d, Holds d k.seg.toList ∧ ∀ es, kzio p z ⟨maps, es⟩ = (none, k, ⟨maps', es ++ d⟩) := by
  cases h
  case user i hno hok hzio =>
    refine ⟨_, .incref _, fun es => ?_⟩
    simp only [Ziorw.kzio, hno, hok, hzio]
    rfl
  case kern i j va hno hok hzio hzk halloc hkern =>
    refine ⟨[.incref (.seg i)] ++ [.incref (.seg j)] ++ [.putseg (.seg i)], ?_, fun es => ?_⟩
    · refine ⟨fun ref => ?_, by simp⟩
      by_cases hi : Ref.seg i = ref <;> by_cases hj : Ref.seg j = ref <;> simp [hi, hj]
    · simp [Ziorw.kzio, hno, hok, hzio, kernzio, hzk, State.note, halloc, zio, hkern]

theorem kzios_cons (hk : kzio p z s = (none, k, s')) :
    kzios p (z :: zs) s = ((kzios p zs s').fst, k :: (kzios p zs s').snd.fst, (kzios p zs s').snd.snd) := by
  rw [kzios, hk]

theorem Taken.kzios (h : Taken p maps zs ks maps') : ∃ d, Holds d (ks.filterMap Kzio.seg) ∧ ∀ es post,
    kzios p (zs ++ post) ⟨maps, es⟩ = ((kzios p post ⟨maps', es ++ d⟩).fst, ks ++ (kzios p post ⟨maps', es ++ d⟩).snd.fst,
      (kzios p post ⟨maps', es ++ d⟩).snd.snd) := by
  induction h
  case nil => exact ⟨[], .nil, fun es post => by simp⟩
  case cons k maps₁ zs ks maps' htook _ ih =>
    obtain ⟨d, hd, hkzio⟩ := htook.kzio
    obtain ⟨d', hd', hkzios⟩ := ih
    refine ⟨d ++ d', ?_, fun es post => ?_⟩
    · have hseg : (k :: ks).filterMap Kzio.seg = k.seg.toList ++ ks.filterMap Kzio.seg := by
        cases hk : k.seg <;> simp [hk]
      rw [hseg]
      exact hd.append hd'
    · rw [List.cons_append, kzios_cons (hkzio es), hkzios, List.append_assoc]
      rfl

theorem Taken.length_eq (h : Taken p maps zs ks maps') : ks.length = zs.length := by
  induction h
  case nil          => rfl
  case cons _ _ ih  => rw [List.length_cons, List.length_cons, ih]

theorem Taken.seg (h : Taken p maps zs ks maps') : ∀ k ∈ ks, ∃ i, k.seg = some (.seg i) := by
  induction h
  case nil              => simp
  case cons htook _ ih  =>
    refine List.forall_mem_cons.mpr ⟨?_, ih⟩
    cases htook <;> exact ⟨_, rfl⟩

theorem kzios_cases (p : Proc) (maps : Maps) (zs : List Zio) : (∃ ks maps', Taken p maps zs ks maps') ∨
    (∃ pre z post ks maps', zs = pre ++ z :: post ∧ Taken p maps pre ks maps' ∧ Refused p z) ∨
    ∃ e ks maps' d, (∀ es, kzios p zs ⟨maps, es⟩ = (some e, ks, ⟨maps', es ++ d⟩)) ∧ Lost d (released ks e) := by
  induction zs generalizing maps
  case nil => exact .inl ⟨_, _, .nil⟩
  case cons z zs ih =>
    rcases kzio_cases p maps z with ⟨k, maps₁, htook⟩ | hrefused | ⟨e, k, maps', d, hkzio, hlost⟩
    · rcases ih maps₁ with ⟨ks, maps', h⟩ | ⟨pre, z', post, ks, maps', rfl, h, hrefused⟩ | ⟨e, ks, maps', d', hkzios, i, hlost⟩
      · exact .inl ⟨_, _, .cons htook h⟩
      · exact .inr (.inl ⟨z :: pre, z', post, _, _, rfl, .cons htook h, hrefused⟩)
      · obtain ⟨d, hd, hkzio⟩ := htook.kzio
        refine .inr (.inr ⟨e, k :: ks, maps', d ++ d', fun es => ?_, i, ?_⟩)
        · rw [kzios_cons (hkzio es), hkzios, List.append_assoc]
        · have hcount := hd.count (.seg i)
          have hle : (released (k :: ks) e).count (.seg i) ≤ k.seg.toList.count (.seg i) + (released ks e).count (.seg i) := by
            cases e <;> simp only [released]
            case error => cases hk : k.seg <;> simp [hk, List.count_cons, Nat.add_comm]
            all_goals simp
          simp only [List.count_append]
          omega
    · exact .inr (.inl ⟨[], z, zs, [], maps, rfl, .nil, hrefused⟩)
    · exact .inr (.inr ⟨e, [k], maps', d, fun es => by rw [kzios, hkzio], hlost⟩)

theorem zputaddr_error (h : zputaddr p maps i va = .error e) : ∀ msg, e ≠ .error msg := by
  rw [zputaddr] at h
  split at h
  · cases h
  · split at h
    · split at h
      case h_1 f _ =>
        obtain rfl := Except.error.inj h
        cases f <;> simp [fault]
      case h_2 => cases h
    · cases h

theorem zputaddrs_error (h : zputaddrs p ks maps = .error e) : ∀ msg, e ≠ .error msg := by
  induction ks generalizing maps
  case nil => cases h
  case cons k ks ih =>
    rw [zputaddrs] at h
    split at h
    case h_2 =>
      obtain rfl := Except.error.inj h
      simp
    case h_1 =>
      split at h
      case h_1 hput =>
        obtain rfl := Except.error.inj h
        exact zputaddr_error hput
      case h_2 =>
        split at h
        · obtain rfl := Except.error.inj h
          simp
        · exact ih h

namespace Call

theorem devwrite_iff {offset : Int} :
    Fails x offset maps ks ↔ ∃ msg maps', x.devwrite ks offset maps = .ok (.error msg, maps') := by
  unfold Fails devwrite
  split
  case h_1 k => simp
  case h_2   =>
    cases halloc : x.allocb
    case false => simp
    case true  => cases hput : zputaddrs x.p ks maps <;> simp

theorem devwrite_error {offset : Int} (h : x.devwrite ks offset maps = .error e) : ∀ msg, e ≠ .error msg := by
  unfold devwrite at h
  split at h
  · cases h
  · split at h
    · obtain rfl := Except.error.inj h
      simp
    · split at h
      case h_1 hput =>
        obtain rfl := Except.error.inj h
        exact zputaddrs_error hput
      case h_2 => cases h

-- What the stack holds instead of segments.
def rest (x : Call) (n : Nat) : List Ref :=
  (List.range' n (x.io.length - n)).filterMap fun i => if x.io.length < nskio then (x.stack i).map .stack else none

theorem rest_eq_nil_iff : x.rest n = [] ↔ Cleared x n := by
  rw [rest, List.filterMap_eq_nil_iff, Cleared]
  constructor
  · intro h i hle hlt hskio
    have := h i (List.mem_range'_1.mpr ⟨hle, by omega⟩)
    rwa [if_pos hskio, Option.map_eq_none_iff] at this
  · intro h i hi
    have hi := List.mem_range'_1.mp hi
    split
    case isTrue hskio => rw [h i hi.left (by omega) hskio, Option.map_none]
    case isFalse      => rfl

theorem rest_of_le (h : x.io.length ≤ n) : x.rest n = [] := by
  rw [rest, Nat.sub_eq_zero_of_le h]
  rfl

theorem rest_count (i : SegNo) : (x.rest n).count (.seg i) = 0 := by
  refine List.count_eq_zero.mpr fun h => ?_
  obtain ⟨j, -, h⟩ := List.mem_filterMap.mp h
  split at h
  · obtain ⟨k, -, h⟩ := Option.map_eq_some_iff.mp h
    cases h
  · cases h

end Call

theorem Kept.early {e : Stop} (x : Call) : Kept x ⟨.error e, [], x.c, []⟩ where
  offset := by simp
  refs _ := rfl
  ok     := by simp
  error  := by simp

theorem not_kept {r : Result} (i : SegNo) (h : r.es.count (.putseg (.seg i)) ≠ r.es.count (.incref (.seg i))) :
    ¬Kept x r :=
  fun hkept => h (hkept.refs _).symm

-- After an error all the segments that were stored are released, and all that seem to be.
theorem Holds.kept_iff {msg : String} (h : Holds d (ks.filterMap Kzio.seg)) (hc : x.c = .ok c) :
    Kept x ⟨.error (.error msg), [], .ok c, d ++ (x.segs ks).map .putseg⟩ ↔ Cleared x ks.length := by
  have hsegs : x.segs ks = ks.filterMap Kzio.seg ++ x.rest ks.length := rfl
  rw [← Call.rest_eq_nil_iff, hsegs, List.map_append, ← List.append_assoc]
  have hput := h.putseg
  generalize d ++ (ks.filterMap Kzio.seg).map .putseg = d at hput ⊢
  constructor
  · intro hkept
    refine List.eq_nil_iff_forall_not_mem.mpr fun ref href => ?_
    have hrefs := hkept.refs ref
    have hcount := hput.count ref
    have hpos : 0 < ((x.rest ks.length).map Event.putseg).count (.putseg ref) :=
      List.count_pos_iff.mpr (List.mem_map_of_mem href)
    have hinc : ((x.rest ks.length).map Event.putseg).count (.incref ref) = 0 := List.count_eq_zero.mpr (by simp)
    rw [List.count_append, List.count_append, hcount, hinc] at hrefs
    simp only [List.count_nil] at hrefs
    omega
  · intro hrest
    rw [hrest, List.map_nil, List.append_nil]
    exact ⟨fun c o r _ hm => absurd hm (hput.dev o r), hput.count, by simp, fun _ _ => hc.symm⟩

theorem finish_stop {e : Stop} (h : ∀ msg, e ≠ .error msg) (s : State) :
    x.finish c (.error e, ks, s) = ⟨.error e, [], .ok c, s.es⟩ := by
  cases e
  case error msg => exact absurd rfl (h msg)
  all_goals rfl

theorem Lost.not_kept {e : Stop} (h : Lost d (released ks e)) {maps : Maps} :
    ¬Kept x (x.finish c (.error e, ks, ⟨maps, d⟩)) := by
  obtain ⟨i, hlt⟩ := h
  refine Ziorw.not_kept i ?_
  cases e
  case error msg =>
    have hmap : ((x.segs ks).map Event.putseg).count (.putseg (.seg i)) = (x.segs ks).count (.seg i) :=
      List.count_map_of_injective _ _ (fun _ _ h => Event.putseg.inj h) _
    have hinc : ((x.segs ks).map Event.putseg).count (.incref (.seg i)) = 0 := List.count_eq_zero.mpr (by simp)
    have hsegs : (x.segs ks).count (.seg i) = (ks.filterMap Kzio.seg).count (.seg i) := by
      change (_ ++ x.rest ks.length).count _ = _
      rw [List.count_append, x.rest_count, Nat.add_zero]
    simp only [released] at hlt
    simp only [Call.finish, List.count_append, hmap, hinc, hsegs]
    omega
  all_goals
    simp only [released, List.count_nil] at hlt
    simp only [Call.finish]
    omega

-- The segments that are taken are not released by a write that goes on to the device and comes back.
theorem Taken.not_kept (h : Taken p maps zs ks maps') (hne : zs ≠ []) (hd : Holds d (ks.filterMap Kzio.seg)) {r : Result}
    (hinc : ∀ ref, r.es.count (.incref ref) = d.count (.incref ref))
    (hput : ∀ ref, r.es.count (.putseg ref) = d.count (.putseg ref)) : ¬Kept x r := by
  obtain ⟨k, ks, rfl⟩ := List.exists_cons_of_length_pos (h.length_eq ▸ List.length_pos_iff.mpr hne)
  obtain ⟨i, hi⟩ := h.seg k List.mem_cons_self
  refine Ziorw.not_kept i ?_
  have hcount := hd.count (.seg i)
  rw [List.filterMap_cons_some hi, List.count_cons_self] at hcount
  rw [hinc, hput]
  omega

-- Where a vector is refused.
theorem refused_kept_iff (hw : x.iswrite = true) (hc : x.c = .ok c) {pre : List Zio} (hio : x.io = pre ++ z :: post)
    (h : Taken x.p x.maps pre ks maps) (hz : Refused x.p z) :
    Kept x (x.finish c (x.transfer c)) ↔ Cleared x (pre.length + 1) := by
  obtain ⟨d, hd, hkzios⟩ := h.kzios
  obtain ⟨k, d', msg, hd', hkzio⟩ := @Refused.kzio _ maps _ hz
  have hrun : kzios x.p x.io ⟨x.maps, []⟩ = (some (.error msg), ks ++ [k], ⟨maps, d ++ d'⟩) := by
    rw [hio, hkzios, kzios, hkzio]
    rfl
  have hall : Holds (d ++ d') ((ks ++ [k]).filterMap Kzio.seg) := by
    have hseg : (ks ++ [k]).filterMap Kzio.seg = ks.filterMap Kzio.seg ++ k.seg.toList := by
      rw [List.filterMap_append]
      cases hk : k.seg <;> simp [hk]
    rw [hseg]
    exact hd.append hd'
  rw [Call.transfer, if_pos hw, hrun]
  have hiff := @Holds.kept_iff _ _ _ _ msg hall hc
  rw [List.length_append, h.length_eq] at hiff
  exact hiff

-- Where none is.
theorem taken_kept_iff (hw : x.iswrite = true) (hc : x.c = .ok c) (hne : x.io ≠ []) (h : Taken x.p x.maps x.io ks maps) :
    Kept x (x.finish c (x.transfer c)) ↔ x.offset = c.offset ∧ Fails x c.offset maps ks := by
  obtain ⟨d, hd, hkzios⟩ := h.kzios
  have hrun : kzios x.p x.io ⟨x.maps, []⟩ = (none, ks, ⟨maps, d⟩) := by
    have := hkzios [] []
    rwa [List.append_nil, kzios, List.append_nil] at this
  have hcleared : Cleared x ks.length := fun i hle hlt => absurd hlt (by rw [h.length_eq] at hle; omega)
  rw [Call.transfer, if_pos hw, hrun, Call.devwrite_iff]
  dsimp only
  generalize hoff : (if x.offset ≠ -1 then c.offset else x.offset) = offset
  have hoffset (heq : x.offset = c.offset) : offset = c.offset := by
    rw [← hoff]
    split
    · rfl
    · exact heq
  rw [Call.devzwrite]
  cases hdev : x.devwrite ks offset maps
  case error e =>
    dsimp only
    rw [finish_stop (Call.devwrite_error hdev)]
    refine iff_of_false (h.not_kept hne hd (fun _ => rfl) fun _ => rfl) ?_
    rintro ⟨heq, msg, maps', hfails⟩
    rw [← hoffset heq, hdev] at hfails
    cases hfails
  case ok r =>
    obtain ⟨r, maps'⟩ := r
    cases r
    case ok tot =>
      refine iff_of_false (h.not_kept hne hd (fun _ => ?_) fun _ => ?_) ?_
      · simp [Call.finish, State.note]
      · simp [Call.finish, State.note]
      · rintro ⟨heq, msg, maps', hfails⟩
        rw [← hoffset heq, hdev] at hfails
        cases hfails
    case error msg =>
      have hsegs : x.segs ks = ks.filterMap Kzio.seg := by
        change _ ++ x.rest ks.length = _
        rw [Call.rest_eq_nil_iff.mpr hcleared, List.append_nil]
      have hput := hd.putseg
      constructor
      · intro hkept
        have huses := hkept.offset c offset (.error msg) hc (by simp [Call.finish, State.note])
        have heq : x.offset = c.offset := by
          by_cases hplain : x.offset = -1
          · rwa [← hoff, if_neg (not_not_intro hplain), if_pos hplain] at huses
          · rw [← hoff, if_pos hplain, if_neg hplain] at huses
            exact huses.symm
        exact ⟨heq, msg, maps', hoffset heq ▸ hdev⟩
      · rintro ⟨heq, -⟩
        refine ⟨fun c' o r hc' hm => ?_, fun ref => ?_, by simp [Call.finish], fun _ _ => hc.symm⟩
        · obtain rfl : c = c' := Except.ok.inj (hc.symm.trans hc')
          have ho : o = offset := by
            simp only [Call.finish, State.note, hsegs, List.append_assoc, List.mem_append] at hm
            rcases hm with hm | hm | hm
            · exact absurd hm (hd.dev o r)
            · exact (Event.dev.inj (List.mem_singleton.mp hm)).left
            · simp at hm
          rw [ho, hoffset heq, heq, ite_self]
        · have hcount := hput.count ref
          simp only [Call.finish, State.note, hsegs, List.count_append, List.count_nil] at hcount ⊢
          simpa using hcount

theorem write_kept_iff (hw : x.iswrite = true) (hne : x.io ≠ []) (hc : x.c = .ok c) :
    Kept x (x.finish c (x.transfer c)) ↔
      (∃ pre z post ks maps, x.io = pre ++ z :: post ∧ Taken x.p x.maps pre ks maps ∧ Refused x.p z ∧
        Cleared x (pre.length + 1)) ∨
      ∃ ks maps, Taken x.p x.maps x.io ks maps ∧ x.offset = c.offset ∧ Fails x c.offset maps ks := by
  constructor
  · intro hkept
    rcases kzios_cases x.p x.maps x.io with ⟨ks, maps, h⟩ | ⟨pre, z, post, ks, maps, hio, h, hz⟩ | ⟨e, ks, maps, d, hkzios, hlost⟩
    · exact .inr ⟨ks, maps, h, (taken_kept_iff hw hc hne h).mp hkept⟩
    · exact .inl ⟨pre, z, post, ks, maps, hio, h, hz, (refused_kept_iff hw hc hio h hz).mp hkept⟩
    · rw [Call.transfer, if_pos hw, hkzios] at hkept
      exact absurd hkept hlost.not_kept
  · rintro (⟨pre, z, post, ks, maps, hio, h, hz, hcleared⟩ | ⟨ks, maps, h, hfails⟩)
    · exact (refused_kept_iff hw hc hio h hz).mpr hcleared
    · exact (taken_kept_iff hw hc hne h).mpr hfails

theorem read_kept_iff (hr : x.iswrite = false) (hc : x.c = .ok c) :
    Kept x (x.finish c (x.transfer c)) ↔ getzkseg x.p = none := by
  rw [Call.transfer, hr, if_neg Bool.false_ne_true]
  generalize hks : (x.io.map fun z => (⟨⟨0, z.size⟩, none⟩ : Kzio)) = ks
  generalize (if x.offset ≠ -1 then c.offset else x.offset) = offset
  have hnone : ks.filterMap Kzio.seg = [] := by
    rw [← hks, List.filterMap_eq_nil_iff]
    simp
  have hlength : ks.length = x.io.length := by rw [← hks, List.length_map]
  rw [Call.devzread]
  cases hzk : getzkseg x.p
  case none =>
    have hcleared : Cleared x ks.length := fun i hle hlt => absurd hlt (by omega)
    exact iff_of_true ((Holds.kept_iff (hnone ▸ .nil) hc).mpr hcleared) rfl
  case some i =>
    dsimp only [State.note, List.nil_append]
    refine iff_of_false ?_ (by simp)
    cases halloc : alloczio x.maps i (min x.count Maxatomic)
    case error e =>
      refine Lost.not_kept ⟨i, ?_⟩
      cases e <;> simp [released, hnone]
    case ok r =>
      obtain ⟨va, maps⟩ := r
      dsimp only [List.append_assoc]
      cases x.read va (min x.count Maxatomic) offset
      case ok n =>
        refine not_kept i ?_
        simp [Call.finish]
      case error msg =>
        dsimp only
        cases hput : zputaddr x.p maps i va
        case error e =>
          dsimp only
          rw [finish_stop (zputaddr_error hput)]
          refine not_kept i ?_
          simp
        case ok r =>
          refine not_kept i ?_
          have hinc (ks : List Kzio) : ((x.segs ks).map Event.putseg).count (.incref (.seg i)) = 0 :=
            List.count_eq_zero.mpr (by simp)
          have hput (ks : List Kzio) (hmem : .seg i ∈ x.segs ks) :
              0 < ((x.segs ks).map Event.putseg).count (.putseg (.seg i)) :=
            List.count_pos_iff.mpr (List.mem_map_of_mem hmem)
          have hpos := hput (⟨⟨va, 0⟩, some (.seg i)⟩ :: ks.tail) (by simp [Call.segs])
          -- It was released once already.
          simp only [Call.finish, List.count_append, hinc]
          simp
          omega

-- A call comes to what it is to come to only where it stops so.
theorem ziorw_kept (x : Call) : Kept x x.ziorw ↔ Clean x := by
  unfold Clean Call.ziorw
  by_cases hnio : x.io.length = 0 ∨ 512 < x.io.length
  case pos =>
    rw [if_pos hnio]
    exact iff_of_true (.early x) (hnio.imp_right .inl)
  case neg =>
    obtain ⟨hne, hle⟩ := not_or.mp hnio
    rw [if_neg hnio, or_iff_right hne, or_iff_right hle]
    by_cases hok : okaddr x.p x.a (ziosize * x.io.length) true ≠ some true
    case pos =>
      rw [if_pos hok]
      exact iff_of_true (.early x) (.inl hok)
    case neg =>
      rw [if_neg hok, or_iff_right hok]
      cases hc : x.c
      case error msg =>
        have hearly := Kept.early (e := .error msg) x
        rw [hc] at hearly
        exact iff_of_true hearly (.inl ⟨msg, rfl⟩)
      case ok c =>
        rw [or_iff_right (by simp)]
        simp only [Except.ok.injEq, exists_eq_left']
        cases hw : x.iswrite
        case false => exact read_kept_iff hw hc
        case true  => exact write_kept_iff hw (fun h => hne (h ▸ rfl)) hc

-- A process with a segment of kernel memory.
def proc : Proc := fun i =>
  if i = .seg1 then some { type := SG_KZIO + SG_ZIO, base := 2 ^ 30, top := 2 ^ 30 + Sysseg.BIGPGSZ, size := 1, pgszi := .big } else none

-- A read of 10 bytes at 3, on a channel that is at 0.
def pread : Call where
  p       := proc
  maps    := fun _ => Syszio.newzmap (2 ^ 30) Sysseg.BIGPGSZ
  c       := .ok ⟨0, 0⟩
  a       := 2 ^ 30
  io      := [⟨0, 0⟩]
  count   := 10
  offset  := 3
  iswrite := false
  stack   := fun _ => none
  allocb  := true
  read    := fun _ n _ => .ok n
  write   := fun _ n _ => .ok n
  bwrite  := fun n _ => .ok n

theorem not_ziorw_kept : ¬Kept pread pread.ziorw := by
  intro hkept
  have hdev : Event.dev 0 (.ok 10) ∈ pread.ziorw.es := by decide +kernel
  exact absurd (hkept.offset _ _ _ rfl hdev) (by decide)

end Port.Ziorw
