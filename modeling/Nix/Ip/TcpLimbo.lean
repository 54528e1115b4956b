import Mathlib.Data.Fintype.Pi
import Nix.Lib.Buckets
import Nix.Lib.Machine

namespace Ip.TcpLimbo

section

abbrev Maxlimbo : Int := 1000

abbrev NLHT : Nat := 256

abbrev SYNACK_RXTIMER : Nat := 250

abbrev IPaddr := Fin 16 → UInt8

inductive Version
  | V4
  | V6
deriving DecidableEq, Repr

-- The addresses and ports of a call, as they are in a `Limbo` and are compared by all who look for one.
structure Call where
  laddr   : IPaddr
  raddr   : IPaddr
  lport   : Nat
  rport   : Nat
  version : Version
deriving DecidableEq

def hashipa (a : IPaddr) (p : Nat) : Nat :=
  ((a 14).toNat + (a 15).toNat + p) % NLHT

def Call.hash (c : Call) : Nat :=
  hashipa c.raddr c.rport

structure Limbo (A : Type*) where
  next     : Option A
  call     : Call
  irs      : Nat
  iss      : Nat
  mss      : Nat
  rcvscale : Nat
  sndscale : Nat
  lastsend : Nat
  rexmits  : Nat

-- What is read of the segment that came.
structure Tcp where
  seq : Nat
  ack : Nat
  SYN : Bool
  ACK : Bool
  mss : Nat
  ws  : Nat

-- The calls in limbo. `heap` lists the structures that were allocated and not freed.
structure Tcppriv (A : Type*) where
  lht    : Nat → Option A
  lp     : A → Limbo A
  nlimbo : Int
  heap   : List A

variable {A : Type*} [DecidableEq A]

namespace Tcppriv

def next (t : Tcppriv A) (a : A) : Option A :=
  (t.lp a).next

def call (t : Tcppriv A) (a : A) : Call :=
  (t.lp a).call

-- The word that a pointer `l` points to is the link of a structure, or the head of the chain.

def get (t : Tcppriv A) (h : Nat) : Option A → Option A
  | none   => t.lht h
  | some p => t.next p

def put (t : Tcppriv A) (h : Nat) (l v : Option A) : Tcppriv A :=
  match l with
  | none   => { t with lht := Function.update t.lht h v }
  | some p => { t with lp := Function.update t.lp p { t.lp p with next := v } }

def set (t : Tcppriv A) (a : A) (lp : Limbo A) : Tcppriv A :=
  { t with lp := Function.update t.lp a lp }

-- Where the loops that look for a call end, and the structure they end at.
def find (t : Tcppriv A) (c : Call) : Option (Option A × Option A) :=
  search t.next (fun a => some (t.call a = c)) t.heap.length none (t.lht c.hash)

-- Nothing is freed that is not allocated.
def free (t : Tcppriv A) (a : A) : Option (Tcppriv A) :=
  if a ∈ t.heap then some { t with heap := t.heap.erase a } else none

-- A structure is taken out of its chain.
def drop (t : Tcppriv A) (h : Nat) (l : Option A) (a : A) : Tcppriv A :=
  { t.put h l (t.next a) with nlimbo := t.nlimbo - 1 }

-- `sndsynack` where it can send, with the time at which it does and the scale that belongs to the address.
def sndsynack (t : Tcppriv A) (a : A) (now scale : Nat) : Tcppriv A :=
  t.set a { t.lp a with sndscale := if (t.lp a).rcvscale ≠ 0 then scale else 0, lastsend := now }

-- How the call goes on after its structure was found or made. `sent` tells whether the SYN ACK could be sent.
def answer (t : Tcppriv A) (h : Nat) (l : Option A) (a : A) (now scale : Nat) (sent : Bool) :
    Option (Tcppriv A × Bool) :=
  if sent then some (t.sndsynack a now scale, true) else ((t.drop h l a).free a).map fun t => (t, false)

-- The structure of a new call, on which `l` points from now on.
def enter (t : Tcppriv A) (h : Nat) (l : Option A) (a : A) (c : Call) (seg : Tcp) (iss : Nat) : Tcppriv A :=
  let t := t.put h l (some a)
  t.set a { t.lp a with call := c, mss := seg.mss, rcvscale := seg.ws, irs := seg.seq, iss }

-- `mem` is the structure that `malloc` gets, cleared. The result tells whether a SYN ACK was sent.
def limbo (t : Tcppriv A) (c : Call) (seg : Tcp) (mem : Option A) (iss now scale : Nat) (sent : Bool) :
    Option (Tcppriv A × Bool) :=
  let h := c.hash
  (t.find c).bind fun
  | (l, some a) =>
    let t := t.set a { t.lp a with irs := seg.seq }
    t.answer h l a now scale sent
  | (l, none) =>
    match t.lht h with
    | some a =>
      if t.nlimbo ≥ Maxlimbo then
        let t := { t with lht := Function.update t.lht h (t.next a) }
        let t := t.set a { t.lp a with next := none }
        (t.enter h l a c seg iss).answer h l a now scale sent
      else
        fresh t h l
    | none => fresh t h l
where
  fresh (t : Tcppriv A) (h : Nat) (l : Option A) : Option (Tcppriv A × Bool) :=
    match mem with
    | none   => some (t, false)
    | some a =>
      let lp :=
        { next := none, call := c, irs := 0, iss := 0, mss := 0, rcvscale := 0, sndscale := 0, lastsend := 0, rexmits := 0 }
      let t := { t.set a lp with heap := a :: t.heap, nlimbo := t.nlimbo + 1 }
      (t.enter h l a c seg iss).answer h l a now scale sent

-- The part of `limborexmit` for one chain. The count of those that were seen ends it, which goes up by one in each
-- round, and `sent` tells which of the SYN ACKs could be sent.
def rexmitchain (now scale : Nat) (sent : Nat → Bool) (h : Nat) :
    Nat → Option A → Nat → Tcppriv A → Option (Nat × Tcppriv A)
  | 0, _, seen, t     => some (seen, t)
  | k + 1, l, seen, t =>
    match t.get h l with
    | none   => some (seen, t)
    | some a =>
      if seen < t.nlimbo then
        if (now + 2 ^ 32 - (t.lp a).lastsend) % 2 ^ 32 < ((t.lp a).rexmits + 1) * SYNACK_RXTIMER then
          rexmitchain now scale sent h k l (seen + 1) t
        else
          let rexmits := ((t.lp a).rexmits + 1) % 256
          let t := t.set a { t.lp a with rexmits }
          if rexmits > 5 then
            ((t.drop h l a).free a).bind <| rexmitchain now scale sent h k l (seen + 1)
          else if t.nlimbo > 100 then
            rexmitchain now scale sent h k l (seen + 1) t
          else if sent seen then
            rexmitchain now scale sent h k (some a) (seen + 1) (t.sndsynack a now scale)
          else
            ((t.drop h l a).free a).bind <| rexmitchain now scale sent h k l (seen + 1)
      else
        some (seen, t)

def limborexmit (t : Tcppriv A) (now scale : Nat) (sent : Nat → Bool) : Option (Tcppriv A) :=
  ((List.range NLHT).foldlM
    (fun (s : Nat × Tcppriv A) h => rexmitchain now scale sent h s.snd.nlimbo.toNat none s.fst s.snd) (0, t)).map Prod.snd

def limborst (t : Tcppriv A) (c : Call) (seg : Tcp) : Option (Tcppriv A) :=
  (t.find c).bind fun
  | (l, some a) => if seg.seq = ((t.lp a).irs + 1) % 2 ^ 32 then (t.drop c.hash l a).free a else some t
  | (_, none)   => some t

-- `tcpincoming`, with what the new conversation is made of. `newcall` tells whether there can be one.
def tcpincoming (t : Tcppriv A) (c : Call) (seg : Tcp) (newcall : Bool) : Option (Tcppriv A × Option (Limbo A)) :=
  if seg.SYN ∨ ¬seg.ACK then
    some (t, none)
  else
    (t.find c).bind fun
    | (l, some a) =>
      if seg.seq ≠ ((t.lp a).irs + 1) % 2 ^ 32 ∨ seg.ack ≠ ((t.lp a).iss + 1) % 2 ^ 32 then
        some (t, none)
      else
        let t' := t.drop c.hash l a
        if newcall then (t'.free a).map fun t' => (t', some (t.lp a)) else some (t', none)
    | (_, none) => some (t, none)

end Tcppriv

-- The calls of the functions, with what they get from the rest of the system.
inductive Act (A : Type*)
  | limbo (c : Call) (seg : Tcp) (mem : Option A) (iss now scale : Nat) (sent : Bool)
  | limborexmit (now scale : Nat) (sent : Nat → Bool)
  | limborst (c : Call) (seg : Tcp)
  | tcpincoming (c : Call) (seg : Tcp) (newcall : Bool)

-- What is allocated was not allocated before.
def Act.Fits (t : Tcppriv A) : Act A → Prop
  | .limbo _ _ mem _ _ _ _ => ∀ a ∈ mem, a ∉ t.heap
  | _                      => True

def step (t : Tcppriv A) : Act A → Option (Tcppriv A)
  | .limbo c seg mem iss now scale sent => (t.limbo c seg mem iss now scale sent).map Prod.fst
  | .limborexmit now scale sent         => t.limborexmit now scale sent
  | .limborst c seg                     => t.limborst c seg
  | .tcpincoming c seg newcall          => (t.tcpincoming c seg newcall).map Prod.fst

end

variable {A : Type*} [DecidableEq A] {t t' : Tcppriv A} {l : Nat → List A} {m l' : List A} {a b : A} {h : Nat} {c : Call}

namespace Tcppriv

@[simp]
theorem put_lht (t : Tcppriv A) (h : Nat) (l v : Option A) :
    (t.put h l v).lht = if l = none then Function.update t.lht h v else t.lht := by
  cases l <;> rfl

@[simp]
theorem put_next (t : Tcppriv A) (h : Nat) (l v : Option A) : (t.put h l v).next = updateAt t.next l v := by
  cases l
  case none => rfl
  case some p =>
    funext b
    by_cases hb : b = p
    · subst hb
      simp [put, next, updateAt]
    · simp [put, next, updateAt, hb]

@[simp]
theorem put_call (t : Tcppriv A) (h : Nat) (l v : Option A) : (t.put h l v).call = t.call := by
  cases l
  case none => rfl
  case some p =>
    funext b
    by_cases hb : b = p
    · subst hb
      simp [put, call]
    · simp [put, call, hb]

@[simp]
theorem put_nlimbo (t : Tcppriv A) (h : Nat) (l v : Option A) : (t.put h l v).nlimbo = t.nlimbo := by
  cases l <;> rfl

@[simp]
theorem put_heap (t : Tcppriv A) (h : Nat) (l v : Option A) : (t.put h l v).heap = t.heap := by
  cases l <;> rfl

theorem set_next (t : Tcppriv A) (a : A) (lp : Limbo A) : (t.set a lp).next = Function.update t.next a lp.next := by
  funext b
  by_cases hb : b = a
  · subst hb
    simp [set, next]
  · simp [set, next, hb]

theorem set_call (t : Tcppriv A) (a : A) (lp : Limbo A) : (t.set a lp).call = Function.update t.call a lp.call := by
  funext b
  by_cases hb : b = a
  · subst hb
    simp [set, call]
  · simp [set, call, hb]

end Tcppriv

-- The structures in the table: `l` lists those of each chain.
structure Table (t : Tcppriv A) (l : Nat → List A) : Prop where
  chains : Buckets t.lht t.next l
  nlimbo : t.nlimbo = t.heap.length
  nodup  : t.heap.Nodup
  mem    : ∀ a, a ∈ t.heap ↔ ∃ h, a ∈ l h
  place  : ∀ h, ∀ a ∈ l h, (t.call a).hash = h
  one    : ∀ a ∈ t.heap, ∀ b ∈ t.heap, t.call a = t.call b → a = b

namespace Table

omit [DecidableEq A] in
theorem congr (ht : Table t l) (hlht : t'.lht = t.lht) (hnext : t'.next = t.next) (hcall : t'.call = t.call)
    (hn : t'.nlimbo = t.nlimbo) (hheap : t'.heap = t.heap) : Table t' l where
  chains := hlht ▸ hnext ▸ ht.chains
  nlimbo := hn ▸ hheap ▸ ht.nlimbo
  nodup  := hheap ▸ ht.nodup
  mem    := hheap ▸ ht.mem
  place  := hcall ▸ ht.place
  one    := hheap ▸ hcall ▸ ht.one

theorem set (ht : Table t l) {lp : Limbo A} (hn : lp.next = t.next a) (hc : lp.call = t.call a) :
    Table (t.set a lp) l :=
  ht.congr rfl (by rw [Tcppriv.set_next, hn, Function.update_eq_self]) (by rw [Tcppriv.set_call, hc, Function.update_eq_self])
    rfl rfl

omit [DecidableEq A] in
theorem length_le (ht : Table t l) (h : Nat) : (l h).length ≤ t.heap.length :=
  List.Subperm.length_le <| (ht.chains.nodup h).subperm fun a ha => (ht.mem a).mpr ⟨h, ha⟩

omit [DecidableEq A] in
-- A search finds the only structure of a call, or the end of the chain where there is none.
theorem find (ht : Table t l) (c : Call) :
    ∃ m l', l c.hash = m ++ l' ∧ t.find c = some (m.getLast?, l'.head?) ∧ (∀ a ∈ l'.head?, t.call a = c) ∧
      (l' = [] → ∀ a ∈ t.heap, t.call a ≠ c) := by
  have hs : (t.find c).isSome := ht.chains.isSome_search (ht.length_le c.hash) fun _ => rfl
  obtain ⟨⟨a, b⟩, hs⟩ := Option.isSome_iff_exists.mp hs
  obtain ⟨m, l', hl, rfl, rfl, hb, hm⟩ := ht.chains.of_search hs
  refine ⟨m, l', hl, hs, fun a ha => by simpa using hb a ha, fun hnil a ha hc => ?_⟩
  obtain ⟨h, hah⟩ := (ht.mem a).mp ha
  obtain rfl := ht.place h a hah
  rw [hc, hl, hnil, List.append_nil] at hah
  simpa [hc] using hm a hah

theorem set_new (ht : Table t l) (ha : a ∉ t.heap) (lp : Limbo A) : Table (t.set a lp) l := by
  have hne {b : A} (hb : b ∈ t.heap) : b ≠ a := ne_of_mem_of_not_mem hb ha
  have hcall {b : A} (hb : b ∈ t.heap) : (t.set a lp).call b = t.call b := by
    rw [Tcppriv.set_call, Function.update_of_ne (hne hb)]
  constructor
  case chains =>
    refine ht.chains.congr fun h b hb => ?_
    rw [Tcppriv.set_next, Function.update_of_ne (hne <| (ht.mem b).mpr ⟨h, hb⟩)]
  case nlimbo => exact ht.nlimbo
  case nodup  => exact ht.nodup
  case mem    => exact ht.mem
  case place  => exact fun h b hb => hcall ((ht.mem b).mpr ⟨h, hb⟩) ▸ ht.place h b hb
  case one    => exact fun b hb d hd he => ht.one b hb d hd <| hcall hb ▸ hcall hd ▸ he

theorem removed (ht : Table t l) (hl : l h = m ++ a :: l')
    (hlht : t'.lht = if m.getLast? = none then Function.update t.lht h (t.next a) else t.lht)
    (hnext : ∀ b ≠ a, t'.next b = updateAt t.next m.getLast? (t.next a) b) (hcall : ∀ b ≠ a, t'.call b = t.call b)
    (hn : t'.nlimbo = t.nlimbo - 1) (hheap : t'.heap = t.heap.erase a) : Table t' (Function.update l h (m ++ l')) := by
  have ha : a ∈ t.heap := (ht.mem a).mpr ⟨h, hl ▸ List.mem_append_right _ List.mem_cons_self⟩
  have hnot := Fifos.not_mem_of_remove ht.chains hl
  have hsub {b : A} {j : Nat} (hb : b ∈ Function.update l h (m ++ l') j) : b ∈ l j := by
    by_cases hj : j = h
    · subst hj
      rw [Function.update_self] at hb
      exact hl ▸ (List.Sublist.append_left (List.sublist_cons_self ..) _).subset hb
    · rwa [Function.update_of_ne hj] at hb
  have hmem (b : A) : b ∈ t'.heap ↔ b ≠ a ∧ b ∈ t.heap := hheap ▸ ht.nodup.mem_erase_iff
  constructor
  case chains =>
    rw [hlht]
    exact (ht.chains.remove hl).congr fun j b hb => hnext b fun he => hnot j (he ▸ hb)
  case nlimbo =>
    have := List.length_pos_of_mem ha
    rw [hn, hheap, ht.nlimbo, List.length_erase_of_mem ha]
    omega
  case nodup => exact hheap ▸ ht.nodup.erase a
  case mem =>
    intro b
    rw [hmem, ht.mem]
    constructor
    · rintro ⟨hba, j, hb⟩
      exact ⟨j, Fifos.mem_of_not_remove hl hb hba⟩
    · rintro ⟨j, hb⟩
      exact ⟨fun he => hnot j (he ▸ hb), j, hsub hb⟩
  case place =>
    intro j b hb
    rw [hcall b fun he => hnot j (he ▸ hb)]
    exact ht.place j b (hsub hb)
  case one =>
    intro b hb d hd he
    obtain ⟨hba, hb⟩ := (hmem b).mp hb
    obtain ⟨hda, hd⟩ := (hmem d).mp hd
    rw [hcall b hba, hcall d hda] at he
    exact ht.one b hb d hd he

theorem added (ht : Table t l) (ha : a ∉ t.heap) (hnil : t.next a = none) (hnew : ∀ b ∈ t.heap, t.call b ≠ c)
    (hlht : t'.lht = if (l c.hash).getLast? = none then Function.update t.lht c.hash (some a) else t.lht)
    (hnext : t'.next = updateAt t.next (l c.hash).getLast? (some a)) (hcall : t'.call = Function.update t.call a c)
    (hn : t'.nlimbo = t.nlimbo + 1) (hheap : t'.heap.Perm (a :: t.heap)) :
    Table t' (Function.update l c.hash (l c.hash ++ [a])) := by
  have hnot (j : Nat) : a ∉ l j := fun hj => ha <| (ht.mem a).mpr ⟨j, hj⟩
  have hmem (b : A) : b ∈ t'.heap ↔ b = a ∨ b ∈ t.heap := hheap.mem_iff.trans List.mem_cons
  have hpush {b : A} {j : Nat} : b ∈ Function.update l c.hash (l c.hash ++ [a]) j ↔ b ∈ l j ∨ j = c.hash ∧ b = a :=
    Fifos.mem_push
  have hself : t'.call a = c := by rw [hcall, Function.update_self]
  have hother {b : A} (hb : b ∈ t.heap) : t'.call b = t.call b := by
    rw [hcall, Function.update_of_ne (ne_of_mem_of_not_mem hb ha)]
  constructor
  case chains => exact hlht ▸ hnext ▸ ht.chains.append hnot hnil
  case nlimbo => rw [hn, hheap.length_eq, ht.nlimbo, List.length_cons, Int.natCast_succ]
  case nodup => exact hheap.nodup_iff.mpr <| List.nodup_cons.mpr ⟨ha, ht.nodup⟩
  case mem =>
    intro b
    simp only [hmem, ht.mem, hpush, exists_or, exists_eq_left, or_comm]
  case place =>
    intro j b hb
    rcases hpush.mp hb with hb | ⟨rfl, rfl⟩
    · rw [hother <| (ht.mem b).mpr ⟨j, hb⟩]
      exact ht.place j b hb
    · rw [hself]
  case one =>
    intro b hb d hd he
    rcases (hmem b).mp hb with rfl | hb <;> rcases (hmem d).mp hd with rfl | hd
    · rfl
    · exact absurd ((hother hd).symm.trans <| he.symm.trans hself) (hnew d hd)
    · exact absurd ((hother hb).symm.trans <| he.trans hself) (hnew b hb)
    · exact ht.one b hb d hd <| hother hb ▸ hother hd ▸ he

theorem drop (ht : Table t l) (hl : l h = m ++ a :: l') :
    ∃ t', (t.drop h m.getLast? a).free a = some t' ∧ Table t' (Function.update l h (m ++ l')) := by
  have ha : a ∈ t.heap := (ht.mem a).mpr ⟨h, hl ▸ List.mem_append_right _ List.mem_cons_self⟩
  have hheap : (t.drop h m.getLast? a).heap = t.heap := Tcppriv.put_heap ..
  refine ⟨_, if_pos <| hheap ▸ ha, ht.removed hl ?_ (fun b _ => ?_) (fun b _ => ?_) rfl (by rw [hheap])⟩
  · exact Tcppriv.put_lht ..
  · exact congrFun (Tcppriv.put_next ..) b
  · exact congrFun (Tcppriv.put_call ..) b

end Table

end Ip.TcpLimbo
