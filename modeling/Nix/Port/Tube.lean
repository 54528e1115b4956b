import Nix.Lib.Words
import Nix.Lib.Machine
import Nix.Lib.Parties

-- Tubes carry messages from senders to receivers in an array of slots. A slot has a byte that tells if
-- there is a message, and the message. Two semaphores count the holes and the messages.
namespace Port

structure Tube where
  msz : Nat
  tsz : Nat
  pos : 0 < tsz

namespace Tube

abbrev Byte := UInt8
abbrev Msg := List Byte

inductive Nb
  | block
  | dontblock
  -- `altsems` has got the ticket
  | already
  deriving DecidableEq

-- Where a process is in `xsend` or `xrecv`: at a semaphore, at a counter, or at the slot `n` of its turn.
inductive Pc
  | idle
  | nhole (p : Msg) (nb : Nb)
  | tl (p : Msg)
  | write (p : Msg) (turn : Nat) (n : Int) (i : Nat)
  | upmsg
  | nmsg (nb : Nb)
  | hd
  | spin (turn : Nat) (n : Int)
  | read (turn : Nat) (n : Int) (p : Msg)
  | uphole
  deriving DecidableEq

structure State (P : Type*) where
  nhole : Nat
  nmsg  : Nat
  hd    : Int
  tl    : Int
  -- the slots
  full  : Int → Bool
  data  : Int → Nat → Byte
  pc    : P → Pc
  -- who took the turns, and with what messages, and what was received in which turn
  sent   : List (P × Msg)
  takers : List P
  got    : List (Nat × Msg)

inductive Act (P : Type*)
  | xsend (p : P) (m : Msg) (nb : Nb)
  | xrecv (p : P) (nb : Nb)
  -- the next step of a call
  | run (p : P)

variable {P : Type*} [DecidableEq P] (t : Tube)

-- The slot for the value that `ainc` returns.
def slot (n : Int) : Int :=
  (int32 (n - 1)).tmod t.tsz

namespace State

variable (s : State P) (p : P)

def goto (c : Pc) : State P :=
  { s with pc := Function.update s.pc p c }

def takehole (m : Msg) : Option (State P) :=
  if 0 < s.nhole then some <| { s with nhole := s.nhole - 1 }.goto p (.tl m) else none

def takemsg : Option (State P) :=
  if 0 < s.nmsg then some <| { s with nmsg := s.nmsg - 1 }.goto p .hd else none

def run : Option (State P) :=
  match s.pc p with
  | .idle => none
  | .nhole m nb => s.takehole p m <|> if nb = .dontblock then some <| s.goto p .idle else none
  | .tl m =>
    let n := int32 (s.tl + 1)
    some <| { s with tl := n, sent := s.sent ++ [(p, m)] }.goto p (.write m s.sent.length (t.slot n) 0)
  | .write m turn n i =>
    match m[i]? with
    | some b =>
      some <| { s with data := Function.update s.data n (Function.update (s.data n) i b) }.goto p (.write m turn n (i + 1))
    | none => some <| { s with full := Function.update s.full n true }.goto p .upmsg
  | .upmsg => some <| { s with nmsg := s.nmsg + 1 }.goto p .idle
  | .nmsg nb => s.takemsg p <|> if nb = .dontblock then some <| s.goto p .idle else none
  | .hd =>
    let n := int32 (s.hd + 1)
    some <| { s with hd := n, takers := s.takers ++ [p] }.goto p (.spin s.takers.length (t.slot n))
  | .spin turn n => if s.full n then some <| s.goto p (.read turn n []) else none
  | .read turn n m =>
    if m.length < t.msz then some <| s.goto p (.read turn n (m ++ [s.data n m.length]))
    else some <| { s with full := Function.update s.full n false, got := s.got ++ [(turn, m)] }.goto p .uphole
  | .uphole => some <| { s with nhole := s.nhole + 1 }.goto p .idle

end State

def step (s : State P) : Act P → Option (State P)
  | .xsend p m nb =>
    if s.pc p = .idle ∧ m.length = t.msz then
      if nb = .already then s.takehole p m else some <| s.goto p (.nhole m nb)
    else none
  | .xrecv p nb =>
    if s.pc p = .idle then
      if nb = .already then s.takemsg p else some <| s.goto p (.nmsg nb)
    else none
  | .run p => s.run t p

-- `newtube`.
structure Created (s : State P) : Prop where
  nhole  : s.nhole = t.tsz
  nmsg   : s.nmsg = 0
  hd     : s.hd = 0
  tl     : s.tl = 0
  full   : ∀ n, s.full n = false
  pc     : ∀ p, s.pc p = .idle
  sent   : s.sent = []
  takers : s.takers = []
  got    : s.got = []

def machine : Machine (State P) (Act P) where
  init := Created t
  step := step t

end Tube

end Port

namespace Port.Tube

variable {P : Type*} (t : Tube)

-- The counters did not wrap, or it does not matter.
def InRange (n : Nat) : Prop :=
  n < 2 ^ 31 ∨ t.tsz = 1

-- A sender takes a turn only if the message that was in its slot before has been received.
def Free (s : State P) : Act P → Prop
  | .run p =>
    match s.pc p with
    | .tl _ => (t.tsz ≤ s.sent.length → s.sent.length - t.tsz ∈ s.got.map Prod.fst) ∧ t.InRange s.sent.length
    | .hd   => t.InRange s.takers.length
    | _     => True
  | _ => True

namespace Pc

-- A ticket for a message was taken and no turn yet, or a message that has a turn was not announced yet.
def pending : Pc → Int
  | .write .. | .upmsg | .hd => 1
  | _ => 0

-- The turn in which a process receives.
def taking : Pc → Option Nat
  | .spin n _ | .read n .. => some n
  | _ => none

def receiving (c : Pc) : Int :=
  if c.taking.isSome then 1 else 0

def Writing : Pc → Prop
  | .write .. => True
  | _ => False

-- What is known of a process.
def Valid (s : State P) (p : P) : Pc → Prop
  | .nhole m _ | .tl m => m.length = t.msz
  | .write m n i k =>
    s.sent[n]? = some (p, m) ∧ i = (n % t.tsz : Nat) ∧ n ∉ s.got.map Prod.fst ∧ s.full i = false ∧
      ∀ j < k, m[j]? = some (s.data i j)
  | .spin n i => s.takers[n]? = some p ∧ i = (n % t.tsz : Nat) ∧ n ∉ s.got.map Prod.fst
  | .read n i m =>
    s.takers[n]? = some p ∧ i = (n % t.tsz : Nat) ∧ n ∉ s.got.map Prod.fst ∧ s.full i = true ∧
      ∃ p' m', s.sent[n]? = some (p', m') ∧ m = m'.take m.length
  | _ => True

end Pc

variable [Fintype P]

structure Inv (s : State P) : Prop where
  tl      : s.tl = int32 s.sent.length
  hd      : s.hd = int32 s.takers.length
  valid   : ∀ p, (s.pc p).Valid t s p
  sizes   : ∀ x ∈ s.sent, x.snd.length = t.msz
  freed   : ∀ n, n + t.tsz < s.sent.length → n ∈ s.got.map Prod.fst
  written : ∀ n p m, s.sent[n]? = some (p, m) → n ∉ s.got.map Prod.fst →
    (∃ k, s.pc p = .write m n (n % t.tsz : Nat) k) ∨
      s.full (n % t.tsz : Nat) = true ∧ ∀ j < m.length, m[j]? = some (s.data (n % t.tsz : Nat) j)
  empty   : ∀ i : Nat, (∀ n < s.sent.length, n % t.tsz = i → n ∈ s.got.map Prod.fst) → s.full i = false
  got     : ∀ x ∈ s.got, ∃ p, s.sent[x.fst]? = some (p, x.snd)
  taken   : ∀ x ∈ s.got, x.fst < s.takers.length
  nodup   : (s.got.map Prod.fst).Nodup
  tickets : (s.takers.length : Int) + s.nmsg + tally Pc.pending s.pc = s.sent.length
  served  : (s.takers.length : Int) = s.got.length + tally Pc.receiving s.pc
  inorder : ∀ r, (∀ p ∈ s.takers, p = r) →
    s.got.map Prod.fst = List.range s.got.length ∧
      s.takers.length = s.got.length + (if (s.pc r).taking.isSome then 1 else 0) ∧
      ∀ n, (s.pc r).taking = some n → n = s.got.length

namespace Inv

variable {t} {s s' : State P}

theorem unique_slot (h : Inv t s) (hn : n < s.sent.length) (hn' : n' < s.sent.length)
    (hg : n ∉ s.got.map Prod.fst) (hg' : n' ∉ s.got.map Prod.fst) (he : n % t.tsz = n' % t.tsz) : n = n' := by
  have hle {a b : Nat} (hlt : a < b) (hb : b < s.sent.length) (ha : a ∉ s.got.map Prod.fst) (he : a % t.tsz = b % t.tsz) : False := by
    refine ha <| h.freed a ?_
    have hdvd := Nat.dvd_of_mod_eq_zero <| Nat.sub_mod_eq_zero_of_mod_eq he.symm
    have := Nat.le_of_dvd (by omega) hdvd
    omega
  rcases Nat.lt_trichotomy n n' with hlt | heq | hgt
  · exact (hle hlt hn' hg he).elim
  · exact heq
  · exact (hle hgt hn hg' he.symm).elim

theorem takers_le (h : Inv t s) : s.takers.length ≤ s.sent.length := by
  have hp : 0 ≤ tally Pc.pending s.pc := tally_nonneg (fun c => by cases c <;> simp [Pc.pending]) _
  have := h.tickets
  omega

theorem slot_eq (hn : t.InRange n) : t.slot (int32 (int32 n + 1)) = (n % t.tsz : Nat) := by
  have heq : int32 (int32 (int32 n + 1) - 1) = int32 n := by
    rw [int32_add, int32_sub]
    congr 1
    omega
  rw [slot, heq]
  rcases hn with hlt | hone
  · rw [int32_eq_self hlt]
    exact (Int.ofNat_tmod ..).symm
  · rw [hone]
    simp [Nat.mod_one]

omit [Fintype P] in
theorem valid_same {c : Pc} (h : c.Valid t s p) (hs : s'.sent = s.sent) (ht : s'.takers = s.takers)
    (hg : s'.got = s.got) (hf : s'.full = s.full) (hd : s'.data = s.data) :
    c.Valid t s' p := by
  cases c <;> simp only [Pc.Valid, hs, ht, hg, hf, hd] at h ⊢ <;> exact h

variable [DecidableEq P]

omit [Fintype P] in
theorem taking_update {c c₀ : Pc} (hold : s.pc p = c₀) (hc : c.taking = c₀.taking) :
    (Function.update s.pc p c r).taking = (s.pc r).taking := by
  by_cases hp : r = p
  case pos => rw [hp, Function.update_self, hc, hold]
  case neg => rw [Function.update_of_ne hp]

theorem served_update {c c₀ : Pc} (h : Inv t s) (hold : s.pc p = c₀) (hc : c.taking = c₀.taking) :
    (s.takers.length : Int) = s.got.length + tally Pc.receiving (Function.update s.pc p c) := by
  rw [tally_update, hold, Pc.receiving, Pc.receiving, hc, h.served]
  omega

-- A step that leaves the slots, the turns and what was received as they are.
theorem move {c c₀ : Pc} (h : Inv t s) (hold : s.pc p = c₀) (hw : ¬c₀.Writing) (htk : c.taking = c₀.taking)
    (hv : c.Valid t s p) (hpend : (s'.nmsg : Int) + c.pending = s.nmsg + c₀.pending)
    (hs : s' = { s with pc := Function.update s.pc p c, nhole := s'.nhole, nmsg := s'.nmsg }) : Inv t s' := by
  have hpc p' (hp : p' ≠ p) : s'.pc p' = s.pc p' := by rw [hs]; exact Function.update_of_ne hp ..
  have hself : s'.pc p = c := by rw [hs]; exact Function.update_self ..
  have hsame : s'.sent = s.sent ∧ s'.takers = s.takers ∧ s'.got = s.got ∧ s'.full = s.full ∧ s'.data = s.data := by
    rw [hs]; exact ⟨rfl, rfl, rfl, rfl, rfl⟩
  obtain ⟨hsent, htakers, hgot, hfull, hdata⟩ := hsame
  refine ⟨?htl, ?hhd, fun p' => ?valid, hsent ▸ h.sizes, hsent ▸ hgot ▸ h.freed, fun n p' m hn hg => ?written,
    hsent ▸ hgot ▸ hfull ▸ h.empty, hsent ▸ hgot ▸ h.got, htakers ▸ hgot ▸ h.taken, hgot ▸ h.nodup, ?tickets, ?served, fun r hr => ?inorder⟩
  case htl => rw [hsent, ← h.tl, hs]
  case hhd => rw [htakers, ← h.hd, hs]
  case valid =>
    by_cases hp : p' = p
    case pos => exact hp ▸ hself ▸ valid_same hv hsent htakers hgot hfull hdata
    case neg => exact hpc p' hp ▸ valid_same (h.valid p') hsent htakers hgot hfull hdata
  case written =>
    rw [hfull, hdata]
    refine (h.written n p' m (hsent ▸ hn) (hgot ▸ hg)).imp_left fun ⟨k, hk⟩ => ⟨k, ?_⟩
    have hp : p' ≠ p := fun hp => by
      rw [hp, hold] at hk
      exact hw (hk ▸ trivial)
    rw [hpc p' hp, hk]
  case tickets =>
    have htally : tally Pc.pending s'.pc = tally Pc.pending s.pc - c₀.pending + c.pending := by
      rw [hs, ← hold]
      exact tally_update ..
    have := h.tickets
    rw [htakers, hsent]
    omega
  case served =>
    rw [htakers, hgot, hs]
    exact h.served_update hold htk
  case inorder =>
    have ho := h.inorder r (htakers ▸ hr)
    have htr : (s'.pc r).taking = (s.pc r).taking := by
      rw [hs]
      exact taking_update hold htk
    rwa [hgot, htakers, htr]

theorem send (h : Inv t s) (hpc : s.pc p = .tl m)
    (hfree : t.tsz ≤ s.sent.length → s.sent.length - t.tsz ∈ s.got.map Prod.fst) (hr : t.InRange s.sent.length) :
    Inv t ({ s with tl := int32 (s.tl + 1), sent := s.sent ++ [(p, m)] }.goto p
      (.write m s.sent.length (t.slot (int32 (s.tl + 1))) 0)) := by
  have hlen : m.length = t.msz := by
    have := h.valid p
    rwa [hpc] at this
  have hnew : s.sent.length ∉ s.got.map Prod.fst := by
    intro hg
    obtain ⟨x, hx, he⟩ := List.mem_map.mp hg
    obtain ⟨q, hq⟩ := h.got x hx
    have := (List.getElem?_eq_some_iff.mp hq).choose
    omega
  have hget {n : Nat} {x : P × Msg} (hn : s.sent[n]? = some x) : (s.sent ++ [(p, m)])[n]? = some x := by
    rw [List.getElem?_append_left (List.getElem?_eq_some_iff.mp hn).choose, hn]
  have hslot : t.slot (int32 (s.tl + 1)) = (s.sent.length % t.tsz : Nat) := by rw [h.tl, slot_eq hr]
  have hempty : s.full (s.sent.length % t.tsz : Nat) = false := by
    refine h.empty _ fun n hn he => ?_
    have hle : n + t.tsz ≤ s.sent.length := by
      have hdvd := Nat.dvd_of_mod_eq_zero <| Nat.sub_mod_eq_zero_of_mod_eq he.symm
      have := Nat.le_of_dvd (by omega) hdvd
      omega
    rcases Nat.lt_or_eq_of_le hle with hlt | heq
    · exact h.freed n hlt
    · have := hfree (by omega)
      rwa [← heq, Nat.add_sub_cancel] at this
  refine ⟨?htl, h.hd, fun p' => ?valid, fun x hx => ?sizes, fun n hn => ?freed, fun n p' m' hn hg => ?written,
    fun i hi => ?empty, fun x hx => ?got, h.taken, h.nodup, ?tickets, h.served_update hpc rfl, fun r hr => ?inorder⟩
  case htl =>
    change int32 (s.tl + 1) = int32 _
    rw [h.tl, int32_add, State.goto, List.length_append]
    rfl
  case valid =>
    by_cases hp : p' = p
    case pos =>
      have hself : Pc.Valid t s p (.tl m) := hlen
      rw [hp, State.goto]
      simp only [Function.update_self, Pc.Valid]
      exact ⟨by simp, hslot, hnew, hslot ▸ hempty, fun _ hj => nomatch hj⟩
    case neg =>
      have hv := h.valid p'
      simp only [State.goto, Function.update_of_ne hp]
      cases hc : s.pc p' <;> rw [hc] at hv <;> simp only [Pc.Valid] at hv ⊢ <;> try exact hv
      case write => exact ⟨hget hv.left, hv.right⟩
      case read =>
        obtain ⟨htk, hi, hg, hf, q, m', hq, he⟩ := hv
        exact ⟨htk, hi, hg, hf, q, m', hget hq, he⟩
  case sizes =>
    rcases List.mem_append.mp hx with hx | hx
    · exact h.sizes x hx
    · exact List.mem_singleton.mp hx ▸ hlen
  case freed =>
    change n + t.tsz < (s.sent ++ [(p, m)]).length at hn
    rw [List.length_append, List.length_singleton] at hn
    rcases Nat.lt_or_eq_of_le (Nat.le_of_lt_succ hn) with hlt | heq
    · exact h.freed n hlt
    · have := hfree (by omega)
      rwa [← heq, Nat.add_sub_cancel] at this
  case written =>
    change (s.sent ++ [(p, m)])[n]? = some (p', m') at hn
    by_cases hlt : n < s.sent.length
    case pos =>
      rw [List.getElem?_append_left hlt] at hn
      refine (h.written n p' m' hn hg).imp_left fun ⟨k, hk⟩ => ⟨k, ?_⟩
      have hp : p' ≠ p := fun hp => by rw [hp, hpc] at hk; contradiction
      rw [State.goto, ← hk]
      exact Function.update_of_ne hp ..
    case neg =>
      rw [List.getElem?_append_right (by omega)] at hn
      obtain ⟨hz, he⟩ := List.getElem?_eq_some_iff.mp hn
      have heq : n = s.sent.length := by
        rw [List.length_singleton] at hz
        omega
      subst heq
      simp only [Nat.sub_self, List.getElem_cons_zero] at he
      cases he
      exact .inl ⟨0, by simp [State.goto, hslot]⟩
  case empty =>
    refine h.empty i fun n hn he => hi n ?_ he
    change n < (s.sent ++ [(p, m)]).length
    rw [List.length_append]
    omega
  case got =>
    obtain ⟨q, hq⟩ := h.got x hx
    exact ⟨q, hget hq⟩
  case tickets =>
    have := h.tickets
    have htally := tally_update Pc.pending s.pc p (.write m s.sent.length (t.slot (int32 (s.tl + 1))) 0)
    rw [hpc] at htally
    simp only [State.goto, htally, Pc.pending, List.length_append, List.length_singleton]
    omega
  case inorder =>
    have ho := h.inorder r hr
    have htr := taking_update (c := .write m s.sent.length (t.slot (int32 (s.tl + 1))) 0) (r := r) hpc rfl
    rw [← htr] at ho
    exact ho

omit [DecidableEq P] in
theorem slot_ne (h : Inv t s) (hn : s.sent[n]? = some (p, m)) (hn' : s.sent[n']? = some (p', m'))
    (hg : n ∉ s.got.map Prod.fst) (hg' : n' ∉ s.got.map Prod.fst) (hne : n' ≠ n ∨ p' ≠ p) :
    ((n' % t.tsz : Nat) : Int) ≠ (n % t.tsz : Nat) := by
  intro he
  have heq := h.unique_slot (List.getElem?_eq_some_iff.mp hn').choose (List.getElem?_eq_some_iff.mp hn).choose hg' hg (Int.ofNat.inj he)
  subst heq
  have hx := Option.some.inj (hn'.symm.trans hn)
  exact hne.elim (fun hne => hne rfl) fun hne => hne (congrArg Prod.fst hx)

theorem write (h : Inv t s) (hpc : s.pc p = .write m n i k) (hb : m[k]? = some b) :
    Inv t ({ s with data := Function.update s.data i (Function.update (s.data i) k b) }.goto p (.write m n i (k + 1))) := by
  have ⟨hn, hi, hg, hf, hdata⟩ : Pc.Valid t s p (.write m n i k) := hpc ▸ h.valid p
  refine ⟨h.tl, h.hd, fun p' => ?valid, h.sizes, h.freed, fun n' p' m' hn' hg' => ?written, h.empty, h.got, h.taken,
    h.nodup, ?tickets, h.served_update hpc rfl, fun r hr => ?inorder⟩
  case valid =>
    by_cases hp : p' = p
    case pos =>
      rw [hp]
      simp only [State.goto, Function.update_self, Pc.Valid]
      refine ⟨hn, hi, hg, hf, fun j hj => ?_⟩
      by_cases hjk : j = k
      case pos => rw [hjk, Function.update_self, hb]
      case neg => rw [Function.update_of_ne hjk, hdata j (by omega)]
    case neg =>
      have hv := h.valid p'
      simp only [State.goto, Function.update_of_ne hp]
      cases hc : s.pc p' <;> rw [hc] at hv <;> simp only [Pc.Valid] at hv ⊢ <;> try exact hv
      case write m' n' i' k' =>
        obtain ⟨hn', rfl, hg', hf', hdata'⟩ := hv
        have hne : ((n' % t.tsz : Nat) : Int) ≠ i := hi ▸ h.slot_ne hn hn' hg hg' (.inr hp)
        exact ⟨hn', rfl, hg', hf', by rwa [Function.update_of_ne hne]⟩
  case written =>
    by_cases hne : n' = n
    case pos =>
      subst hne
      cases Option.some.inj (hn'.symm.trans hn)
      exact .inl ⟨k + 1, by simp [State.goto, hi]⟩
    case neg =>
      have hslot : ((n' % t.tsz : Nat) : Int) ≠ i := hi ▸ h.slot_ne hn hn' hg hg' (.inl hne)
      rcases h.written n' p' m' hn' hg' with ⟨k', hk'⟩ | hw
      · have hp : p' ≠ p := fun hp => by
          rw [hp, hpc] at hk'
          cases hk'
          exact hne rfl
        exact .inl ⟨k', by rw [State.goto, ← hk']; exact Function.update_of_ne hp ..⟩
      · refine .inr ?_
        simp only [State.goto, Function.update_of_ne hslot]
        exact hw
  case tickets =>
    have := h.tickets
    have htally := tally_update Pc.pending s.pc p (.write m n i (k + 1))
    rw [hpc] at htally
    simp only [State.goto, htally, Pc.pending]
    omega
  case inorder =>
    have ho := h.inorder r hr
    have htr := taking_update (c := .write m n i (k + 1)) (r := r) hpc rfl
    rw [← htr] at ho
    exact ho

theorem mark (h : Inv t s) (hpc : s.pc p = .write m n i k) (hb : m[k]? = none) :
    Inv t ({ s with full := Function.update s.full i true }.goto p .upmsg) := by
  have ⟨hn, hi, hg, hf, hdata⟩ : Pc.Valid t s p (.write m n i k) := hpc ▸ h.valid p
  have hfull j (hj : s.full j = true) : Function.update s.full i true j = true := by
    by_cases hij : j = i
    · rw [hij, Function.update_self]
    · rw [Function.update_of_ne hij, hj]
  refine ⟨h.tl, h.hd, fun p' => ?valid, h.sizes, h.freed, fun n' p' m' hn' hg' => ?written, fun j hj => ?empty, h.got,
    h.taken, h.nodup, ?tickets, h.served_update hpc rfl, fun r hr => ?inorder⟩
  case valid =>
    by_cases hp : p' = p
    case pos =>
      rw [hp]
      simp only [State.goto, Function.update_self, Pc.Valid]
    case neg =>
      have hv := h.valid p'
      simp only [State.goto, Function.update_of_ne hp]
      cases hc : s.pc p' <;> rw [hc] at hv <;> simp only [Pc.Valid] at hv ⊢ <;> try exact hv
      case write m' n' i' k' =>
        obtain ⟨hn', rfl, hg', hf', hdata'⟩ := hv
        have hne : ((n' % t.tsz : Nat) : Int) ≠ i := hi ▸ h.slot_ne hn hn' hg hg' (.inr hp)
        exact ⟨hn', rfl, hg', by rwa [Function.update_of_ne hne], hdata'⟩
      case read => exact ⟨hv.left, hv.right.left, hv.right.right.left, hfull _ hv.right.right.right.left, hv.right.right.right.right⟩
  case written =>
    by_cases hne : n' = n
    case pos =>
      subst hne
      cases Option.some.inj (hn'.symm.trans hn)
      refine .inr ⟨by rw [← hi]; exact Function.update_self .., fun j hj => hi ▸ hdata j ?_⟩
      have := List.getElem?_eq_none_iff.mp hb
      omega
    case neg =>
      rcases h.written n' p' m' hn' hg' with ⟨k', hk'⟩ | hw
      · have hp : p' ≠ p := fun hp => by
          rw [hp, hpc] at hk'
          cases hk'
          exact hne rfl
        exact .inl ⟨k', by rw [State.goto, ← hk']; exact Function.update_of_ne hp ..⟩
      · exact .inr ⟨hfull _ hw.left, hw.right⟩
  case empty =>
    have hij : (j : Int) ≠ i := by
      intro hij
      have hmod : n % t.tsz = j := (Int.ofNat.inj (hij.trans hi)).symm
      exact hg <| hj n (List.getElem?_eq_some_iff.mp hn).choose hmod
    rw [State.goto]
    exact (Function.update_of_ne hij ..).trans (h.empty j hj)
  case tickets =>
    have := h.tickets
    have htally := tally_update Pc.pending s.pc p .upmsg
    rw [hpc] at htally
    simp only [State.goto, htally, Pc.pending]
    omega
  case inorder =>
    have ho := h.inorder r hr
    have htr := taking_update (c := .upmsg) (r := r) hpc rfl
    rw [← htr] at ho
    exact ho

end Inv

end Port.Tube
