import Nix.Port.QioRuns

namespace Port.Qio

-- The messages that were queued, and what was read: how much was asked for, and what was returned.
structure Log where
  queued : List (List Byte)
  reads  : List (Nat × List Byte)
deriving DecidableEq

namespace Log

def queue (g : Log) (ms : List (List Byte)) : Log :=
  { g with queued := g.queued ++ ms }

def read (g : Log) (n : Nat) (p : List Byte) : Log :=
  { g with reads := g.reads ++ [(n, p)] }

end Log

-- A queue refuses what is written when it is closed, or is full and does not block, and what is passed when it is full or
-- closed.
def note (s : Stream) (act : Act) (g : Log) : Log :=
  match act with
  | .qwrite p _ => if s.q.closed ∨ s.q.len ≥ s.q.limit ∧ s.q.noblock then g else g.queue [p]
  | .qpass bs   => if s.q.len ≥ s.q.limit ∨ s.q.closed then g else g.queue <| bs.map (·.snd.bytes)
  | .qread n =>
    match s.q.qread n with
    | some (_, .ok p) => g.read n p
    | _ => g
  | .qbread n new =>
    match s.q.qbread n new with
    | some (_, .ok (_, b)) => g.read n b.bytes
    | _ => g
  | _ => g

-- The queue is read and written as messages, and is otherwise left as it is.
def Messages (act : Act) : Prop :=
  match act with
  | .qwrite p _ => p.length ≤ Maxatomic
  | .qpass _ | .qread _ | .qbread _ _ | .qhangup _ | .qreopen | .qsetlimit _ | .qnoblock _ => True
  | _ => False

instance : DecidablePred Messages
  | .qwrite p _ => inferInstanceAs <| Decidable (p.length ≤ Maxatomic)
  | .qpass _ | .qread _ | .qbread _ _ | .qhangup _ | .qreopen | .qsetlimit _ | .qnoblock _ => instDecidableTrue
  | .qget | .qremove | .qdiscard _ | .qconsume _ | .qpassnolim _ | .qaddlist _ | .qproduce _ _ | .pullupqueue _ _
  | .qputback _ _ | .qbwrite _ _ | .qiwrite _ _ | .qflush | .qclose => instDecidableFalse

-- What each read returned is the beginning of one message. The messages were read in the order in which they were queued,
-- and the queue has the rest of them.
def Log.Bounded (g : Log) (q : Queue) : Prop :=
  ∃ taken l, q.Has l ∧ g.queued = taken ++ l.map (·.snd.bytes) ∧ List.Forall₂ (fun x m => x.snd = m.take x.fst) g.reads taken

def logged : Machine (Stream × Log) Act :=
  machine.track Log (fun _ => ⟨[], []⟩) note

namespace Rep

variable {q q' : Queue} {l : List (Addr × Block)}

theorem qread_message (h : Rep true false q l) :
    ∃ q', Rep true false q' l.tail ∧ match l with
      | []          => ∃ e, q.qread n = some (q', .error e)
      | (_, b) :: _ => q.qread n = some (q', .ok <| b.bytes.take n) := by
  rcases h.qwait with ⟨q₁, e, hq, rfl, h₁⟩ | ⟨a, b, t, hq, rfl⟩
  · exact ⟨q₁, h₁, e, by simp [Queue.qread, Queue.first, hq]⟩
  · have hu := h.unlink
    have hmsg : (q.unlink a b).msg = true := hu.msg
    by_cases hlt : n < b.blen
    case pos =>
      refine ⟨((q.unlink a b).freeb a).restart, hu.same rfl, ?_⟩
      simp [Queue.qread, Queue.first, hq, h.get, h.coalesce, Queue.bl2mem, hlt, hmsg]
    case neg =>
      refine ⟨((q.unlink a b).freeb a).restart, hu.same rfl, ?_⟩
      have htake : b.bytes.take n = b.bytes := List.take_of_length_le (by rw [b.length_bytes]; omega)
      simp [Queue.qread, Queue.first, hq, h.get, h.coalesce, Queue.bl2mem, hlt, htake]

theorem qbread_message (n new : Nat) (h : Rep true false q l) :
    ∃ q', Rep true false q' l.tail ∧ match l with
      | []          => ∃ e, q.qbread n new = some (q', .error e)
      | (a, b) :: _ => ∃ b', q.qbread n new = some (q', .ok (a, b')) ∧ b'.bytes = b.bytes.take n := by
  rcases h.qwait with ⟨q₁, e, hq, rfl, h₁⟩ | ⟨a, b, t, hq, rfl⟩
  · exact ⟨q₁, h₁, e, by simp [Queue.qbread, hq]⟩
  · have hu := h.unlink
    refine ⟨(q.unlink a b).restart, hu.same rfl, ?_⟩
    by_cases hle : b.blen ≤ n
    case pos =>
      refine ⟨b, by simp [Queue.qbread, hq, h.get, hle], ?_⟩
      exact (List.take_of_length_le (Nat.le_trans (Nat.le_of_eq b.length_bytes) hle)).symm
    case neg =>
      refine ⟨b.cut n, by simp [Queue.qbread, hq, h.get, hle, h.msg], Block.bytes_cut (by omega)⟩

theorem qwrite_message (h : Rep true c q l) (hp : p.length ≤ Maxatomic) (hs : q.qwrite p as = some (q', r)) :
    ∃ l', Rep true c q' l' ∧ l'.map (·.snd.bytes) =
      l.map (·.snd.bytes) ++ if q.closed ∨ q.len ≥ q.limit ∧ q.noblock then [] else [p] := by
  cases as with
  | nil => contradiction
  | cons a as =>
    have hmin : min p.length Maxatomic = p.length := Nat.min_eq_left hp
    obtain ⟨b, hb, hs⟩ := Option.bind_eq_some_iff.mp hs
    obtain ⟨⟨q₁, w⟩, hq, hs⟩ := Option.bind_eq_some_iff.mp hs
    simp only [hmin, List.take_length, Nat.lt_irrefl, false_and, if_false] at hb hq hs
    obtain rfl : q₁ = q' := by
      cases w <;> exact congrArg Prod.fst (Option.some.inj hs)
    have hcame : Rep true c (q.came a) l := h.same rfl
    rw [Queue.qbwrite] at hq
    split at hq
    case isTrue hclosed =>
      cases hq
      refine ⟨l, hcame.same rfl, ?_⟩
      rw [if_pos (.inl hclosed), List.append_nil]
    case isFalse hopen =>
      split at hq
      case isTrue hfull =>
        cases hq
        refine ⟨l, hcame.same rfl, ?_⟩
        rw [if_pos (.inr hfull), List.append_nil]
      case isFalse hroom =>
        obtain ⟨hf, hbytes⟩ := allocb_fill hb (Nat.le_refl p.length)
        obtain ⟨q₂, hput, h₂⟩ := hcame.put hf
        rw [hput] at hq
        cases hq
        refine ⟨_, h₂.same rfl, ?_⟩
        have hif : ¬(q.closed = true ∨ q.len ≥ q.limit ∧ q.noblock = true) := not_or.mpr ⟨hopen, hroom⟩
        rw [if_neg hif]
        simp [hbytes]

theorem qpass_message (h : Rep true c q l) (hf : q.Fresh bs) (hs : q.qpass bs = some (q', n, p)) :
    ∃ l', Rep true c q' l' ∧ l'.map (·.snd.bytes) =
      l.map (·.snd.bytes) ++ if q.len ≥ q.limit ∨ q.closed then [] else bs.map (·.snd.bytes) := by
  rw [Queue.qpass, Queue.qpassnolim] at hs
  split at hs
  case isTrue hfull =>
    cases hs
    refine ⟨l, h.freebs, ?_⟩
    rw [if_pos (.inl hfull), List.append_nil]
  case isFalse hroom =>
    split at hs
    case isTrue hclosed =>
      obtain ⟨_, -, he⟩ := Option.map_eq_some_iff.mp hs
      cases he
      refine ⟨l, h.freebs, ?_⟩
      rw [if_pos (.inr hclosed), List.append_nil]
    case isFalse hopen =>
      rcases bs with _ | ⟨x, bs⟩
      · contradiction
      · obtain ⟨q₁, hq, h₁⟩ := h.addlist hf (List.cons_ne_nil _ _)
        rw [Queue.pass, hq] at hs
        cases hs
        refine ⟨_, h₁.same rfl, ?_⟩
        have hif : ¬(q.len ≥ q.limit ∨ q.closed = true) := not_or.mpr ⟨hroom, hopen⟩
        rw [if_neg hif, List.map_append]

end Rep

namespace Log

variable {g : Log} {taken : List (List Byte)} {l : List (Addr × Block)}

-- The messages that were read, and those that the queue has.
structure Splits (g : Log) (taken : List (List Byte)) (l : List (Addr × Block)) : Prop where
  queued : g.queued = taken ++ l.map (·.snd.bytes)
  reads  : List.Forall₂ (fun (x : Nat × List Byte) (m : List Byte) => x.snd = m.take x.fst) g.reads taken

theorem Splits.read (h : g.Splits taken ((a, b) :: l)) (hp : p = b.bytes.take n) :
    (g.read n p).Splits (taken ++ [b.bytes]) l where
  queued := by simp [Log.read, h.queued]
  reads  := List.rel_append (R := fun (x : Nat × List Byte) (m : List Byte) => x.snd = m.take x.fst) h.reads <| .cons hp .nil

theorem Splits.queue (h : g.Splits taken l) (hl : l'.map (·.snd.bytes) = l.map (·.snd.bytes) ++ ms) :
    (g.queue ms).Splits taken l' where
  queued := by simp [Log.queue, h.queued, hl]
  reads  := h.reads

theorem Splits.same (h : g.Splits taken l) (hl : l'.map (·.snd.bytes) = l.map (·.snd.bytes)) : g.Splits taken l' where
  queued := hl ▸ h.queued
  reads  := h.reads

end Log

-- What a step does to a queue of messages, and to the log.
def Logged (s' : Stream) (g' : Log) : Prop :=
  ∃ taken l, Rep true false s'.q l ∧ g'.Splits taken l

theorem message_step {s s' : Stream} {g : Log} (h : Rep true false s.q l) (hg : g.Splits taken l) (hc : Messages act)
    (hs : Qio.step s act = some s') : Logged s' (note s act g) := by
  cases act
  case qwrite p new =>
    obtain ⟨⟨q', r⟩, hq, rfl⟩ := Option.map_eq_some_iff.mp hs
    obtain ⟨l', h', hl⟩ := h.qwrite_message hc hq
    refine ⟨taken, l', h', ?_⟩
    rw [note]
    split
    case isTrue hno => exact hg.same (by rw [hl, if_pos hno, List.append_nil])
    case isFalse hyes => exact hg.queue (by rw [hl, if_neg hyes])
  case qpass bs =>
    obtain ⟨hf, hs⟩ := Option.ite_none_right_eq_some.mp hs
    obtain ⟨⟨q', n, p⟩, hq, rfl⟩ := Option.map_eq_some_iff.mp hs
    obtain ⟨l', h', hl⟩ := h.arrived.qpass_message (Rep.arrived_fresh hf) hq
    refine ⟨taken, l', h', ?_⟩
    rw [Queue.arrived_eq] at hl
    rw [note]
    split
    case isTrue hno => exact hg.same (by rw [hl, if_pos hno, List.append_nil])
    case isFalse hyes => exact hg.queue (by rw [hl, if_neg hyes])
  case qread n =>
    obtain ⟨q', h', hr⟩ := h.qread_message (n := n)
    rcases l with _ | ⟨⟨a, b⟩, l⟩
    case nil =>
      obtain ⟨e, hr⟩ := hr
      rw [Qio.step, hr] at hs
      cases hs
      exact ⟨taken, [], h', by rw [note, hr]; exact hg⟩
    case cons =>
      rw [Qio.step, hr] at hs
      cases hs
      exact ⟨_, l, h', by rw [note, hr]; exact hg.read rfl⟩
  case qbread n new =>
    obtain ⟨q', h', hr⟩ := h.qbread_message n new
    rcases l with _ | ⟨⟨a, b⟩, l⟩
    case nil =>
      obtain ⟨e, hr⟩ := hr
      rw [Qio.step, hr] at hs
      cases hs
      exact ⟨taken, [], h', by rw [note, hr]; exact hg⟩
    case cons =>
      obtain ⟨b', hr, hb⟩ := hr
      rw [Qio.step, hr] at hs
      cases hs
      exact ⟨_, l, h'.same rfl, by rw [note, hr]; exact hg.read hb⟩
  case qhangup | qreopen | qsetlimit | qnoblock =>
    obtain rfl := Option.some.inj hs
    exact ⟨taken, l, h.same rfl, hg⟩
  all_goals exact hc.elim

theorem message_invariant : logged.Invariant (fun _ act => Messages act) fun s =>
    ∃ m c l, Rep m c s.fst.q l ∧ (m = true → c = false → Logged s.fst s.snd) where
  init := fun ⟨⟨limit, msg, coalesce, hs⟩, hg⟩ =>
    ⟨msg, coalesce, [], hs ▸ Rep.opened limit msg coalesce, fun hm hc =>
      ⟨[], [], hs ▸ hm ▸ hc ▸ Rep.opened limit msg coalesce, hg ▸ ⟨rfl, .nil⟩⟩⟩
  step := fun {s act s'} ⟨m, c, l, h, hk⟩ hc hs => by
    have ⟨hstep, hnote⟩ := Machine.track_step_eq.mp hs
    have hl : Levels s.fst act := by
      cases act
      case pullupqueue => exact hc.elim
      all_goals trivial
    obtain ⟨l', h', -⟩ := h.step hl hstep
    refine ⟨m, c, l', h', fun hm hco => ?_⟩
    obtain ⟨taken, k, hr, hg⟩ := hk hm hco
    rw [hnote]
    exact message_step hr hg hc hstep

-- In a queue that keeps messages and does not coalesce them, a read returns the beginning of the message that was queued
-- first, and the rest of that message is not read.
theorem message_boundaries (hr : logged.Reachable (fun _ act => Messages act) s) (hm : s.fst.q.msg = true)
    (hc : s.fst.q.coalesce = false) : s.snd.Bounded s.fst.q := by
  obtain ⟨m, c, l, h, hk⟩ := message_invariant.holds hr
  obtain ⟨taken, k, h', hg⟩ := hk (h.msg.symm.trans hm) (h.coalesce.symm.trans hc)
  exact ⟨taken, k, h'.has, hg.queued, hg.reads⟩

-- A queue that was just opened.
def opened (coalesce : Bool) : Stream × Log where
  fst := { q := qopen 1000 true coalesce, accepted := [], delivered := [] }
  snd := ⟨[], []⟩

theorem opened_init : logged.init (opened c) :=
  ⟨⟨1000, true, c, rfl⟩, rfl⟩

-- Two messages are queued, and one read follows.
def letters (n : Nat) : List Act :=
  [.qwrite [1, 2, 3] [1000], .qwrite [4, 5] [2000], .qread n]

-- The beginning of the first message is read.
def parted : Stream × Log :=
  ((logged.guarded fun _ act => Messages act).exec (opened false) (letters 2)).get (by decide +kernel)

theorem message_boundaries_parted :
    parted.snd = ⟨[[1, 2, 3], [4, 5]], [(2, [1, 2])]⟩ ∧ parted.snd.Bounded parted.fst.q :=
  ⟨by decide +kernel,
    message_boundaries ((Machine.Reachable.init opened_init).guarded (Option.some_get _).symm) (by decide +kernel) (by decide +kernel)⟩

-- Where the queue coalesces messages, one read returns both of them.
def merged : Stream × Log :=
  ((logged.guarded fun _ act => Messages act).exec (opened true) (letters 5)).get (by decide +kernel)

theorem merged_messages :
    ∃ s, logged.Reachable (fun _ act => Messages act) s ∧ s.fst.q.msg = true ∧ ¬s.snd.Bounded s.fst.q := by
  refine ⟨merged, (Machine.Reachable.init opened_init).guarded (Option.some_get _).symm, by decide +kernel, ?_⟩
  have hlog : merged.snd = ⟨[[1, 2, 3], [4, 5]], [(5, [1, 2, 3, 4, 5])]⟩ := by decide +kernel
  rintro ⟨taken, l, -, hqueued, hreads⟩
  rw [hlog] at hqueued hreads
  obtain ⟨m, ms, hm, hnil, rfl⟩ := List.forall₂_cons_left_iff.mp hreads
  obtain rfl : [1, 2, 3] = m := (List.cons.inj hqueued).left
  exact absurd hm (by decide)

end Port.Qio
