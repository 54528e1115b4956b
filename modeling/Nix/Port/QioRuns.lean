import Nix.Port.QioStep

namespace Port.Qio

-- The blocks that are empty after `n` bytes were moved out of a list.
def emptied (n : Nat) : List (Addr × Block) → List (Addr × Block)
  | [] => []
  | (a, b) :: l => if n < b.blen then [] else (a, b) :: if n = b.blen then [] else emptied (n - b.blen) l

-- The first block has the bytes. Or the others have what is missing, and the space of those that are
-- emptied is that of the block that is allocated, if there is one.
def Even (n : Nat) (new : Addr) : List (Addr × Block) → Prop
  | [] => False
  | (a, b) :: l =>
    n ≤ b.blen ∨
      n ≤ b.blen + blocklen l ∧
        if b.lim - b.rp < n then blockalloclen (emptied n ((a, b) :: l)) = (Block.allocb new n).balloc
        else blockalloclen (emptied (n - b.blen) l) = 0

namespace Rep

variable {q q' : Queue} {l : List (Addr × Block)}

theorem pullup (h : Chained q ((a, b) :: l)) (hn : 0 < n) (hroom : b.wp + n ≤ b.lim) (hlen : n ≤ blocklen l)
    (hfuel : l.length ≤ fuel) :
    ∃ q' l' b', Queue.pullup fuel q a n = some (q', some a) ∧ Chained q' ((a, b') :: l') ∧
      q' = { q with blk := q'.blk, next := q'.next, live := q'.live, trace := q'.trace } ∧
      bytes ((a, b') :: l') = bytes ((a, b) :: l) ∧
      blockalloclen ((a, b') :: l') + blockalloclen (emptied n l) = blockalloclen ((a, b) :: l) ∧
      b'.blen = b.blen + n := by
  induction fuel generalizing q b l n with
  | zero =>
    obtain rfl := List.length_eq_zero_iff.mp <| Nat.le_zero.mp hfuel
    exact absurd hlen (Nat.not_le.mpr hn)
  | succ fuel ih =>
    rcases l with _ | ⟨⟨c, d⟩, l⟩
    · exact absurd hlen (Nat.not_le.mpr hn)
    have hok : b.Ok := (h.blks (a, b) List.mem_cons_self).right
    have hokd : d.Ok := (h.blks (c, d) <| List.mem_cons_of_mem _ List.mem_cons_self).right
    have hnext : q.next a = some c := h.links.left
    have hblen (p : List Byte) : (b.fill p).blen = b.blen + p.length := by
      simp only [Block.Ok, Block.fill, Block.blen] at *
      omega
    rw [blocklen_cons] at hlen
    rw [Queue.pullup, h.get List.mem_cons_self, hnext]
    simp only [Option.bind_eq_bind, Option.bind_some, h.get (List.mem_cons_of_mem _ List.mem_cons_self)]
    split
    case isTrue hlt =>
      have htake : (d.bytes.take n).length = n := by
        rw [List.length_take, d.length_bytes]
        omega
      have hfill : (b.fill (d.bytes.take n)).Ok := hok.fill (by omega)
      have h₁ := (h.set (l := []) hfill).set (l := [(a, b.fill (d.bytes.take n))]) (hokd.skip (Nat.le_of_lt hlt))
      refine ⟨_, (c, d.skip n) :: l, b.fill (d.bytes.take n), rfl, h₁, rfl, ?_, ?_, (hblen _).trans <| by rw [htake]⟩
      · simp only [bytes_cons, Block.bytes_fill hok.right.left, Block.bytes_skip]
        rw [List.append_assoc, ← List.append_assoc (d.bytes.take n), List.take_append_drop]
      · rw [emptied, if_pos hlt]
        simp [Block.balloc, Block.fill, Block.skip]
    case isFalse hge =>
      have hd : d.bytes.length = d.blen := d.length_bytes
      have hfill : (b.fill d.bytes).Ok := hok.fill (by omega)
      have h₁ : Chained ((((q.set a (b.fill d.bytes)).setnext a (q.next c)).leave c).freeb c) ((a, b.fill d.bytes) :: l) :=
        (h.set (l := []) hfill).leave_second.same rfl rfl rfl
      have hbytes : bytes ((a, b.fill d.bytes) :: l) = bytes ((a, b) :: (c, d) :: l) := by
        simp only [bytes_cons, Block.bytes_fill hok.right.left, List.append_assoc]
      have hspace : (b.fill d.bytes).balloc = b.balloc := rfl
      split
      case isTrue heq =>
        refine ⟨_, _, _, rfl, h₁, rfl, hbytes, ?_, (hblen _).trans <| by rw [hd, heq]⟩
        rw [emptied, if_neg hge, if_pos heq]
        simp only [blockalloclen_cons, blockalloclen_nil, hspace]
        omega
      case isFalse hne =>
        have hroom' : (b.fill d.bytes).wp + (n - d.blen) ≤ (b.fill d.bytes).lim := by
          simp only [Block.fill]
          omega
        obtain ⟨q', l', b', hq, h', hsame, hb, hs, hfull⟩ :=
          ih h₁ (n := n - d.blen) (by omega) hroom' (by omega) (Nat.le_of_succ_le_succ hfuel)
        refine ⟨q', l', b', hq, h', hsame, hb.trans hbytes, ?_, by rw [hfull, hblen]; omega⟩
        rw [emptied, if_neg hge, if_neg hne]
        simp only [blockalloclen_cons, hspace] at hs ⊢
        omega

theorem last {l : List Addr} (hl : Follows q.next (a :: l)) (hlive : ∀ c ∈ a :: l, c ∈ q.live) (hfuel : l.length < fuel) :
    q.last fuel a = (a :: l).getLast? := by
  induction fuel generalizing a l with
  | zero => contradiction
  | succ fuel ih =>
    have hget : q.get a = some (q.blk a) := if_pos <| hlive a List.mem_cons_self
    rw [Queue.last, hget, hl.left]
    cases l with
    | nil => rfl
    | cons c l =>
      rw [List.getLast?_cons_cons]
      exact ih hl.right (fun d hd => hlive d <| List.mem_cons_of_mem _ hd) (Nat.lt_of_succ_lt_succ hfuel)

theorem pullupblock (h : Rep m c q ((a, b) :: l)) (hn : ¬n ≤ b.blen) (he : Even n new ((a, b) :: l))
    (hs : q.pullupblock a n new = some (q₁, r)) :
    ∃ a' b' l', r = some a' ∧ Chained q₁ ((a', b') :: l') ∧
      q₁ = { q with blk := q₁.blk, next := q₁.next, live := q₁.live, trace := q₁.trace } ∧
      bytes ((a', b') :: l') = bytes ((a, b) :: l) ∧
      blockalloclen ((a', b') :: l') = blockalloclen ((a, b) :: l) := by
  have ⟨hlen, hspace⟩ := he.resolve_left hn
  rw [Queue.pullupblock, h.get] at hs
  simp only [Option.bind_eq_bind, Option.bind_some, if_neg hn] at hs
  split at hs
  case isTrue hlt =>
    rw [if_pos hlt] at hspace
    obtain ⟨nb, hnb, hs⟩ := Option.bind_eq_some_iff.mp hs
    obtain ⟨hif, he⟩ := Option.ite_none_right_eq_some.mp hnb
    obtain rfl := Option.some.inj he
    have ⟨hok, hempty, hroom⟩ := Block.allocb_ok hif.right
    have hf : q.Fresh [(new, .allocb new n)] := by
      refine ⟨List.nodup_singleton _, fun x hx => ?_⟩
      obtain rfl := List.mem_singleton.mp hx
      exact ⟨hif.left, hok⟩
    obtain ⟨q', l', b', hq, h', hsame, hb, hlen', -⟩ :=
      pullup ((h.toChained.same rfl rfl rfl : Chained (q.came new) _).enter hf) (by omega) hroom (by rwa [blocklen_cons])
        (show _ ≤ q.live.length + 1 by rw [h.length]; omega)
    cases hs.symm.trans hq
    refine ⟨new, b', l', rfl, h', hsame, ?_, ?_⟩
    · rw [hb, bytes_cons, hempty, List.nil_append]
    · rw [hspace] at hlen'
      rw [blockalloclen_cons (a := new) (b := .allocb new n)] at hlen'
      omega
  case isFalse hge =>
    rw [if_neg hge] at hspace
    have hok : b.Ok := (h.blks (a, b) List.mem_cons_self).right
    have hroom : b.wp + (n - b.blen) ≤ b.lim := by
      simp only [Block.Ok, Block.blen] at *
      omega
    obtain ⟨q', l', b', hq, h', hsame, hb, hlen', -⟩ :=
      pullup h.toChained (n := n - b.blen) (by omega) hroom (by omega)
        (show _ ≤ q.live.length by rw [h.length]; simp)
    cases hs.symm.trans hq
    exact ⟨a, b', l', rfl, h', hsame, hb, by omega⟩

theorem pullupqueue (h : Rep m c q l) (he : Even n new l) (hs : q.pullupqueue n new = some (q', r)) :
    ∃ l', Rep m c q' l' ∧ bytes l' = bytes l := by
  rcases l with _ | ⟨⟨a, b⟩, l⟩
  · exact he.elim
  rw [Queue.pullupqueue, h.bfirst] at hs
  simp only [List.map_cons, List.head?_cons, Option.bind_eq_bind, Option.bind_some, h.get] at hs
  split at hs
  case isTrue =>
    cases hs
    exact ⟨_, h, rfl⟩
  case isFalse hn =>
    obtain ⟨⟨q₁, x⟩, hq, hs⟩ := Option.bind_eq_some_iff.mp hs
    obtain ⟨a', b', l', rfl, h₁, hsame, hb, hspace⟩ := h.pullupblock hn he hq
    have hlast : q₁.last q₁.live.length a' = _ :=
      last h₁.links (fun c hc => h₁.live.mem_iff.mpr hc) (by rw [h₁.length]; simp)
    simp only [hlast] at hs
    obtain ⟨z, hz, hs⟩ := Option.bind_eq_some_iff.mp hs
    cases hs
    refine ⟨(a', b') :: l', ⟨⟨h₁.same rfl rfl rfl, rfl, fun _ => hz.symm⟩, ?_, ?_, ?_, ?_⟩, hb⟩
    · rw [hspace, ← h.len, hsame]
    · rw [← length_bytes, hb, length_bytes, ← h.dlen, hsame]
    · rw [← h.msg, hsame]
    · rw [← h.coalesce, hsame]

end Rep

variable {q : Queue} {l : List (Addr × Block)}

-- A list that has the bytes gets them into its first block. That a queue may count the space wrong then does not
-- matter.
theorem Chained.pullupblock (h : Chained q ((a, b) :: l)) (hn : ¬n ≤ b.blen) (hlen : n ≤ b.blen + blocklen l)
    (hnew : (q.allocb new n).isSome) :
    ∃ q₁ a' b' l', q.pullupblock a n new = some (q₁, some a') ∧ Chained q₁ ((a', b') :: l') ∧ n ≤ b'.blen ∧
      q₁ = { q with blk := q₁.blk, next := q₁.next, live := q₁.live, trace := q₁.trace } ∧
      bytes ((a', b') :: l') = bytes ((a, b) :: l) := by
  simp only [Queue.pullupblock, h.get List.mem_cons_self, Option.bind_eq_bind, Option.bind_some, if_neg hn]
  split
  case isTrue hlt =>
    obtain ⟨nb, hnb⟩ := Option.isSome_iff_exists.mp hnew
    obtain ⟨hif, he⟩ := Option.ite_none_right_eq_some.mp hnb
    obtain rfl := Option.some.inj he
    have ⟨hok, hempty, hroom⟩ := Block.allocb_ok hif.right
    have hf : q.Fresh [(new, .allocb new n)] := by
      refine ⟨List.nodup_singleton _, fun x hx => ?_⟩
      obtain rfl := List.mem_singleton.mp hx
      exact ⟨hif.left, hok⟩
    obtain ⟨q', l', b', hq, h', hsame, hb, -, hfull⟩ :=
      Rep.pullup ((h.same rfl rfl rfl : Chained (q.came new) _).enter hf) (by omega) hroom
        (by rwa [blocklen_cons]) (show _ ≤ q.live.length + 1 by rw [h.length]; omega)
    refine ⟨q', new, b', l', by rw [hnb]; exact hq, h', by omega, hsame, ?_⟩
    rw [hb, bytes_cons, hempty, List.nil_append]
  case isFalse hge =>
    have hok : b.Ok := (h.blks (a, b) List.mem_cons_self).right
    have hroom : b.wp + (n - b.blen) ≤ b.lim := by
      simp only [Block.Ok, Block.blen] at *
      omega
    obtain ⟨q', l', b', hq, h', hsame, hb, -, hfull⟩ :=
      Rep.pullup h (n := n - b.blen) (by omega) hroom (by omega)
        (show _ ≤ q.live.length by rw [h.length]; simp)
    exact ⟨q', a, b', l', hq, h', by omega, hsame, hb⟩

namespace Queued

theorem pullupqueue (h : Queued q l) (hl : l ≠ []) (hlen : n ≤ blocklen l) (hnew : (q.allocb new n).isSome) :
    ∃ q' a b l', q.pullupqueue n new = some (q', some a) ∧ Queued q' ((a, b) :: l') ∧ n ≤ b.blen ∧
      q'.dlen = q.dlen ∧ bytes ((a, b) :: l') = bytes l := by
  obtain ⟨⟨a, b⟩, l, rfl⟩ := List.exists_cons_of_ne_nil hl
  rw [Queue.pullupqueue, h.bfirst]
  simp only [List.map_cons, List.head?_cons, Option.bind_eq_bind, Option.bind_some, h.get]
  split
  case isTrue hn => exact ⟨q, a, b, l, rfl, h, hn, rfl, rfl⟩
  case isFalse hn =>
    obtain ⟨q₁, a', b', l', hq, h₁, hfull, hsame, hb⟩ := h.toChained.pullupblock hn (by rwa [blocklen_cons] at hlen) hnew
    have hlast : q₁.last q₁.live.length a' = _ :=
      Rep.last h₁.links (fun c hc => h₁.live.mem_iff.mpr hc) (by rw [h₁.length]; simp)
    have hsome := List.getLast?_eq_some_getLast (List.cons_ne_nil a' (l'.map Prod.fst))
    rw [hq]
    simp only [Option.bind_some, hlast, hsome]
    exact ⟨_, a', b', l', rfl, ⟨h₁.same rfl rfl rfl, rfl, fun _ => hsome.symm⟩, hfull, by rw [hsame], hb⟩

end Queued

-- The blocks of a queue, from `bfirst` on.
structure Queue.Has (q : Queue) (l : List (Addr × Block)) : Prop where
  bfirst : q.bfirst = (l.map Prod.fst).head?
  links  : Follows q.next (l.map Prod.fst)
  blks   : ∀ x ∈ l, q.blk x.fst = x.snd

variable {s s' : Stream} {l : List (Addr × Block)}

theorem Rep.has (h : Rep m c q l) : q.Has l where
  bfirst := h.bfirst
  links  := h.links
  blks   := fun x hx => (h.blks x hx).left

-- A block is pulled up only if that does not change how much space the blocks take.
def Levels (s : Stream) : Act → Prop
  | .pullupqueue n new => ∀ l, s.q.Has l → Even n new l
  | _ => True

-- Nothing is thrown away, and a block that is put back has the last bytes that were read.
def Streams (s : Stream) : Act → Prop
  | .qputback _ b => ∃ d, s.delivered = d ++ b.bytes
  | .pullupqueue .. | .qflush | .qclose | .qhangup _ | .qreopen => False
  | _ => True

-- What was accepted is what was delivered and what is queued.
def Stream.Fifo (s : Stream) (l : List (Addr × Block)) : Prop :=
  s.accepted = s.delivered ++ bytes l

-- What a step does to a queue that had `l`, and to what was read and written if `p` holds.
def Kept (m c : Bool) (s s' : Stream) (l : List (Addr × Block)) (p : Prop) : Prop :=
  ∃ l', Rep m c s'.q l' ∧ (m = false → p → s.Fifo l → s'.Fifo l')

theorem Next.accept (h : Next m c q' l p []) : Kept m c s (s.accept q' p) l P := by
  obtain ⟨l', h', hb⟩ := h
  refine ⟨l', h', fun hm _ hs => ?_⟩
  change s.accepted ++ p = s.delivered ++ bytes l'
  rw [hs, List.append_assoc, hb hm, List.nil_append]

theorem Next.deliver (h : Next m c q' l [] o) : Kept m c s (s.deliver q' o) l P := by
  obtain ⟨l', h', hb⟩ := h
  refine ⟨l', h', fun hm _ hs => ?_⟩
  change s.accepted = s.delivered ++ o ++ bytes l'
  rw [hs, List.append_assoc, ← hb hm, List.append_nil]

theorem Next.hand {x : Option (Addr × Block)} (h : Next m c q' l [] (x.elim [] (·.snd.bytes))) :
    Kept m c s (s.hand q' x) l P := by
  cases x with
  | none   => exact h.deliver
  | some x => exact (h.same rfl : Next m c (q'.returned x.fst) _ _ _).deliver

theorem Next.quiet (h : Next m c q' l [] []) : Kept m c s { s with q := q' } l P := by
  obtain ⟨l', h', hb⟩ := h
  refine ⟨l', h', fun hm _ hs => ?_⟩
  change s.accepted = s.delivered ++ bytes l'
  rw [hs, ← List.append_nil (bytes l), hb hm, List.nil_append]

namespace Rep

theorem putback (h : Rep m c s.q l) (hf : s.q.Fresh [(a, b)]) :
    Kept m c s { s with q := (s.q.came a).qputback a b, delivered := s.delivered.take (s.delivered.length - b.blen) } l
      (∃ d, s.delivered = d ++ b.bytes) := by
  refine ⟨_, (h.same rfl : Rep m c (s.q.came a) l).qputback hf, fun _ ⟨d, hd⟩ hs => ?_⟩
  have hlen : s.delivered.length - b.blen = d.length := by
    rw [hd, List.length_append, Block.length_bytes, Nat.add_sub_cancel]
  change s.accepted = s.delivered.take _ ++ bytes ((a, b) :: l)
  rw [hs, hlen, hd, List.take_left, bytes_cons, List.append_assoc]

theorem arrived_fresh {bs : List (Addr × Block)} (hf : s.q.Fresh bs) : (s.q.arrived as).Fresh bs := by
  rw [Queue.arrived_eq]
  exact hf

theorem step (h : Rep m c s.q l) (hc : Levels s act) (hs : step s act = some s') :
    Kept m c s s' l (Streams s act) := by
  cases act
  case qget =>
    obtain ⟨q', hq, h'⟩ := h.qget
    rw [Qio.step, hq] at hs
    cases hs
    exact (next_of_tail h').hand
  case qremove =>
    obtain ⟨q', hq, h'⟩ := h.qremove
    rw [Qio.step, hq] at hs
    cases hs
    exact (next_of_tail h').hand
  case qdiscard n =>
    obtain ⟨q', p, hq, h'⟩ := h.qdiscard (n := n)
    rw [Qio.step, hq] at hs
    cases hs
    exact h'.deliver
  case qconsume n =>
    obtain ⟨q', p, hq, h'⟩ := h.qconsume (n := n)
    rw [Qio.step, hq] at hs
    cases hs
    exact h'.deliver
  case qread n =>
    obtain ⟨q', r, hq, h'⟩ := h.qread (n := n)
    rw [Qio.step, hq] at hs
    cases hs
    cases r
    case ok => exact h'.deliver
    case error => exact h'.quiet
  case qbread n new =>
    obtain ⟨⟨q', r⟩, hq, rfl⟩ := Option.map_eq_some_iff.mp hs
    have h' := h.qbread hq
    cases r with
    | error => exact h'.quiet
    | ok x  => exact Next.hand (x := some x) h'
  case qpass bs =>
    obtain ⟨hf, hs⟩ := Option.ite_none_right_eq_some.mp hs
    obtain ⟨⟨q', n, p⟩, hq, rfl⟩ := Option.map_eq_some_iff.mp hs
    exact (h.arrived.qpass (arrived_fresh hf) hq).accept
  case qpassnolim bs =>
    obtain ⟨hf, hs⟩ := Option.ite_none_right_eq_some.mp hs
    obtain ⟨⟨q', n, p⟩, hq, rfl⟩ := Option.map_eq_some_iff.mp hs
    exact (h.arrived.qpassnolim (arrived_fresh hf) hq).accept
  case qaddlist bs =>
    obtain ⟨hf, hs⟩ := Option.ite_none_right_eq_some.mp hs
    obtain ⟨q', hq, rfl⟩ := Option.map_eq_some_iff.mp hs
    exact (h.arrived.qaddlist (arrived_fresh hf) hq).accept
  case qproduce p new =>
    obtain ⟨⟨q', n, r⟩, hq, rfl⟩ := Option.map_eq_some_iff.mp hs
    exact (h.qproduce hq).accept
  case qbwrite a b =>
    obtain ⟨hf, hs⟩ := Option.ite_none_right_eq_some.mp hs
    obtain ⟨⟨q', r⟩, hq, rfl⟩ := Option.map_eq_some_iff.mp hs
    exact ((h.same rfl : Rep m c (s.q.came a) l).qbwrite hf hq).accept
  case qwrite p new =>
    obtain ⟨⟨q', r⟩, hq, rfl⟩ := Option.map_eq_some_iff.mp hs
    exact (h.qwrite hq).accept
  case qiwrite p new =>
    obtain ⟨⟨q', r⟩, hq, rfl⟩ := Option.map_eq_some_iff.mp hs
    exact (h.qiwrite hq).accept
  case qputback a b =>
    obtain ⟨hf, hs⟩ := Option.ite_none_right_eq_some.mp hs
    obtain rfl := Option.some.inj hs
    exact h.putback hf
  case pullupqueue n new =>
    obtain ⟨⟨q', r⟩, hq, rfl⟩ := Option.map_eq_some_iff.mp hs
    obtain ⟨l', h', -⟩ := h.pullupqueue (hc l h.has) hq
    exact ⟨l', h', fun _ hp => hp.elim⟩
  case qflush =>
    obtain ⟨q', hq, h'⟩ := h.qflush
    rw [Qio.step, hq] at hs
    cases hs
    exact ⟨[], h', fun _ hp => hp.elim⟩
  case qclose =>
    obtain ⟨q', hq, h'⟩ := h.qclose
    rw [Qio.step, hq] at hs
    cases hs
    exact ⟨[], h', fun _ hp => hp.elim⟩
  all_goals
    obtain rfl := Option.some.inj hs
    exact (h.same rfl).next.quiet

theorem opened (limit : Int) (msg coalesce : Bool) : Rep msg coalesce (qopen limit msg coalesce) [] :=
  ⟨⟨⟨trivial, nofun, .refl _, .nil⟩, rfl, fun hne => (hne rfl).elim⟩, rfl, rfl, rfl, rfl⟩

theorem blocklen_le (h : Rep m c q l) : blocklen l ≤ blockalloclen l := by
  have hblks := h.blks
  clear h
  induction l with
  | nil => exact Nat.le_refl _
  | cons x l ih =>
    obtain ⟨a, b⟩ := x
    rw [List.forall_mem_cons] at hblks
    have := ih hblks.right
    have : b.Ok := hblks.left.right
    rw [blocklen_cons, blockalloclen_cons]
    simp only [Block.Ok, Block.blen, Block.balloc] at *
    omega

end Rep

theorem counts_invariant : machine.Invariant Levels fun s => ∃ m c l, Rep m c s.q l where
  init := fun ⟨limit, msg, coalesce, hs⟩ => ⟨msg, coalesce, [], hs ▸ Rep.opened limit msg coalesce⟩
  step := fun ⟨m, c, _, h⟩ hc hs =>
    have ⟨l', h', _⟩ := h.step hc hs
    ⟨m, c, l', h'⟩

theorem fifo_invariant : machine.Invariant Streams fun s => ∃ m c l, Rep m c s.q l ∧ (m = false → s.Fifo l) where
  init := fun ⟨limit, msg, coalesce, hs⟩ => ⟨msg, coalesce, [], hs ▸ Rep.opened limit msg coalesce, fun _ => hs ▸ rfl⟩
  step := fun {_ act _} ⟨m, c, _, h, hf⟩ hc hs =>
    have hl : Levels _ act := by cases act <;> first | exact trivial | exact hc.elim
    have ⟨l', h', hk⟩ := h.step hl hs
    ⟨m, c, l', h', fun hm => hk hm hc (hf hm)⟩

-- In a run that pulls up blocks only where this does not change the space that they take, a queue counts
-- the space and the bytes of its blocks right, and knows the last one.
theorem queue_counts (hr : machine.Reachable Levels s) :
    ∃ l, s.q.Has l ∧ (blockalloclen l < 2 ^ 31 → s.q.len = blockalloclen l ∧ s.q.dlen = blocklen l) ∧
      (l ≠ [] → s.q.blast = (l.map Prod.fst).getLast?) := by
  obtain ⟨m, c, l, h⟩ := counts_invariant.holds hr
  refine ⟨l, h.has, fun hlt => ?_, h.blast⟩
  rw [h.len, h.dlen]
  exact ⟨int32_eq_self hlt, int32_eq_self <| Nat.lt_of_le_of_lt h.blocklen_le hlt⟩

-- A queue that was just opened.
def fresh : Stream where
  q         := qopen 100 false false
  accepted  := []
  delivered := []

theorem fresh_init : machine.init fresh :=
  ⟨100, false, false, rfl⟩

-- There are two blocks, and the first one has what is pulled up.
def paired : Stream :=
  (machine.exec fresh [.qproduce [1, 2] (some 1000), .qproduce [3, 4, 5] (some 2000)]).get (by decide)

def pulled : Stream :=
  (machine.step paired <| .pullupqueue 2 3000).get (by decide)

theorem queue_counts_pulled : ∃ l, pulled.q.Has l ∧
    (blockalloclen l < 2 ^ 31 → pulled.q.len = blockalloclen l ∧ pulled.q.dlen = blocklen l) ∧
    (l ≠ [] → pulled.q.blast = (l.map Prod.fst).getLast?) := by
  have hr : machine.Reachable Levels fresh := .init fresh_init
  have hr := hr.step (a := Act.qproduce [1, 2] (some 1000)) trivial rfl
  have hr := hr.step (a := Act.qproduce [3, 4, 5] (some 2000)) (t := paired) trivial rfl
  refine queue_counts <| hr.step (a := Act.pullupqueue 2 3000) (t := pulled) (fun l hl => ?_) rfl
  rcases l with _ | ⟨⟨a, b⟩, l⟩
  · exact nomatch hl.bfirst
  · obtain rfl : 1000 = a := Option.some.inj hl.bfirst
    have hb : paired.q.blk 1000 = b := hl.blks (1000, b) List.mem_cons_self
    have hlen : 2 ≤ (paired.q.blk 1000).blen := by decide
    exact .inl <| hb ▸ hlen

-- All of the second block is pulled up, and it is freed.
def drifted : Stream :=
  (machine.exec fresh [.qproduce [1, 2] (some 1000), .qproduce [3, 4, 5] (some 2000), .pullupqueue 5 3000]).get (by decide)

theorem drifted_counts :
    machine.Reachable (fun _ _ => True) drifted ∧ drifted.q.Has [(1000, drifted.q.blk 1000)] ∧
      drifted.q.len = 160 ∧ blockalloclen [(1000, drifted.q.blk 1000)] = 80 := by
  have hs : machine.exec fresh [.qproduce [1, 2] (some 1000), .qproduce [3, 4, 5] (some 2000), .pullupqueue 5 3000] = some drifted :=
    (Option.some_get _).symm
  refine ⟨(Machine.Reachable.init fresh_init).exec (fun _ _ _ => trivial) hs, ⟨by decide, ⟨by decide, trivial⟩, ?_⟩, by decide, by decide⟩
  simp

-- Two of three bytes are read.
def tasted : Stream :=
  (machine.exec fresh [.qwrite [1, 2, 3] [1000], .qread 2]).get (by decide)

end Port.Qio
