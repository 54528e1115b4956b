import Nix.Port.QioInvariant

namespace Port.Qio

-- What becomes of a queue that had `l`, when `p` goes in and `o` comes out. Message queues may throw
-- away what does not fit in a read.
def Next (m c : Bool) (q' : Queue) (l : List (Addr × Block)) (p o : List Byte) : Prop :=
  ∃ l', Rep m c q' l' ∧ (m = false → bytes l ++ p = o ++ bytes l')

theorem Next.same {q q' : Queue} {l : List (Addr × Block)} (h : Next m c q l p o)
    (hq : q' = { q with
      limit := q'.limit, inilim := q'.inilim, starve := q'.starve, closed := q'.closed,
      flow := q'.flow, noblock := q'.noblock, eof := q'.eof, err := q'.err, trace := q'.trace }) :
    Next m c q' l p o :=
  have ⟨l', h', hb⟩ := h
  ⟨l', h'.same hq, hb⟩

namespace Rep

variable {q q' : Queue} {l : List (Addr × Block)}

theorem next (h : Rep m c q l) : Next m c q l [] [] :=
  ⟨l, h, fun _ => by simp⟩

theorem qremove (h : Rep m c q l) : ∃ q', q.qremove = some (q', l.head?) ∧ Rep m c q' l.tail := by
  rw [Queue.qremove]
  cases l with
  | nil =>
    rw [h.bfirst]
    exact ⟨q, rfl, h⟩
  | cons x l =>
    rw [h.bfirst]
    simp only [List.map_cons, List.head?_cons, h.get, Option.bind_eq_bind, Option.bind_some]
    exact ⟨_, rfl, h.unlink⟩

theorem qget (h : Rep m c q l) : ∃ q', q.qget = some (q', l.head?) ∧ Rep m c q' l.tail := by
  rw [Queue.qget]
  cases l with
  | nil =>
    split
    case h_1 => exact ⟨_, rfl, h.same rfl⟩
    case h_2 ha => exact nomatch h.bfirst.symm.trans ha
  | cons x l =>
    rw [h.bfirst]
    simp only [List.map_cons, List.head?_cons, h.get, Option.bind_eq_bind, Option.bind_some]
    exact ⟨_, rfl, h.unlink.same rfl⟩

theorem next_of_tail (h : Rep m c q l.tail) : Next m c q l [] (l.head?.elim [] (·.snd.bytes)) :=
  ⟨l.tail, h, fun _ => by rcases l with _ | ⟨⟨a, b⟩, l⟩ <;> simp⟩

theorem discard (h : Rep m c q l) (hfuel : l.length < fuel) :
    ∃ q' p, Queue.discard fuel q n = some (q', p) ∧ Next m c q' l [] p := by
  induction fuel generalizing q l n with
  | zero => contradiction
  | succ fuel ih =>
    rw [Queue.discard]
    split
    case isTrue => exact ⟨q, [], rfl, h.next⟩
    case isFalse hn =>
      rcases l with _ | ⟨⟨a, b⟩, l⟩
      · rw [h.bfirst]
        exact ⟨q, [], rfl, h.next⟩
      · rw [h.bfirst]
        simp only [List.map_cons, List.head?_cons, h.get, Option.bind_eq_bind, Option.bind_some]
        split
        case isTrue hle =>
          obtain ⟨q', p, hq, l', h', hp⟩ := ih (n := n - b.blen) (h.unlink.same rfl : Rep m c ((q.unlink a b).freeb a) l) (Nat.lt_of_succ_lt_succ hfuel)
          rw [hq]
          refine ⟨q', b.bytes ++ p, rfl, l', h', fun hm => ?_⟩
          have := hp hm
          simp only [bytes_cons, List.append_nil] at this ⊢
          rw [this, List.append_assoc]
        case isFalse hgt =>
          refine ⟨_, _, rfl, _, h.skip (by omega), fun _ => ?_⟩
          simp only [bytes_cons, Block.bytes_skip, List.append_nil]
          rw [← List.append_assoc, List.take_append_drop]

theorem qdiscard (h : Rep m c q l) : ∃ q' p, q.qdiscard n = some (q', p) ∧ Next m c q' l [] p := by
  obtain ⟨q', p, hq, l', h', hp⟩ := h.discard (n := n) (show _ < q.live.length + 1 by rw [h.length]; omega)
  rw [Queue.qdiscard, hq]
  exact ⟨_, _, rfl, l', h'.same rfl, hp⟩

-- The loop ends at the first block that is not empty, or when there are no more blocks.
theorem nonempty (tofree : List Addr) (h : Rep m c q l) (hfuel : l.length < fuel) :
    ∃ q' l' tofree', Queue.nonempty fuel q tofree = some (q', tofree', l'.head?) ∧ Rep m c q' l' ∧ bytes l = bytes l' := by
  induction fuel generalizing q l tofree with
  | zero => contradiction
  | succ fuel ih =>
    rw [Queue.nonempty]
    cases l with
    | nil =>
      split
      case h_1 => exact ⟨_, [], _, rfl, h.same rfl, rfl⟩
      case h_2 ha => exact nomatch h.bfirst.symm.trans ha
    | cons x l =>
      obtain ⟨a, b⟩ := x
      rw [h.bfirst]
      simp only [List.map_cons, List.head?_cons, h.get, Option.bind_eq_bind, Option.bind_some]
      split
      case isTrue => exact ⟨q, (a, b) :: l, _, rfl, h, rfl⟩
      case isFalse hpos =>
        -- There is nothing to subtract from `dlen`.
        have hempty : b.blen = 0 := by omega
        have heq : { q with bfirst := q.next a, len := int32 (q.len - b.balloc) }.leave a = q.unlink a b := by
          have hd : q.dlen = int32 (q.dlen - b.blen) := by
            rw [hempty, h.dlen, int32_sub]
            simp
          rw [Queue.unlink, ← hd]
        obtain ⟨q', l', tofree', hq, h', hb⟩ := ih (a :: tofree) h.unlink (Nat.lt_of_succ_lt_succ hfuel)
        rw [heq, hq]
        refine ⟨q', l', tofree', rfl, h', ?_⟩
        have : b.bytes = [] := List.eq_nil_of_length_eq_zero <| b.length_bytes.trans hempty
        rw [bytes_cons, this, ← hb]
        rfl

theorem qconsume (h : Rep m c q l) : ∃ q' p, q.qconsume n = some (q', p) ∧ Next m c q' l [] (p.getD []) := by
  obtain ⟨q₁, l₁, tofree, hq, h₁, hb⟩ := h.nonempty [] (show _ < q.live.length + 1 by rw [h.length]; omega)
  rw [Queue.qconsume, hq]
  simp only [Option.bind_eq_bind, Option.bind_some]
  cases l₁ with
  | nil => exact ⟨q₁, none, rfl, [], h₁, fun _ => by simp [hb]⟩
  | cons x l₁ =>
    obtain ⟨a, b⟩ := x
    have hn : min b.blen n ≤ b.blen := Nat.min_le_left ..
    have h₂ := h₁.skip hn
    refine ⟨_, _, rfl, ?_⟩
    split
    case isTrue hif =>
      refine ⟨l₁, freebs (h₂.unlink.same rfl), fun hm => ?_⟩
      have hall : min b.blen n = b.blen := hif.resolve_left (by simpa using h₂.msg.trans hm)
      rw [hb, hall, bytes_cons, Option.getD_some, List.append_nil, List.take_of_length_le (Nat.le_of_eq b.length_bytes)]
    case isFalse =>
      refine ⟨_, freebs (h₂.same rfl), fun _ => ?_⟩
      simp only [hb, bytes_cons, Block.bytes_skip, Option.getD_some, List.append_nil]
      rw [← List.append_assoc, List.take_append_drop]

theorem next_of_append {bs : List (Addr × Block)} (h : Rep m c q (l ++ bs)) : Next m c q l (bytes bs) [] :=
  ⟨_, h, fun _ => by simp⟩

theorem pass (h : Rep m c q l) (hf : q.Fresh bs) (hs : q.pass bs = some (q', n, p)) : Next m c q' l p [] := by
  rcases bs with _ | ⟨x, bs⟩
  · contradiction
  · obtain ⟨q₁, hq, h₁⟩ := h.addlist hf (List.cons_ne_nil _ _)
    rw [Queue.pass, hq] at hs
    obtain ⟨rfl, -, rfl⟩ := by simpa using hs
    exact next_of_append (h₁.same rfl)

theorem qpassnolim (h : Rep m c q l) (hf : q.Fresh bs) (hs : q.qpassnolim bs = some (q', n, p)) :
    Next m c q' l p [] := by
  rw [Queue.qpassnolim] at hs
  split at hs
  case isTrue =>
    obtain ⟨_, -, he⟩ := Option.map_eq_some_iff.mp hs
    cases he
    exact h.freebs.next
  case isFalse => exact h.pass hf hs

theorem qpass (h : Rep m c q l) (hf : q.Fresh bs) (hs : q.qpass bs = some (q', n, p)) : Next m c q' l p [] := by
  rw [Queue.qpass] at hs
  split at hs
  case isTrue =>
    cases hs
    exact h.freebs.next
  case isFalse => exact h.qpassnolim hf hs

theorem qaddlist (h : Rep m c q l) (hf : q.Fresh bs) (hs : q.qaddlist bs = some q') : Next m c q' l (bytes bs) [] := by
  rcases bs with _ | ⟨x, bs⟩
  · contradiction
  · obtain ⟨q₁, hq, h₁⟩ := h.addlist hf (List.cons_ne_nil _ _)
    obtain rfl := Option.some.inj <| hs.symm.trans hq
    exact next_of_append h₁

theorem allocb_fill (hb : q.allocb a n = some b) (hp : p.length ≤ n) :
    q.Fresh [(a, b.fill p)] ∧ (b.fill p).bytes = p := by
  rw [Queue.allocb] at hb
  split at hb
  case isFalse => contradiction
  case isTrue hif =>
    obtain rfl := Option.some.inj hb
    have ⟨hok, hempty, hroom⟩ := Block.allocb_ok hif.right
    refine ⟨⟨List.nodup_singleton _, fun x hx => ?_⟩, ?_⟩
    · obtain rfl := List.mem_singleton.mp hx
      exact ⟨hif.left, hok.fill (by omega)⟩
    · rw [Block.bytes_fill hok.right.left, hempty, List.nil_append]

theorem next_of_put (h : Rep m c q l) (hb : q.allocb a n = some b) (hp : p.length ≤ n)
    (hs : (q.came a).put a (b.fill p) = some q') : Next m c q' l p [] := by
  have ⟨hf, hbytes⟩ := allocb_fill hb hp
  obtain ⟨q₁, hq, h₁⟩ := (h.same rfl : Rep m c (q.came a) l).put hf
  obtain rfl := Option.some.inj <| hs.symm.trans hq
  have := next_of_append h₁
  rwa [bytes_cons, hbytes, bytes_nil, List.append_nil] at this

theorem qproduce (h : Rep m c q l) (hs : q.qproduce p new = some (q', n, r)) : Next m c q' l r [] := by
  rw [Queue.qproduce.eq_def] at hs
  split at hs
  case isTrue =>
    cases hs
    exact (h.same rfl).next
  case isFalse =>
    cases new with
    | none =>
      cases hs
      exact h.next
    | some a =>
      obtain ⟨b, hb, hs⟩ := Option.bind_eq_some_iff.mp hs
      obtain ⟨q₁, hq, hs⟩ := Option.bind_eq_some_iff.mp hs
      cases hs
      exact (h.next_of_put hb (Nat.le_refl _) hq).same rfl

theorem qbwrite (h : Rep m c q l) (hf : q.Fresh [(a, b)]) (hs : q.qbwrite a b = some (q', r)) :
    Next m c q' l (r.getD []) [] := by
  rw [Queue.qbwrite] at hs
  split at hs
  case isTrue =>
    cases hs
    exact (h.same rfl).next
  case isFalse =>
    split at hs
    case isTrue =>
      cases hs
      exact (h.same rfl).next
    case isFalse =>
      obtain ⟨q₁, hq, h₁⟩ := h.put hf
      rw [hq] at hs
      cases hs
      have hb : bytes [(a, b)] = b.bytes := by simp
      exact hb ▸ (next_of_append h₁).same rfl

theorem next_trans (h : Next m c q' l p []) (hn : ∀ l', Rep m c q' l' → Next m c q'' l' p' []) :
    Next m c q'' l (p ++ p') [] := by
  obtain ⟨l', h', hb⟩ := h
  obtain ⟨l'', h'', hb'⟩ := hn l' h'
  refine ⟨l'', h'', fun hm => ?_⟩
  rw [← List.append_assoc, hb hm, List.nil_append, hb' hm]

theorem qwrite (h : Rep m c q l) (hs : q.qwrite p as = some (q', r)) : Next m c q' l r [] := by
  induction as generalizing q l p r with
  | nil => contradiction
  | cons a as ih =>
    obtain ⟨b, hb, hs⟩ := Option.bind_eq_some_iff.mp hs
    obtain ⟨⟨q₁, w⟩, hq, hs⟩ := Option.bind_eq_some_iff.mp hs
    have ⟨hf, hbytes⟩ := allocb_fill (p := p.take (min p.length Maxatomic)) hb (by simp)
    have h₁ := (h.same rfl : Rep m c (q.came a) l).qbwrite hf hq
    cases w with
    | none =>
      cases hs
      exact h₁
    | some w =>
      dsimp only at hs
      split at hs
      case isTrue =>
        obtain ⟨⟨q₂, w'⟩, hq', hs⟩ := Option.bind_eq_some_iff.mp hs
        cases hs
        exact next_trans h₁ fun l' h' => ih h' hq'
      case isFalse =>
        cases hs
        exact h₁

theorem qiwrite (h : Rep m c q l) (hs : q.qiwrite p as = some (q', r)) : Next m c q' l r [] := by
  induction as generalizing q l p r with
  | nil =>
    cases hs
    exact h.next
  | cons a as ih =>
    obtain ⟨b, hb, hs⟩ := Option.bind_eq_some_iff.mp hs
    split at hs
    case isTrue =>
      cases hs
      exact (h.same rfl).next
    case isFalse =>
      obtain ⟨q₁, hq, hs⟩ := Option.bind_eq_some_iff.mp hs
      have h₁ := h.next_of_put hb (p := p.take (min p.length Maxatomic)) (by simp) hq
      split at hs
      case isTrue =>
        obtain ⟨⟨q₂, w'⟩, hq', hs⟩ := Option.bind_eq_some_iff.mp hs
        cases hs
        exact next_trans h₁ fun l' h' => ih h' hq'
      case isFalse =>
        cases hs
        exact h₁

theorem qwait (h : Rep m c q l) :
    (∃ q' e, q.qwait = (q', .error e) ∧ l = [] ∧ Rep m c q' []) ∨
      ∃ a b t, q.qwait = (q, .ok a) ∧ l = (a, b) :: t := by
  rcases l with _ | ⟨⟨a, b⟩, t⟩
  · refine .inl ?_
    rw [Queue.qwait]
    split
    case h_1 ha => exact nomatch h.bfirst.symm.trans ha
    case h_2 => split <;> exact ⟨_, _, rfl, rfl, h.same rfl⟩
  · refine .inr ⟨a, b, t, ?_, rfl⟩
    rw [Queue.qwait, h.bfirst]
    rfl

theorem qbread (h : Rep m c q l) (hs : q.qbread n new = some (q', r)) :
    match r with
    | .ok (_, b) => Next m c q' l [] b.bytes
    | .error _   => Next m c q' l [] [] := by
  rw [Queue.qbread] at hs
  rcases h.qwait with ⟨q₁, e, hq, rfl, h₁⟩ | ⟨a, b, t, hq, rfl⟩
  · rw [hq] at hs
    cases hs
    exact h₁.next
  · rw [hq] at hs
    simp only [h.get, Option.bind_eq_bind, Option.bind_some] at hs
    split at hs
    case isTrue hle =>
      cases hs
      exact ⟨t, h.unlink.same rfl, fun _ => by simp⟩
    case isFalse hgt =>
      have hcut : (b.cut n).bytes = b.bytes.take n := Block.bytes_cut (by omega)
      split at hs
      case isTrue hmsg =>
        cases hs
        exact ⟨t, h.unlink.same rfl, fun hm => nomatch (hmsg.symm.trans (h.unlink.msg.trans hm))⟩
      case isFalse =>
        obtain ⟨nb, hnb, hs⟩ := Option.bind_eq_some_iff.mp hs
        cases hs
        have ⟨hf, hbytes⟩ := allocb_fill (p := b.bytes.drop n) hnb (by simp [Block.length_bytes])
        have hf : (q.unlink a b).Fresh [(new, nb.fill (b.bytes.drop n))] :=
          ⟨hf.left, fun x hx => ⟨fun hm => (hf.right x hx).left (List.mem_of_mem_erase hm), (hf.right x hx).right⟩⟩
        refine ⟨_, ((h.unlink.same rfl : Rep m c ((q.unlink a b).came new) _).qputback hf).same rfl, fun _ => ?_⟩
        rw [hcut, bytes_cons, bytes_cons, hbytes, ← List.append_assoc, List.take_append_drop, List.append_nil]

theorem grab (h : Rep m c q l) (hne : l ≠ []) (hfuel : l.length ≤ fuel) :
    ∃ q' bs l', Queue.grab n fuel q k = some (q', bs) ∧ Rep m c q' l' ∧ l = bs ++ l' ∧
      (bs.length = 1 ∨ k + blocklen bs ≤ n) := by
  induction fuel generalizing q l k with
  | zero => exact (hne <| List.length_eq_zero_iff.mp <| Nat.le_zero.mp hfuel).elim
  | succ fuel ih =>
    obtain ⟨⟨a, b⟩, t, rfl⟩ := List.exists_cons_of_ne_nil hne
    have h₁ := h.unlink
    rw [Queue.grab, h.bfirst]
    simp only [List.map_cons, List.head?_cons, h.get, Option.bind_eq_bind, Option.bind_some]
    rw [h₁.bfirst]
    rcases t with _ | ⟨⟨a', b'⟩, t⟩
    · exact ⟨_, _, [], rfl, h₁, rfl, .inl rfl⟩
    · simp only [List.map_cons, List.head?_cons, h₁.get, Option.bind_some]
      split
      case isTrue => exact ⟨_, _, _, rfl, h₁, rfl, .inl rfl⟩
      case isFalse hfit =>
        obtain ⟨q', bs, l', hq, h', hl, hlen⟩ := ih h₁ (k := k + b.blen) (List.cons_ne_nil _ _) (Nat.le_of_succ_le_succ hfuel)
        rw [hq]
        refine ⟨q', (a, b) :: bs, l', rfl, h', by rw [hl, List.cons_append], .inr ?_⟩
        rw [blocklen_cons]
        rcases hlen with hone | hlen
        · obtain ⟨x, rfl⟩ := List.length_eq_one_iff.mp hone
          cases hl
          simp only [blocklen_cons, blocklen_nil]
          omega
        · omega

theorem first (h : Rep m c q l) (hfuel : l.length < fuel) :
    ∃ q' r, Queue.first n fuel q = some (q', r) ∧
      match r with
      | .error _ => Next m c q' l [] []
      | .ok bs   => ∃ pre l', l = pre ++ bs ++ l' ∧ Rep m c q' l' ∧ bytes pre = [] ∧ (bs.length = 1 ∨ blocklen bs ≤ n) := by
  induction fuel generalizing q l with
  | zero => contradiction
  | succ fuel ih =>
    rw [Queue.first]
    rcases h.qwait with ⟨q₁, e, hq, rfl, h₁⟩ | ⟨a, b, t, hq, rfl⟩
    · rw [hq]
      exact ⟨q₁, .error e, rfl, h₁.next⟩
    · rw [hq]
      simp only [h.get, Option.bind_eq_bind, Option.bind_some]
      split
      case isTrue => exact ⟨_, .ok [(a, b)], rfl, [], t, rfl, h.unlink, rfl, .inl rfl⟩
      case isFalse =>
        split
        case isTrue hempty =>
          have hb : b.bytes = [] := List.eq_nil_of_length_eq_zero <| b.length_bytes.trans hempty
          obtain ⟨q', r, hr, hres⟩ := ih (h.unlink.same rfl : Rep m c ((q.unlink a b).freeb a) _) (Nat.lt_of_succ_lt_succ hfuel)
          refine ⟨q', r, hr, ?_⟩
          cases r with
          | error e =>
            obtain ⟨l', h', hb'⟩ := hres
            exact ⟨l', h', fun hm => by rw [bytes_cons, hb, List.nil_append, hb' hm]⟩
          | ok bs =>
            obtain ⟨pre, l', hl, h', hpre, hlen⟩ := hres
            exact ⟨(a, b) :: pre, l', by rw [hl]; rfl, h', by rw [bytes_cons, hb, hpre]; rfl, hlen⟩
        case isFalse =>
          obtain ⟨q', bs, l', hq', h', hl, hlen⟩ := h.grab (n := n) (k := 0) (List.cons_ne_nil _ _) (Nat.le_of_lt hfuel)
          rw [hq']
          exact ⟨q', .ok bs, rfl, [], l', hl, h', rfl, by simpa using hlen⟩

theorem bl2mem_of_le (h : blocklen bs ≤ n) : q.bl2mem bs n = (q.freebs (bs.map Prod.fst), bytes bs, none) := by
  induction bs generalizing q n with
  | nil => rfl
  | cons x bs ih =>
    obtain ⟨a, b⟩ := x
    rw [blocklen_cons] at h
    rw [Queue.bl2mem, if_neg (by omega), ih (by omega), bytes_cons]
    rfl

theorem qread (h : Rep m c q l) :
    ∃ q' r, q.qread n = some (q', r) ∧
      match r with
      | .ok p    => Next m c q' l [] p
      | .error _ => Next m c q' l [] [] := by
  obtain ⟨q₁, r, hq, hr⟩ := h.first (n := n) (show _ < q.live.length + 1 by rw [h.length]; omega)
  rw [Queue.qread, hq]
  cases r with
  | error e => exact ⟨_, _, rfl, hr⟩
  | ok bs =>
    obtain ⟨pre, l', rfl, h', hpre, hlen⟩ := hr
    by_cases hle : blocklen bs ≤ n
    case pos =>
      simp only [Option.bind_eq_bind, Option.bind_some, bl2mem_of_le hle]
      exact ⟨_, _, rfl, l', h'.freebs.same rfl, fun _ => by simp [hpre]⟩
    case neg =>
      -- Only one block was taken, and it has more than is read.
      obtain ⟨⟨a, b⟩, rfl⟩ := List.length_eq_one_iff.mp <| hlen.resolve_right hle
      have hlt : n < b.blen := by simpa [blocklen] using hle
      simp only [Option.bind_eq_bind, Option.bind_some, Queue.bl2mem, if_pos hlt]
      have hnext : Next m c (if q₁.msg then q₁.freeb a else q₁.qputback a (b.skip n)) (pre ++ [(a, b)] ++ l') [] (b.bytes.take n) := by
        split
        case isTrue hmsg => exact ⟨l', h'.same rfl, fun hm => absurd (hmsg.symm.trans (h'.msg.trans hm)) (by simp)⟩
        case isFalse =>
          have hok : b.Ok := (h.blks (a, b) (by simp)).right
          have hnot : a ∉ l'.map Prod.fst := by
            have := h.nodup
            rw [List.append_assoc, List.map_append] at this
            exact (List.nodup_cons.mp (List.nodup_append.mp this).right.left).left
          have hf : q₁.Fresh [(a, b.skip n)] := by
            refine ⟨List.nodup_singleton _, fun x hx => ?_⟩
            obtain rfl := List.mem_singleton.mp hx
            exact ⟨fun hm => hnot <| h'.live.mem_iff.mp hm, hok.skip (Nat.le_of_lt hlt)⟩
          refine ⟨_, h'.qputback hf, fun _ => ?_⟩
          simp only [bytes_append, bytes_cons, bytes_nil, hpre, Block.bytes_skip, List.nil_append, List.append_nil]
          rw [← List.append_assoc, List.take_append_drop]
      exact ⟨_, .ok _, rfl, hnext.same rfl⟩

theorem freeblist (h : Chained q l) (hfuel : l.length ≤ fuel) :
    ∃ trace, Queue.freeblist fuel q (l.map Prod.fst).head? = some { q with live := [], trace := trace } := by
  induction fuel generalizing q l with
  | zero =>
    obtain rfl := List.length_eq_zero_iff.mp <| Nat.le_zero.mp hfuel
    exact ⟨q.trace, by rw [← List.perm_nil.mp h.live]; rfl⟩
  | succ fuel ih =>
    rcases l with _ | ⟨⟨a, b⟩, l⟩
    · exact ⟨q.trace, by rw [← List.perm_nil.mp h.live]; rfl⟩
    · obtain ⟨trace, hf⟩ := ih (h.leave.same rfl rfl rfl : Chained ((q.leave a).freeb a) l) (Nat.le_of_succ_le_succ hfuel)
      have hnext : q.next a = (l.map Prod.fst).head? := h.links.left
      refine ⟨trace, ?_⟩
      simp only [List.map_cons, List.head?_cons, Queue.freeblist, h.get List.mem_cons_self, Option.bind_eq_bind, Option.bind_some, hnext]
      exact hf

theorem freed (h : Rep m c q l) (hq : q' = { q with
      bfirst := none, len := 0, dlen := 0, starve := q'.starve, closed := q'.closed,
      flow := q'.flow, noblock := q'.noblock, err := q'.err }) :
    ∃ q'', Queue.freeblist q.live.length q' q.bfirst = some q'' ∧ Rep m c q'' [] := by
  have hc : Chained q' l := by
    rw [hq]
    exact h.toChained.same rfl rfl rfl
  obtain ⟨_, hf⟩ := freeblist hc (Nat.le_of_eq h.length.symm)
  rw [h.bfirst, hf]
  refine ⟨_, rfl, ?_⟩
  rw [hq]
  exact ⟨⟨⟨trivial, nofun, .refl _, .nil⟩, rfl, fun hne => (hne rfl).elim⟩, rfl, rfl, h.msg, h.coalesce⟩

theorem qflush (h : Rep m c q l) : ∃ q', q.qflush = some q' ∧ Rep m c q' [] :=
  h.freed rfl

theorem qclose (h : Rep m c q l) : ∃ q', q.qclose = some q' ∧ Rep m c q' [] :=
  h.freed rfl

end Rep

end Port.Qio
