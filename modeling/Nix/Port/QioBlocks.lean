import Nix.Port.QioRuns

namespace Port.Qio

-- What is on the queue, and what is in the hands of a routine or to be given to its caller, is what came and has not been
-- freed or returned.
structure Keeps (q : Queue) (o : List Addr) : Prop where
  queued : ∃ l, Queued q l
  owns   : Owns q.trace (q.live ++ o)

namespace Keeps

variable {q q' : Queue} {o as : List Addr} {a : Addr} {b : Block} {bs : List (Addr × Block)}

theorem same (h : Keeps q o)
    (hq : q' = { q with
      len := q'.len, dlen := q'.dlen, limit := q'.limit, inilim := q'.inilim, starve := q'.starve, msg := q'.msg,
      closed := q'.closed, flow := q'.flow, coalesce := q'.coalesce, noblock := q'.noblock, eof := q'.eof,
      err := q'.err }) : Keeps q' o := by
  rw [hq]
  exact ⟨h.queued.imp fun _ hl => hl.same rfl, h.owns⟩

theorem perm (h : Keeps q o) (ho : o.Perm o') : Keeps q o' where
  queued := h.queued
  owns   := h.owns.perm <| ho.append_left _

theorem came (h : Keeps q o) (ha : a ∉ q.live) (ho : a ∉ o) : Keeps (q.came a) (a :: o) where
  queued := h.queued.imp fun _ hl => hl.same rfl
  owns   := (h.owns.acquire (by simp [ha, ho])).perm List.perm_middle.symm

theorem freeb (h : Keeps q (a :: o)) : Keeps (q.freeb a) o where
  queued := h.queued.imp fun _ hl => hl.same rfl
  owns   := (h.owns.perm List.perm_middle).release

theorem freebs (as : List Addr) (h : Keeps q (as ++ o)) : Keeps (q.freebs as) o := by
  induction as generalizing q with
  | nil => exact h
  | cons a as ih => exact ih h.freeb

theorem arrived (h : Keeps q o) (hn : as.Nodup) (ha : ∀ a ∈ as, a ∉ q.live ∧ a ∉ o) : Keeps (q.arrived as) (as ++ o) := by
  induction as generalizing q o with
  | nil => exact h
  | cons a as ih =>
    rw [List.forall_mem_cons] at ha
    rw [List.nodup_cons] at hn
    refine (ih (h.came ha.left.left ha.left.right) hn.right fun c hc => ⟨(ha.right c hc).left, ?_⟩).perm List.perm_middle
    rw [List.mem_cons, not_or]
    exact ⟨ne_of_mem_of_not_mem hc hn.left, (ha.right c hc).right⟩

theorem leave (ho : Owns q.trace (q.live ++ o)) (ha : a ∈ q.live) : Owns (q.leave a).trace ((q.leave a).live ++ a :: o) := by
  refine ho.perm <| ((List.perm_cons_erase ha).append_right o).trans ?_
  exact List.perm_middle.symm

theorem mem_of_get (hb : q.get a = some b) : a ∈ q.live :=
  (Option.ite_none_right_eq_some.mp hb).left

theorem first (h : Keeps q o) (ha : q.bfirst = some a) (hb : q.get a = some b) : ∃ t, Queued q ((a, b) :: t) := by
  obtain ⟨l, hl⟩ := h.queued
  have hfirst := hl.bfirst
  rcases l with _ | ⟨⟨c, d⟩, t⟩
  · exact nomatch ha.symm.trans hfirst
  · obtain rfl : a = c := Option.some.inj (ha.symm.trans hfirst)
    obtain rfl : b = d := Option.some.inj (hb.symm.trans hl.get)
    exact ⟨t, hl⟩

theorem ok (h : Keeps q o) (ha : q.bfirst = some a) (hb : q.get a = some b) : b.Ok := by
  obtain ⟨t, hl⟩ := h.first ha hb
  exact (hl.blks _ List.mem_cons_self).right

theorem unlink (h : Keeps q o) (ha : q.bfirst = some a) (hb : q.get a = some b) : Keeps (q.unlink a b) (a :: o) where
  queued := (h.first ha hb).imp fun _ hl => hl.unlink
  owns   := leave h.owns (mem_of_get hb)

theorem set {b' : Block} (h : Keeps q o) (ha : q.bfirst = some a) (hb : q.get a = some b) (hok : b'.Ok) :
    Keeps (q.set a b') o where
  queued := have ⟨_, hl⟩ := h.first ha hb
            ⟨_, hl.set hok⟩
  owns   := h.owns

theorem fresh (bs : List (Addr × Block)) (h : Keeps q (bs.map Prod.fst ++ o)) (hok : ∀ x ∈ bs, x.snd.Ok) : q.Fresh bs := by
  have hn := h.owns.nodup
  rw [← List.append_assoc, List.nodup_append, List.nodup_append] at hn
  refine ⟨hn.left.right.left, fun x hx => ⟨fun hlive => ?_, hok x hx⟩⟩
  exact hn.left.right.right _ hlive _ (List.mem_map.mpr ⟨x, hx, rfl⟩) rfl

theorem addlist (bs : List (Addr × Block)) (h : Keeps q (bs.map Prod.fst ++ o)) (hok : ∀ x ∈ bs, x.snd.Ok) (hs : q.addlist bs = some q') :
    Keeps q' o := by
  obtain ⟨l, hl⟩ := h.queued
  have hne : bs ≠ [] := fun he => by simp [he, Queue.addlist] at hs
  obtain ⟨q₁, hq, h₁, -, -, -, -, hlive, htrace⟩ := hl.addlist (h.fresh bs hok) hne
  obtain rfl := Option.some.inj (hq.symm.trans hs)
  refine ⟨⟨_, h₁⟩, ?_⟩
  rw [htrace, hlive, List.append_assoc]
  refine h.owns.perm ?_
  rw [← List.append_assoc, ← List.append_assoc]
  exact List.perm_append_comm.append_right o

theorem put (h : Keeps q (a :: o)) (hok : b.Ok) (hs : q.put a b = some q') : Keeps q' o := by
  have heq : q.put a b = (q.addlist [(a, b)]).map fun q => { q with starve := false } := by
    simp [Queue.put, Queue.addlist, show q.enter a b = q.adopt [(a, b)] from rfl, Option.map_bind, Function.comp_def]
  rw [heq] at hs
  obtain ⟨q₁, hq, rfl⟩ := Option.map_eq_some_iff.mp hs
  exact (addlist [(a, b)] h (by simpa using hok) hq).same rfl

theorem qputback (h : Keeps q (a :: o)) (hok : b.Ok) : Keeps (q.qputback a b) o where
  queued := by
    obtain ⟨l, hl⟩ := h.queued
    exact ⟨_, hl.qputback <| fresh [(a, b)] h (by simpa using hok)⟩
  owns := h.owns.perm List.perm_middle

theorem restart (h : Keeps q o) : Keeps q.restart o :=
  h.same rfl

theorem qremove {x : Option (Addr × Block)} (h : Keeps q o) (hs : q.qremove = some (q', x)) :
    Keeps q' (x.toList.map Prod.fst ++ o) := by
  rw [Queue.qremove] at hs
  split at hs
  case h_1 => cases hs; exact h
  case h_2 a ha =>
    obtain ⟨b, hb, hs⟩ := Option.bind_eq_some_iff.mp hs
    cases hs
    exact h.unlink ha hb

theorem qget {x : Option (Addr × Block)} (h : Keeps q o) (hs : q.qget = some (q', x)) :
    Keeps q' (x.toList.map Prod.fst ++ o) := by
  rw [Queue.qget] at hs
  split at hs
  case h_1 => cases hs; exact h.same rfl
  case h_2 a ha =>
    obtain ⟨b, hb, hs⟩ := Option.bind_eq_some_iff.mp hs
    cases hs
    exact (h.unlink ha hb).restart

theorem discard (h : Keeps q o) (hs : Queue.discard fuel q n = some (q', p)) : Keeps q' o := by
  induction fuel generalizing q n p with
  | zero => contradiction
  | succ fuel ih =>
    rw [Queue.discard] at hs
    split at hs
    case isTrue => cases hs; exact h
    case isFalse =>
      split at hs
      case h_1 => cases hs; exact h
      case h_2 a ha =>
        obtain ⟨b, hb, hs⟩ := Option.bind_eq_some_iff.mp hs
        split at hs
        case isTrue =>
          obtain ⟨⟨q₁, p₁⟩, hq, hs⟩ := Option.bind_eq_some_iff.mp hs
          cases hs
          exact ih (h.unlink ha hb).freeb hq
        case isFalse hgt =>
          cases hs
          have hok : (b.skip n).Ok := (h.ok ha hb).skip (by omega)
          exact (h.set ha hb hok).same rfl

theorem qdiscard (h : Keeps q o) (hs : q.qdiscard n = some (q', p)) : Keeps q' o := by
  obtain ⟨⟨q₁, p₁⟩, hq, hs⟩ := Option.bind_eq_some_iff.mp hs
  cases hs
  exact (h.discard hq).restart

-- The blocks before the first one that is not empty are taken off, and are in the routine's hands.
theorem nonempty {x : Option (Addr × Block)} (h : Keeps q (as ++ o)) (hs : Queue.nonempty fuel q as = some (q', as', x)) :
    Keeps q' (as' ++ o) ∧ ∀ y ∈ x, q'.bfirst = some y.fst ∧ q'.get y.fst = some y.snd := by
  induction fuel generalizing q as with
  | zero => contradiction
  | succ fuel ih =>
    rw [Queue.nonempty] at hs
    split at hs
    case h_1 =>
      cases hs
      exact ⟨h.same rfl, by simp⟩
    case h_2 a ha =>
      obtain ⟨b, hb, hs⟩ := Option.bind_eq_some_iff.mp hs
      split at hs
      case isTrue =>
        cases hs
        exact ⟨h, by simp [ha, hb]⟩
      case isFalse =>
        have hu : Keeps ({ q with bfirst := q.next a, len := int32 (q.len - b.balloc) }.leave a) (a :: (as ++ o)) :=
          (h.unlink ha hb).same rfl
        exact ih hu hs

theorem empty_of_nonempty {l : List (Addr × Block)} (h : Queued q l) (hs : Queue.nonempty fuel q as = some (q', as', none)) :
    (∀ x ∈ l, x.snd.blen = 0) ∧ (l = [] → as' = as) := by
  induction fuel generalizing q l as with
  | zero => contradiction
  | succ fuel ih =>
    rw [Queue.nonempty] at hs
    rcases l with _ | ⟨⟨a, b⟩, l⟩
    · have hfirst : q.bfirst = none := h.bfirst
      rw [hfirst] at hs
      cases hs
      exact ⟨by simp, fun _ => rfl⟩
    · have hfirst : q.bfirst = some a := h.bfirst
      simp only [hfirst, h.get, Option.bind_eq_bind, Option.bind_some] at hs
      split at hs
      case isTrue => cases hs
      case isFalse hpos =>
        have hu : Queued ({ q with bfirst := q.next a, len := int32 (q.len - b.balloc) }.leave a) l := h.unlink.same rfl
        refine ⟨?_, by simp⟩
        rw [List.forall_mem_cons]
        exact ⟨by simpa using hpos, (ih hu hs).left⟩

theorem qconsume {l : List (Addr × Block)} (h : Keeps q o) (hl : Queued q l) (hne : l = [] ∨ ∃ x ∈ l, 0 < x.snd.blen)
    (hs : q.qconsume n = some (q', p)) : Keeps q' o := by
  obtain ⟨⟨q₁, as, x⟩, hq, hs⟩ := Option.bind_eq_some_iff.mp hs
  have ⟨h₁, hx⟩ := nonempty (show Keeps q ([] ++ o) from h) hq
  cases x with
  | none =>
    cases hs
    have ⟨hempty, has⟩ := empty_of_nonempty hl hq
    rcases hne with rfl | ⟨x, hx, hpos⟩
    · rw [has rfl] at h₁
      exact h₁
    · have := hempty x hx
      omega
  | some x =>
    obtain ⟨a, b⟩ := x
    have ⟨ha, hb⟩ := hx (a, b) rfl
    have hok : (b.skip (min b.blen n)).Ok := (h₁.ok ha hb).skip (Nat.min_le_left ..)
    have h₂ : Keeps { q₁.set a (b.skip (min b.blen n)) with dlen := int32 (q₁.dlen - min b.blen n) } (as ++ o) :=
      (h₁.set ha hb hok).same rfl
    dsimp only at hs
    split at hs
    case isTrue =>
      cases hs
      have hb' : ({ q₁.set a (b.skip (min b.blen n)) with dlen := int32 (q₁.dlen - min b.blen n) } : Queue).get a =
          some (b.skip (min b.blen n)) := by
        have : a ∈ q₁.live := mem_of_get hb
        simp [Queue.get, Queue.set, this]
      exact freebs (a :: as) (h₂.unlink ha hb').restart
    case isFalse =>
      cases hs
      exact freebs as h₂.restart

theorem pass (h : Keeps q (bs.map Prod.fst ++ o)) (hok : ∀ x ∈ bs, x.snd.Ok) (hs : q.pass bs = some (q', n, p)) :
    Keeps q' o := by
  obtain ⟨q₁, hq, hs⟩ := Option.bind_eq_some_iff.mp hs
  cases hs
  exact (h.addlist _ hok hq).same rfl

theorem qpassnolim (h : Keeps q (bs.map Prod.fst ++ o)) (hok : ∀ x ∈ bs, x.snd.Ok)
    (hs : q.qpassnolim bs = some (q', n, p)) : Keeps q' o := by
  rw [Queue.qpassnolim] at hs
  split at hs
  case isTrue =>
    obtain ⟨_, -, he⟩ := Option.map_eq_some_iff.mp hs
    cases he
    exact h.freebs _
  case isFalse => exact h.pass hok hs

theorem qpass (h : Keeps q (bs.map Prod.fst ++ o)) (hok : ∀ x ∈ bs, x.snd.Ok) (hs : q.qpass bs = some (q', n, p)) :
    Keeps q' o := by
  rw [Queue.qpass] at hs
  split at hs
  case isTrue =>
    cases hs
    exact h.freebs _
  case isFalse => exact h.qpassnolim hok hs

theorem allocb (h : Keeps q []) (hb : q.allocb a n = some b) (hp : p.length ≤ n) :
    Keeps (q.came a) [a] ∧ (b.fill p).Ok :=
  have ⟨hf, _⟩ := Rep.allocb_fill hb hp
  have ⟨ha, hok⟩ := hf.right _ (List.mem_singleton_self _)
  ⟨h.came ha List.not_mem_nil, hok⟩

theorem qproduce {new : Option Addr} (h : Keeps q []) (hs : q.qproduce p new = some (q', n, r)) : Keeps q' [] := by
  rw [Queue.qproduce.eq_def] at hs
  split at hs
  case isTrue => cases hs; exact h.same rfl
  case isFalse =>
    cases new with
    | none   => cases hs; exact h
    | some a =>
      obtain ⟨b, hb, hs⟩ := Option.bind_eq_some_iff.mp hs
      obtain ⟨q₁, hq, hs⟩ := Option.bind_eq_some_iff.mp hs
      cases hs
      obtain ⟨ha, hok⟩ := h.allocb hb (Nat.le_refl _)
      exact (ha.put hok hq).same rfl

theorem qbwrite (h : Keeps q [a]) (hok : b.Ok) (hs : q.qbwrite a b = some (q', r)) : Keeps q' [] := by
  rw [Queue.qbwrite] at hs
  split at hs
  case isTrue => cases hs; exact h.freeb
  case isFalse =>
    split at hs
    case isTrue => cases hs; exact h.freeb
    case isFalse =>
      obtain ⟨q₁, hq, hs⟩ := Option.bind_eq_some_iff.mp hs
      cases hs
      exact (h.put hok hq).same rfl

theorem qwrite (h : Keeps q []) (hs : q.qwrite p as = some (q', r)) : Keeps q' [] := by
  induction as generalizing q p r with
  | nil => contradiction
  | cons a as ih =>
    obtain ⟨b, hb, hs⟩ := Option.bind_eq_some_iff.mp hs
    obtain ⟨⟨q₁, w⟩, hq, hs⟩ := Option.bind_eq_some_iff.mp hs
    have ⟨ha, hok⟩ := h.allocb (p := p.take (min p.length Maxatomic)) hb (by simp)
    have h₁ := ha.qbwrite hok hq
    cases w with
    | none => cases hs; exact h₁
    | some w =>
      dsimp only at hs
      split at hs
      case isTrue =>
        obtain ⟨⟨q₂, w'⟩, hq', hs⟩ := Option.bind_eq_some_iff.mp hs
        cases hs
        exact ih h₁ hq'
      case isFalse => cases hs; exact h₁

theorem qiwrite (h : Keeps q []) (hs : q.qiwrite p as = some (q', r)) : Keeps q' [] := by
  induction as generalizing q p r with
  | nil => cases hs; exact h
  | cons a as ih =>
    obtain ⟨b, hb, hs⟩ := Option.bind_eq_some_iff.mp hs
    have ⟨ha, hok⟩ := h.allocb (p := p.take (min p.length Maxatomic)) hb (by simp)
    split at hs
    case isTrue => cases hs; exact ha.freeb
    case isFalse =>
      obtain ⟨q₁, hq, hs⟩ := Option.bind_eq_some_iff.mp hs
      have h₁ := ha.put hok hq
      split at hs
      case isTrue =>
        obtain ⟨⟨q₂, w'⟩, hq', hs⟩ := Option.bind_eq_some_iff.mp hs
        cases hs
        exact ih h₁ hq'
      case isFalse => cases hs; exact h₁

theorem qwait_ok (hs : q.qwait = (q', .ok a)) : q' = q ∧ q.bfirst = some a := by
  rw [Queue.qwait] at hs
  split at hs
  case h_1 ha => cases hs; exact ⟨rfl, ha⟩
  case h_2 => split at hs <;> cases hs

theorem qwait_error (h : Keeps q o) (hs : q.qwait = (q', .error e)) : Keeps q' o := by
  rw [Queue.qwait] at hs
  split at hs
  case h_1 => cases hs
  case h_2 => split at hs <;> cases hs <;> exact h.same rfl

theorem qbread (h : Keeps q []) (hs : q.qbread n new = some (q', r)) :
    match r with
    | .ok (a, _) => Keeps q' [a]
    | .error _   => Keeps q' [] := by
  rw [Queue.qbread] at hs
  split at hs
  case h_1 hq =>
    cases hs
    exact h.qwait_error hq
  case h_2 a hq =>
    obtain ⟨b, hb, hread⟩ := Option.bind_eq_some_iff.mp hs
    obtain ⟨rfl, ha⟩ := qwait_ok hq
    have hu := h.unlink ha hb
    dsimp only at hread
    split at hread
    case isTrue => cases hread; exact hu.restart
    case isFalse =>
      split at hread
      case isTrue => cases hread; exact hu.restart
      case isFalse =>
        obtain ⟨nb, hnb, he⟩ := Option.bind_eq_some_iff.mp hread
        cases he
        obtain ⟨hf, _⟩ := Rep.allocb_fill (p := b.bytes.drop n) hnb (by simp [Block.length_bytes])
        obtain ⟨hnew, hok⟩ := hf.right _ (List.mem_singleton_self _)
        have hne : new ≠ a := fun he => hnew (he ▸ mem_of_get hb)
        have hc := hu.came (a := new) (fun hm => hnew (List.mem_of_mem_erase hm)) (by simpa using hne)
        exact (hc.qputback hok).restart

theorem grab (h : Keeps q o) (hs : Queue.grab n fuel q k = some (q', bs)) :
    Keeps q' (bs.map Prod.fst ++ o) ∧ (∀ x ∈ bs, x.snd.Ok) ∧ (bs.length = 1 ∨ k + blocklen bs ≤ n) ∧
      ∀ a b, q.bfirst = some a → q.get a = some b → bs.head? = some (a, b) := by
  induction fuel generalizing q bs k o with
  | zero => contradiction
  | succ fuel ih =>
    obtain ⟨a, ha, hs⟩ := Option.bind_eq_some_iff.mp hs
    obtain ⟨b, hb, hs⟩ := Option.bind_eq_some_iff.mp hs
    have hok := h.ok ha hb
    have hu := h.unlink ha hb
    have hfirst : ∀ c d, q.bfirst = some c → q.get c = some d → some (a, b) = some (c, d) := by
      rintro c d hc hd
      obtain rfl := Option.some.inj (ha.symm.trans hc)
      rw [Option.some.inj (hb.symm.trans hd)]
    dsimp only at hs
    split at hs
    case h_1 => cases hs; exact ⟨hu, by simpa using hok, .inl rfl, hfirst⟩
    case h_2 a' ha' =>
      obtain ⟨b', hb', hs⟩ := Option.bind_eq_some_iff.mp hs
      split at hs
      case isTrue => cases hs; exact ⟨hu, by simpa using hok, .inl rfl, hfirst⟩
      case isFalse hfit =>
        obtain ⟨⟨q₁, bs₁⟩, hq, hs⟩ := Option.bind_eq_some_iff.mp hs
        cases hs
        obtain ⟨h₁, hok₁, hlen, hhead⟩ := ih hu hq
        refine ⟨h₁.perm List.perm_middle, List.forall_mem_cons.mpr ⟨hok, hok₁⟩, .inr ?_, hfirst⟩
        dsimp only at hlen hhead ⊢
        rw [blocklen_cons]
        rcases hlen with hone | hlen
        · obtain ⟨x, rfl⟩ := List.length_eq_one_iff.mp hone
          obtain rfl : x = (a', b') := by simpa using hhead a' b' ha' hb'
          simp only [blocklen_cons, blocklen_nil]
          omega
        · omega

theorem taken {r : Except Stop (List (Addr × Block))} (h : Keeps q o) (hs : Queue.first n fuel q = some (q', r)) :
    (∀ e, r = .error e → Keeps q' o) ∧
      ∀ bs, r = .ok bs → Keeps q' (bs.map Prod.fst ++ o) ∧ (∀ x ∈ bs, x.snd.Ok) ∧ (bs.length = 1 ∨ blocklen bs ≤ n) := by
  induction fuel generalizing q with
  | zero => contradiction
  | succ fuel ih =>
    rw [Queue.first] at hs
    split at hs
    case h_1 hq =>
      cases hs
      exact ⟨fun _ _ => h.qwait_error hq, by simp⟩
    case h_2 a hq =>
      obtain ⟨b, hb, htaken⟩ := Option.bind_eq_some_iff.mp hs
      obtain ⟨rfl, ha⟩ := qwait_ok hq
      have hu := h.unlink ha hb
      split at htaken
      case isTrue =>
        cases htaken
        refine ⟨by simp, fun bs hbs => ?_⟩
        cases hbs
        exact ⟨hu, by simpa using h.ok ha hb, .inl rfl⟩
      case isFalse =>
        split at htaken
        case isTrue => exact ih hu.freeb htaken
        case isFalse =>
          obtain ⟨⟨q₁, bs⟩, hgrab, he⟩ := Option.bind_eq_some_iff.mp htaken
          cases he
          obtain ⟨h₁, hok, hlen, -⟩ := h.grab hgrab
          refine ⟨by simp, fun bs hbs => ?_⟩
          cases hbs
          exact ⟨h₁, hok, by simpa using hlen⟩

theorem qread (h : Keeps q []) (hs : q.qread n = some (q', r)) : Keeps q' [] := by
  obtain ⟨⟨q₁, x⟩, hq, hs⟩ := Option.bind_eq_some_iff.mp hs
  have ⟨herror, htaken⟩ := h.taken hq
  cases x with
  | error e => cases hs; exact herror e rfl
  | ok bs =>
    obtain ⟨h₁, hok, hlen⟩ := htaken bs rfl
    by_cases hle : blocklen bs ≤ n
    case pos =>
      simp only [Rep.bl2mem_of_le hle] at hs
      cases hs
      exact (h₁.freebs _).restart
    case neg =>
      -- Only one block was taken, and it has more than is read.
      obtain ⟨⟨a, b⟩, rfl⟩ := List.length_eq_one_iff.mp <| hlen.resolve_right hle
      have hlt : n < b.blen := by simpa [blocklen] using hle
      simp only [Queue.bl2mem, if_pos hlt] at hs
      cases hs
      split
      case isTrue => exact (freeb h₁).restart
      case isFalse =>
        have hok : (b.skip n).Ok := (hok _ (List.mem_singleton_self _)).skip (Nat.le_of_lt hlt)
        exact (qputback h₁ hok).restart

theorem pullup (hc : Chained q ((a, b) :: l)) (ho : Owns q.trace (q.live ++ o)) (hroom : b.wp + n ≤ b.lim)
    (hs : Queue.pullup fuel q a n = some (q', r)) :
    Owns q'.trace (q'.live ++ o) ∧ (r = none → Chained q' []) ∧
      ∀ a', r = some a' → ∃ b' l', Chained q' ((a', b') :: l') := by
  induction fuel generalizing q b l n with
  | zero => contradiction
  | succ fuel ih =>
    have hok : b.Ok := (hc.blks (a, b) List.mem_cons_self).right
    have hget := hc.get List.mem_cons_self
    rw [Queue.pullup, hget] at hs
    simp only [Option.bind_eq_bind, Option.bind_some] at hs
    rcases l with _ | ⟨⟨c, d⟩, l⟩
    · have hnext : q.next a = none := hc.links.left
      rw [hnext] at hs
      cases hs
      have hl := leave ho (mem_of_get hget)
      exact ⟨(hl.perm List.perm_middle).release, fun _ => hc.leave.same rfl rfl rfl, by simp⟩
    · have hokd : d.Ok := (hc.blks (c, d) <| List.mem_cons_of_mem _ List.mem_cons_self).right
      have hnext : q.next a = some c := hc.links.left
      have hgetd := hc.get (List.mem_cons_of_mem _ List.mem_cons_self)
      simp only [hnext, hgetd, Option.bind_some] at hs
      split at hs
      case isTrue hlt =>
        cases hs
        have htake : (d.bytes.take n).length = n := by
          rw [List.length_take, d.length_bytes]
          omega
        have hfill : (b.fill (d.bytes.take n)).Ok := hok.fill (by omega)
        have h₁ := (hc.set (l := []) hfill).set (l := [(a, b.fill (d.bytes.take n))]) (hokd.skip (Nat.le_of_lt hlt))
        refine ⟨ho, by simp, fun a' ha' => ?_⟩
        cases ha'
        exact ⟨_, _, h₁⟩
      case isFalse hge =>
        have hd : d.bytes.length = d.blen := d.length_bytes
        have hfill : (b.fill d.bytes).Ok := hok.fill (by omega)
        have h₁ : Chained ((((q.set a (b.fill d.bytes)).setnext a (q.next c)).leave c).freeb c) ((a, b.fill d.bytes) :: l) :=
          (hc.set (l := []) hfill).leave_second.same rfl rfl rfl
        have ho₁ : Owns (.release c :: q.trace) (q.live.erase c ++ o) :=
          ((leave ho (mem_of_get hgetd)).perm List.perm_middle).release
        split at hs
        case isTrue =>
          cases hs
          refine ⟨ho₁, by simp, fun a' ha' => ?_⟩
          cases ha'
          exact ⟨_, _, h₁⟩
        case isFalse =>
          have hroom' : (b.fill d.bytes).wp + (n - d.blen) ≤ (b.fill d.bytes).lim := by
            simp only [Block.fill]
            omega
          exact ih h₁ ho₁ hroom' hs

theorem pullupblock (hc : Chained q ((a, b) :: l)) (ho : Owns q.trace (q.live ++ [])) (hn : ¬n ≤ b.blen)
    (hs : q.pullupblock a n new = some (q', r)) :
    Owns q'.trace (q'.live ++ []) ∧ (r = none → Chained q' []) ∧
      ∀ a', r = some a' → ∃ b' l', Chained q' ((a', b') :: l') := by
  rw [Queue.pullupblock, hc.get List.mem_cons_self] at hs
  simp only [Option.bind_eq_bind, Option.bind_some, if_neg hn] at hs
  split at hs
  case isTrue =>
    obtain ⟨nb, hnb, hs⟩ := Option.bind_eq_some_iff.mp hs
    obtain ⟨hif, he⟩ := Option.ite_none_right_eq_some.mp hnb
    obtain rfl := Option.some.inj he
    obtain ⟨hok, _, hroom⟩ := Block.allocb_ok hif.right
    have hf : q.Fresh [(new, .allocb new n)] :=
      ⟨List.nodup_singleton _, by simpa using ⟨hif.left, hok⟩⟩
    have ho₁ : Owns (.acquire new :: q.trace) (new :: (q.live ++ [])) := ho.acquire (by simpa using hif.left)
    exact pullup ((hc.same rfl rfl rfl : Chained (q.came new) _).enter hf) ho₁ hroom hs
  case isFalse hge =>
    have hok : b.Ok := (hc.blks (a, b) List.mem_cons_self).right
    have hroom : b.wp + (n - b.blen) ≤ b.lim := by
      simp only [Block.Ok, Block.blen] at *
      omega
    exact pullup hc ho hroom hs

theorem pullupqueue (h : Keeps q []) (hs : q.pullupqueue n new = some (q', r)) : Keeps q' [] := by
  obtain ⟨a, ha, hs⟩ := Option.bind_eq_some_iff.mp hs
  obtain ⟨b, hb, hs⟩ := Option.bind_eq_some_iff.mp hs
  split at hs
  case isTrue => cases hs; exact h
  case isFalse hn =>
    obtain ⟨t, hl⟩ := h.first ha hb
    obtain ⟨⟨q₁, x⟩, hq, hs⟩ := Option.bind_eq_some_iff.mp hs
    obtain ⟨ho, hnone, hsome⟩ := pullupblock hl.toChained h.owns hn hq
    cases x with
    | none =>
      cases hs
      exact ⟨⟨[], (hnone rfl).same rfl rfl rfl, rfl, fun hne => (hne rfl).elim⟩, ho⟩
    | some a' =>
      obtain ⟨b', l', hc⟩ := hsome a' rfl
      have hlast : q₁.last q₁.live.length a' = _ :=
        Rep.last hc.links (fun c hm => hc.live.mem_iff.mpr hm) (by rw [hc.length]; simp)
      simp only [hlast] at hs
      obtain ⟨z, hz, hs⟩ := Option.bind_eq_some_iff.mp hs
      cases hs
      exact ⟨⟨_, hc.same rfl rfl rfl, rfl, fun _ => hz.symm⟩, ho⟩

theorem freeblist (ho : Owns q.trace (q.live ++ o)) (hs : Queue.freeblist fuel q x = some q') :
    Owns q'.trace (q'.live ++ o) := by
  induction fuel generalizing q x with
  | zero =>
    cases x with
    | none   => exact Option.some.inj hs ▸ ho
    | some a => contradiction
  | succ fuel ih =>
    cases x with
    | none   => exact Option.some.inj hs ▸ ho
    | some a =>
      obtain ⟨b, hb, hs⟩ := Option.bind_eq_some_iff.mp hs
      exact ih ((leave ho (mem_of_get hb)).perm List.perm_middle).release hs

theorem freed (h : Keeps q []) (hq : q₁ = { q with
      bfirst := none, len := 0, dlen := 0, starve := q₁.starve, closed := q₁.closed,
      flow := q₁.flow, noblock := q₁.noblock, err := q₁.err }) :
    ∃ q', Queue.freeblist q.live.length q₁ q.bfirst = some q' ∧ Keeps q' [] ∧ q'.live = [] := by
  obtain ⟨l, hl⟩ := h.queued
  have hc : Chained q₁ l := by
    rw [hq]
    exact hl.toChained.same rfl rfl rfl
  have ho : Owns q₁.trace (q₁.live ++ []) := by
    rw [hq]
    exact h.owns
  obtain ⟨trace, hf⟩ := Rep.freeblist hc (Nat.le_of_eq hl.length.symm)
  rw [hl.bfirst, hf]
  refine ⟨_, rfl, ⟨⟨[], ⟨trivial, nofun, .refl _, .nil⟩, ?_, fun hne => (hne rfl).elim⟩, freeblist ho hf⟩, rfl⟩
  rw [hq]
  rfl

theorem qflush (h : Keeps q []) : ∃ q', q.qflush = some q' ∧ Keeps q' [] ∧ q'.live = [] :=
  h.freed rfl

theorem qclose (h : Keeps q []) : ∃ q', q.qclose = some q' ∧ Keeps q' [] ∧ q'.live = [] :=
  h.freed rfl

end Keeps

-- A queue that `qconsume` is called for is empty, or has a block that is not empty.
def Consumes (s : Stream) : Act → Prop
  | .qconsume _ => ∀ l, s.q.Has l → l = [] ∨ ∃ x ∈ l, 0 < x.snd.blen
  | _ => True

namespace Keeps

variable {s s' : Stream} {bs : List (Addr × Block)} {as : List Addr}

theorem hand {q : Queue} {x : Option (Addr × Block)} (h : Keeps q (x.toList.map Prod.fst)) : Keeps (s.hand q x).q [] := by
  cases x with
  | none   => exact h
  | some x => exact freeb h

theorem handed (h : Keeps s.q []) (hf : s.q.Fresh bs) :
    Keeps (s.q.arrived (bs.map Prod.fst)) (bs.map Prod.fst ++ []) ∧ ∀ x ∈ bs, x.snd.Ok := by
  refine ⟨h.arrived hf.left fun a ha => ?_, fun x hx => (hf.right x hx).right⟩
  obtain ⟨x, hx, rfl⟩ := List.mem_map.mp ha
  exact ⟨(hf.right x hx).left, List.not_mem_nil⟩

theorem step {act : Act} (h : Keeps s.q []) (hc : Consumes s act) (hs : step s act = some s') : Keeps s'.q [] := by
  cases act <;> simp only [Qio.step] at hs
  case qget =>
    obtain ⟨⟨q', x⟩, hq, rfl⟩ := Option.map_eq_some_iff.mp hs
    exact hand (by simpa using h.qget hq)
  case qremove =>
    obtain ⟨⟨q', x⟩, hq, rfl⟩ := Option.map_eq_some_iff.mp hs
    exact hand (by simpa using h.qremove hq)
  case qdiscard =>
    obtain ⟨⟨q', p⟩, hq, rfl⟩ := Option.map_eq_some_iff.mp hs
    exact h.qdiscard hq
  case qconsume =>
    obtain ⟨⟨q', p⟩, hq, rfl⟩ := Option.map_eq_some_iff.mp hs
    obtain ⟨l, hl⟩ := h.queued
    exact h.qconsume hl (hc l ⟨hl.bfirst, hl.links, fun x hx => (hl.blks x hx).left⟩) hq
  case qpass bs =>
    obtain ⟨hf, hs⟩ := Option.ite_none_right_eq_some.mp hs
    obtain ⟨⟨q', n, p⟩, hq, rfl⟩ := Option.map_eq_some_iff.mp hs
    obtain ⟨h₁, hok⟩ := h.handed hf
    exact h₁.qpass hok hq
  case qpassnolim bs =>
    obtain ⟨hf, hs⟩ := Option.ite_none_right_eq_some.mp hs
    obtain ⟨⟨q', n, p⟩, hq, rfl⟩ := Option.map_eq_some_iff.mp hs
    obtain ⟨h₁, hok⟩ := h.handed hf
    exact h₁.qpassnolim hok hq
  case qaddlist bs =>
    obtain ⟨hf, hs⟩ := Option.ite_none_right_eq_some.mp hs
    obtain ⟨q', hq, rfl⟩ := Option.map_eq_some_iff.mp hs
    obtain ⟨h₁, hok⟩ := h.handed hf
    exact h₁.addlist _ hok hq
  case qproduce =>
    obtain ⟨⟨q', n, p⟩, hq, rfl⟩ := Option.map_eq_some_iff.mp hs
    exact h.qproduce hq
  case pullupqueue =>
    obtain ⟨⟨q', x⟩, hq, rfl⟩ := Option.map_eq_some_iff.mp hs
    exact h.pullupqueue hq
  case qputback a b =>
    obtain ⟨hf, hs⟩ := Option.ite_none_right_eq_some.mp hs
    obtain rfl := Option.some.inj hs
    obtain ⟨h₁, hok⟩ := h.handed hf
    exact qputback h₁ (hok (a, b) (List.mem_singleton_self _))
  case qbread =>
    obtain ⟨⟨q', r⟩, hq, rfl⟩ := Option.map_eq_some_iff.mp hs
    have h₁ := h.qbread hq
    cases r with
    | error => exact h₁
    | ok x  => exact hand (x := some x) h₁
  case qread =>
    obtain ⟨⟨q', r⟩, hq, rfl⟩ := Option.map_eq_some_iff.mp hs
    have h₁ := h.qread hq
    cases r <;> exact h₁
  case qbwrite a b =>
    obtain ⟨hf, hs⟩ := Option.ite_none_right_eq_some.mp hs
    obtain ⟨⟨q', p⟩, hq, rfl⟩ := Option.map_eq_some_iff.mp hs
    obtain ⟨h₁, hok⟩ := h.handed hf
    exact qbwrite h₁ (hok (a, b) (List.mem_singleton_self _)) hq
  case qwrite =>
    obtain ⟨⟨q', p⟩, hq, rfl⟩ := Option.map_eq_some_iff.mp hs
    exact h.qwrite hq
  case qiwrite =>
    obtain ⟨⟨q', p⟩, hq, rfl⟩ := Option.map_eq_some_iff.mp hs
    exact h.qiwrite hq
  case qflush =>
    obtain ⟨q', hq, h', -⟩ := h.qflush
    rw [hq] at hs
    exact Option.some.inj hs ▸ h'
  case qclose =>
    obtain ⟨q', hq, h', -⟩ := h.qclose
    rw [hq] at hs
    exact Option.some.inj hs ▸ h'
  all_goals exact Option.some.inj hs ▸ h.same rfl

end Keeps

theorem blocks_invariant : machine.Invariant Consumes fun s => Keeps s.q [] where
  init := fun ⟨limit, msg, coalesce, hs⟩ =>
    hs ▸ ⟨⟨[], (Rep.opened limit msg coalesce).toQueued⟩, Owns.nil⟩
  step := .step

variable {s : Stream}

-- In a run where `qconsume` is not called for a queue that has only empty blocks, the blocks that are on the queue, from
-- `bfirst` to `blast`, are those that came and have not been freed or returned since, and none of these is freed or
-- returned before it comes again. When the queue is closed, each block has been freed or returned as often as it came.
theorem blocks_once (hr : machine.Reachable Consumes s) :
    (∃ l, s.q.Has l ∧ (l ≠ [] → s.q.blast = (l.map Prod.fst).getLast?) ∧ Owns s.q.trace (l.map Prod.fst)) ∧
      ∃ s', step s .qclose = some s' ∧ Owns s'.q.trace [] ∧
        ∀ a, s'.q.trace.count (.acquire a) = s'.q.trace.count (.release a) := by
  have h := blocks_invariant.holds hr
  constructor
  · obtain ⟨l, hl⟩ := h.queued
    refine ⟨l, ⟨hl.bfirst, hl.links, fun x hx => (hl.blks x hx).left⟩, hl.blast, ?_⟩
    rw [← List.append_nil (l.map Prod.fst)]
    exact h.owns.perm (hl.live.append_right [])
  · obtain ⟨q', hq, h', hlive⟩ := h.qclose
    have ho := h'.owns
    rw [hlive] at ho
    exact ⟨{ s with q := q' }, by simp [step, hq], ho, fun a => ho.count⟩

-- The rest of a block is consumed after two of three bytes were read.
def consumed : Stream :=
  (machine.step tasted <| .qconsume 5).get (by decide)

theorem blocks_once_consumed : consumed.delivered = [1, 2, 3] ∧
    (∃ l, consumed.q.Has l ∧ (l ≠ [] → consumed.q.blast = (l.map Prod.fst).getLast?) ∧
      Owns consumed.q.trace (l.map Prod.fst)) ∧
    ∃ s', step consumed .qclose = some s' ∧ Owns s'.q.trace [] ∧
      ∀ a, s'.q.trace.count (.acquire a) = s'.q.trace.count (.release a) := by
  have hr : machine.Reachable Consumes fresh := .init fresh_init
  have hr := hr.step (a := Act.qwrite [1, 2, 3] [1000]) trivial rfl
  have hr := hr.step (a := Act.qread 2) (t := tasted) trivial rfl
  refine ⟨by decide, blocks_once <| hr.step (a := Act.qconsume 5) (t := consumed) (fun l hl => ?_) rfl⟩
  rcases l with _ | ⟨⟨a, b⟩, l⟩
  · exact .inl rfl
  · obtain rfl : 1000 = a := Option.some.inj hl.bfirst
    have hb : tasted.q.blk 1000 = b := hl.blks (1000, b) List.mem_cons_self
    have hlen : 0 < (tasted.q.blk 1000).blen := by decide
    exact .inr ⟨(1000, b), List.mem_cons_self, hb ▸ hlen⟩

-- An empty block is all that the queue has.
def leaked : Stream :=
  (machine.exec fresh [.qwrite [] [1000], .qconsume 5]).get (by decide)

theorem leaked_block : machine.Reachable (fun _ _ => True) leaked ∧
    ∃ s', step leaked .qclose = some s' ∧ s'.q.trace.count (.acquire 1000) = 1 ∧ s'.q.trace.count (.release 1000) = 0 := by
  have hs : machine.exec fresh [.qwrite [] [1000], .qconsume 5] = some leaked := (Option.some_get _).symm
  exact ⟨(Machine.Reachable.init fresh_init).exec (fun _ _ _ => trivial) hs, _, rfl, by decide, by decide⟩

end Port.Qio
