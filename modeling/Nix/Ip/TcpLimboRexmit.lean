import Nix.Ip.TcpLimboRuns

namespace Ip.TcpLimbo

variable {A : Type*}

-- What a scan comes to that cannot go past an entry that is not due, along with whether it is gone then, and the counts
-- of what was looked at and of what is left.
def scan (due : A → Bool) (gone : A → Nat → Bool) : List A → Nat → Nat → List (A × Bool) × Nat × Nat
  | [], seen, n     => ([], seen, n)
  | a :: l, seen, n =>
    if seen < n then
      if due a then
        let r := scan due gone l (seen + 1) (if gone a seen then n - 1 else n)
        ((a, gone a seen) :: r.fst, r.snd)
      else
        ([], n, n)
    else
      ([], seen, n)

-- How many of the entries are gone after the scan came to all of them.
def losses (gone : A → Nat → Bool) : List A → Nat → Nat
  | [], _        => 0
  | a :: l, seen => (if gone a seen then 1 else 0) + losses gone l (seen + 1)

section Scan

variable {due : A → Bool} {gone : A → Nat → Bool} {l m : List A} {a : A} {seen n : Nat}

theorem scan_stop (h : n ≤ seen) : scan due gone l seen n = ([], seen, n) := by
  cases l
  case nil => rfl
  case cons => rw [scan, if_neg (Nat.not_lt.mpr h)]

theorem scan_due (h : seen < n) (hd : due a = true) :
    scan due gone (a :: l) seen n =
      ((a, gone a seen) :: (scan due gone l (seen + 1) (if gone a seen then n - 1 else n)).fst,
        (scan due gone l (seen + 1) (if gone a seen then n - 1 else n)).snd) := by
  rw [scan, if_pos h, if_pos hd]

theorem scan_waiting (h : seen < n) (hd : due a = false) : scan due gone (a :: l) seen n = ([], n, n) := by
  rw [scan, if_pos h, hd]
  rfl

theorem scan_again (h : seen < n) (hd : due a = false) :
    scan due gone (a :: l) (seen + 1) n = scan due gone (a :: l) seen n := by
  rw [scan_waiting h hd]
  by_cases h' : seen + 1 < n
  case pos => exact scan_waiting h' hd
  case neg =>
    obtain rfl : n = seen + 1 := by omega
    exact scan_stop (Nat.le_refl _)

theorem scan_le (l : List A) (seen n : Nat) : (scan due gone l seen n).snd.snd ≤ n := by
  induction l generalizing seen n
  case nil => exact Nat.le_refl _
  case cons a l hi =>
    rw [scan]
    split
    case isTrue =>
      split
      case isTrue =>
        refine (hi ..).trans ?_
        split <;> omega
      case isFalse => exact Nat.le_refl _
    case isFalse => exact Nat.le_refl _

theorem scan_append (l m : List A) (seen n : Nat) :
    scan due gone (l ++ m) seen n =
      ((scan due gone l seen n).fst ++
          (scan due gone m (scan due gone l seen n).snd.fst (scan due gone l seen n).snd.snd).fst,
        (scan due gone m (scan due gone l seen n).snd.fst (scan due gone l seen n).snd.snd).snd) := by
  induction l generalizing seen n
  case nil => rfl
  case cons a l hi =>
    by_cases h : seen < n
    case neg =>
      have hstop (l : List A) : scan due gone l seen n = ([], seen, n) := scan_stop (by omega)
      rw [hstop, hstop]
      exact (hstop m).symm
    case pos =>
      cases hd : due a
      case false =>
        rw [List.cons_append, scan_waiting h hd, scan_waiting h hd, scan_stop (Nat.le_refl _), List.nil_append]
      case true => rw [List.cons_append, scan_due h hd, scan_due h hd, hi, List.cons_append]

-- The scan comes to an entry if all before it are due and it was not ended by the count of them.
theorem mem_scan {b : Bool} :
    (a, b) ∈ (scan due gone l seen n).fst ↔ ∃ m m', l = m ++ a :: m' ∧ (∀ c ∈ m, due c = true) ∧ due a = true ∧
      seen + m.length + losses gone m seen < n ∧ b = gone a (seen + m.length) := by
  induction l generalizing seen n
  case nil => simp [scan]
  case cons d l hi =>
    have hcons : (∃ m m', d :: l = m ++ a :: m' ∧ (∀ c ∈ m, due c = true) ∧ due a = true ∧
        seen + m.length + losses gone m seen < n ∧ b = gone a (seen + m.length)) ↔
        (d = a ∧ due a = true ∧ seen < n ∧ b = gone a seen) ∨
          due d = true ∧ seen < n ∧ ∃ m m', l = m ++ a :: m' ∧ (∀ c ∈ m, due c = true) ∧ due a = true ∧
            seen + 1 + m.length + losses gone m (seen + 1) < (if gone d seen then n - 1 else n) ∧
            b = gone a (seen + 1 + m.length) := by
      constructor
      · rintro ⟨m, m', hl, hm, hd, hlt, hb⟩
        cases m
        case nil =>
          obtain ⟨rfl, -⟩ := List.cons.inj hl
          exact .inl ⟨rfl, hd, by simpa [losses] using hlt, hb⟩
        case cons c m =>
          obtain ⟨rfl, hl'⟩ := List.cons.inj hl
          rw [List.forall_mem_cons] at hm
          rw [List.length_cons, losses] at hlt
          rw [List.length_cons, ← Nat.add_assoc, Nat.add_right_comm] at hb
          refine .inr ⟨hm.left, by omega, m, m', hl', hm.right, hd, ?_, hb⟩
          split at hlt
          case isTrue hg => rw [if_pos hg]; omega
          case isFalse hg => rw [if_neg hg]; omega
      · rintro (⟨rfl, hd, hlt, hb⟩ | ⟨hd, hseen, m, m', hl, hm, ha, hlt, hb⟩)
        · exact ⟨[], l, rfl, nofun, hd, by simpa [losses] using hlt, hb⟩
        · refine ⟨d :: m, m', by rw [hl, List.cons_append], List.forall_mem_cons.mpr ⟨hd, hm⟩, ha, ?_, ?_⟩
          · rw [List.length_cons, losses]
            split at hlt
            case isTrue hg => rw [if_pos hg]; omega
            case isFalse hg => rw [if_neg hg]; omega
          · rw [List.length_cons, ← Nat.add_assoc, Nat.add_right_comm]
            exact hb
    rw [hcons]
    by_cases h : seen < n
    case neg =>
      rw [scan_stop (by omega)]
      simp [h]
    case pos =>
      cases hd : due d
      case false =>
        rw [scan_waiting h hd]
        constructor
        · exact nofun
        · rintro (⟨rfl, ha, -⟩ | ⟨hno, -⟩)
          · exact nomatch hd.symm.trans ha
          · contradiction
      case true =>
        rw [scan_due h hd, List.mem_cons, hi, Prod.mk.injEq]
        constructor
        · rintro (⟨rfl, rfl⟩ | hm)
          · exact .inl ⟨rfl, hd, h, rfl⟩
          · exact .inr ⟨rfl, h, hm⟩
        · rintro (⟨rfl, -, -, hb⟩ | ⟨-, -, hm⟩)
          · exact .inl ⟨rfl, hb⟩
          · exact .inr hm

end Scan

-- An entry without the link, which changes with the entries around it.
def Limbo.body (lp : Limbo A) : Limbo A :=
  { lp with next := none }

theorem Limbo.of_body {lp lp' : Limbo A} (h : lp'.body = lp.body) : ∃ next, lp' = { lp with next } := by
  cases lp
  cases lp'
  simp only [body, mk.injEq, true_and] at h
  obtain ⟨rfl, rfl, rfl, rfl, rfl, rfl, rfl, rfl⟩ := h
  exact ⟨_, rfl⟩

namespace Tcppriv

variable {t t' t'' : Tcppriv A} {now scale : Nat} {sent : Nat → Bool} {a b : A} {seen : Nat} {v v' : List (A × Bool)}

-- The retransmission time of an entry has come.
def due (t : Tcppriv A) (now : Nat) (a : A) : Bool :=
  ¬ (now + 2 ^ 32 - (t.lp a).lastsend) % 2 ^ 32 < ((t.lp a).rexmits + 1) * SYNACK_RXTIMER

-- Its retransmissions are used up, or none can be sent.
def gone (t : Tcppriv A) (sent : Nat → Bool) (a : A) (seen : Nat) : Bool :=
  ((t.lp a).rexmits + 1) % 256 > 5 ∨ sent seen = false

-- An entry whose SYN ACK was sent again.
def resent (t : Tcppriv A) (now scale : Nat) (a : A) : Limbo A :=
  { t.lp a with
    rexmits  := ((t.lp a).rexmits + 1) % 256
    sndscale := if (t.lp a).rcvscale ≠ 0 then scale else 0
    lastsend := now }

theorem due_congr (h : (t'.lp a).body = (t.lp a).body) (now : Nat) : t'.due now a = t.due now a := by
  obtain ⟨next, hn⟩ := Limbo.of_body h
  rw [due, due, hn]

theorem gone_congr (h : (t'.lp a).body = (t.lp a).body) (sent : Nat → Bool) (seen : Nat) :
    t'.gone sent a seen = t.gone sent a seen := by
  obtain ⟨next, hn⟩ := Limbo.of_body h
  rw [gone, gone, hn]

theorem resent_congr (h : (t'.lp a).body = (t.lp a).body) (now scale : Nat) :
    (t'.resent now scale a).body = (t.resent now scale a).body := by
  obtain ⟨next, hn⟩ := Limbo.of_body h
  rw [resent, resent, hn]
  rfl

-- What became of the entries that were looked at, `v` tells which of them are gone, and of the others.
structure Rexmits (t t' : Tcppriv A) (now scale : Nat) (v : List (A × Bool)) : Prop where
  heap  : ∀ a, a ∈ t'.heap ↔ a ∈ t.heap ∧ (a, true) ∉ v
  sent  : ∀ a, (a, true) ∉ v → (a, false) ∈ v → (t'.lp a).body = (t.resent now scale a).body
  other : ∀ a, a ∉ v.map Prod.fst → (t'.lp a).body = (t.lp a).body

theorem Rexmits.refl (t : Tcppriv A) (now scale : Nat) : t.Rexmits t now scale [] where
  heap _    := (and_iff_left List.not_mem_nil).symm
  sent      := nofun
  other _ _ := rfl

theorem mem_fst {b : Bool} (hm : (a, b) ∈ v) : a ∈ v.map Prod.fst :=
  List.mem_map_of_mem hm

theorem Rexmits.trans (h : t.Rexmits t' now scale v) (h' : t'.Rexmits t'' now scale v')
    (hdis : ∀ a ∈ v.map Prod.fst, a ∉ v'.map Prod.fst) : t.Rexmits t'' now scale (v ++ v') := by
  constructor
  case heap =>
    intro a
    rw [h'.heap, h.heap, List.mem_append, not_or, and_assoc]
  case sent =>
    intro a hno hm
    rw [List.mem_append, not_or] at hno
    rcases List.mem_append.mp hm with hm | hm
    · rw [h'.other a (hdis a <| mem_fst hm)]
      exact h.sent a hno.left hm
    · rw [h'.sent a hno.right hm]
      exact resent_congr (h.other a fun hv => hdis a hv <| mem_fst hm) now scale
  case other =>
    intro a hno
    rw [List.map_append, List.mem_append, not_or] at hno
    exact (h'.other a hno.right).trans <| h.other a hno.left

end Tcppriv

variable [DecidableEq A] {t t' : Tcppriv A} {l : Nat → List A} {m l' : List A} {a b : A} {h seen k n : Nat}
variable {now scale : Nat} {sent : Nat → Bool} {due : A → Bool} {gone : A → Nat → Bool}

omit [DecidableEq A] in
theorem mem_of_scan {l : List A} (hm : a ∈ (scan due gone l seen n).fst.map Prod.fst) : a ∈ l := by
  obtain ⟨⟨a, b⟩, hv, rfl⟩ := List.mem_map.mp hm
  obtain ⟨m, m', rfl, -⟩ := mem_scan.mp hv
  exact List.mem_append_right _ List.mem_cons_self

namespace Tcppriv

theorem body_put (t : Tcppriv A) (h : Nat) (l v : Option A) (b : A) : ((t.put h l v).lp b).body = (t.lp b).body := by
  cases l
  case none => rfl
  case some p =>
    by_cases hb : b = p
    case pos =>
      have hself : (t.put h (some p) v).lp p = { t.lp p with next := v } := Function.update_self ..
      rw [hb, hself]
      rfl
    case neg => exact congrArg Limbo.body <| Function.update_of_ne hb ..

theorem lp_set_of_ne (t : Tcppriv A) (lp : Limbo A) (h : b ≠ a) : (t.set a lp).lp b = t.lp b :=
  Function.update_of_ne h ..

end Tcppriv

namespace Table

theorem lose (ht : Table t l) (hl : l h = m ++ a :: l') (now scale rexmits : Nat) :
    ∃ t', ((t.set a { t.lp a with rexmits }).drop h m.getLast? a).free a = some t' ∧
      Table t' (Function.update l h (m ++ l')) ∧ t'.nlimbo = t.nlimbo - 1 ∧ t.Rexmits t' now scale [(a, true)] := by
  have hs : Table (t.set a { t.lp a with rexmits }) l := ht.set rfl rfl
  have hheap : ((t.set a { t.lp a with rexmits }).drop h m.getLast? a).heap = t.heap := Tcppriv.put_heap ..
  obtain ⟨t', ht', hd⟩ := hs.drop hl
  have heq := ht'
  rw [Tcppriv.free, if_pos (by rw [hheap]; exact ht.mem_heap hl)] at heq
  cases heq
  refine ⟨_, ht', hd, rfl, ?_, fun b hno hb => ?_, fun b hb => ?_⟩
  · intro b
    have hmem : b ∈ ((t.set a { t.lp a with rexmits }).drop h m.getLast? a).heap.erase a ↔ b ≠ a ∧ b ∈ t.heap := by
      rw [hheap]
      exact ht.nodup.mem_erase_iff
    rw [List.mem_singleton, Prod.mk.injEq, and_iff_left rfl, and_comm]
    exact hmem
  · simp at hb
  · have hne : b ≠ a := fun he => hb <| he ▸ List.mem_singleton_self a
    have hput := Tcppriv.body_put (t.set a { t.lp a with rexmits }) h m.getLast?
      ((t.set a { t.lp a with rexmits }).next a) b
    rw [Tcppriv.lp_set_of_ne _ _ hne] at hput
    exact hput

theorem again (ht : Table t l) (ha : a ∈ t.heap) (now scale : Nat) :
    Table ((t.set a { t.lp a with rexmits := ((t.lp a).rexmits + 1) % 256 }).sndsynack a now scale) l ∧
      t.Rexmits ((t.set a { t.lp a with rexmits := ((t.lp a).rexmits + 1) % 256 }).sndsynack a now scale) now scale
        [(a, false)] := by
  have hs : Table (t.set a { t.lp a with rexmits := ((t.lp a).rexmits + 1) % 256 }) l := ht.set rfl rfl
  refine ⟨hs.sndsynack a now scale, fun b => ?_, fun b hno hb => ?_, fun b hb => ?_⟩
  · simp [Tcppriv.sndsynack, Tcppriv.set]
  · obtain rfl : b = a := by simpa using hb
    simp [Tcppriv.sndsynack, Tcppriv.set, Tcppriv.resent]
  · have hne : b ≠ a := fun he => hb <| he ▸ List.mem_singleton_self a
    rw [Tcppriv.sndsynack, Tcppriv.lp_set_of_ne _ _ hne, Tcppriv.lp_set_of_ne _ _ hne]

theorem rexmitchain_scan (k seen now scale : Nat) (ht : Table t l) (hl : l h = m ++ l') (hn : t.nlimbo = n)
    (hle : n ≤ 100) (hk : n ≤ seen + k)
    (hdue : ∀ b ∈ l', t.due now b = due b) (hgone : ∀ b ∈ l', ∀ i, t.gone sent b i = gone b i) :
    ∃ t' l'', t.rexmitchain now scale sent h k m.getLast? seen = some ((scan due gone l' seen n).snd.fst, t') ∧
      Table t' l'' ∧ (∀ j ≠ h, l'' j = l j) ∧ t'.nlimbo = (scan due gone l' seen n).snd.snd ∧
      t.Rexmits t' now scale (scan due gone l' seen n).fst := by
  induction k generalizing t l m l' seen n
  case zero =>
    rw [scan_stop (by omega)]
    exact ⟨t, l, rfl, ht, fun _ _ => rfl, hn, .refl ..⟩
  case succ k ih =>
    rw [Tcppriv.rexmitchain, ht.get hl]
    cases l'
    case nil => exact ⟨t, l, rfl, ht, fun _ _ => rfl, hn, .refl ..⟩
    case cons a l' =>
      have hd := hdue a List.mem_cons_self
      have hg := hgone a List.mem_cons_self seen
      have ha : a ∉ l' := by
        have hnodup := ht.chains.nodup h
        rw [hl] at hnodup
        exact (List.nodup_cons.mp (List.nodup_append.mp hnodup).right.left).left
      -- The scan goes on behind an entry that it came to.
      have hgo {t₁ : Tcppriv A} {l₁ : Nat → List A} {m₁ : List A} {n₁ : Nat} (b : Bool) (ht₁ : Table t₁ l₁)
          (hl₁ : l₁ h = m₁ ++ l') (ho : ∀ j ≠ h, l₁ j = l j) (hn₁ : t₁.nlimbo = n₁) (hle₁ : n₁ ≤ 100)
          (hk₁ : n₁ ≤ seen + 1 + k) (hr : t.Rexmits t₁ now scale [(a, b)]) :
          ∃ t' l'', t₁.rexmitchain now scale sent h k m₁.getLast? (seen + 1) =
            some ((scan due gone l' (seen + 1) n₁).snd.fst, t') ∧ Table t' l'' ∧ (∀ j ≠ h, l'' j = l j) ∧
              t'.nlimbo = (scan due gone l' (seen + 1) n₁).snd.snd ∧
              t.Rexmits t' now scale ((a, b) :: (scan due gone l' (seen + 1) n₁).fst) := by
        have hbody (c : A) (hc : c ∈ l') : (t₁.lp c).body = (t.lp c).body :=
          hr.other c fun hm => ha <| by
            obtain rfl : c = a := List.mem_singleton.mp hm
            exact hc
        obtain ⟨t', l'', hr', ht', ho', hn', hrex⟩ := ih (seen + 1) ht₁ hl₁ hn₁ hle₁ hk₁
          (fun c hc => (Tcppriv.due_congr (hbody c hc) now).trans <| hdue c <| List.mem_cons_of_mem _ hc)
          fun c hc i => (Tcppriv.gone_congr (hbody c hc) sent i).trans <| hgone c (List.mem_cons_of_mem _ hc) i
        refine ⟨t', l'', hr', ht', fun j hj => (ho' j hj).trans (ho j hj), hn', hr.trans hrex fun c hc hm => ?_⟩
        obtain rfl : c = a := List.mem_singleton.mp hc
        exact ha <| mem_of_scan hm
      have hdrop (hseen : seen < n) (b : gone a seen = true) (rexmits : Nat) :
          ∃ t' l'', (((t.set a { t.lp a with rexmits }).drop h m.getLast? a).free a).bind
            (Tcppriv.rexmitchain now scale sent h k m.getLast? (seen + 1)) =
              some ((scan due gone l' (seen + 1) (n - 1)).snd.fst, t') ∧ Table t' l'' ∧ (∀ j ≠ h, l'' j = l j) ∧
                t'.nlimbo = (scan due gone l' (seen + 1) (n - 1)).snd.snd ∧
                t.Rexmits t' now scale ((a, true) :: (scan due gone l' (seen + 1) (n - 1)).fst) := by
        obtain ⟨t₁, h₁, ht₁, hn₁, hr₁⟩ := ht.lose hl now scale rexmits
        rw [h₁, Option.bind_some]
        exact hgo true ht₁ (Function.update_self ..) (fun j hj => Function.update_of_ne hj ..) (by omega) (by omega)
          (by omega) hr₁
      simp only [List.head?_cons]
      split
      case isFalse hseen =>
        rw [scan_stop (by omega)]
        exact ⟨t, l, rfl, ht, fun _ _ => rfl, hn, .refl ..⟩
      case isTrue hseen =>
        have hseen : seen < n := by omega
        split
        case isTrue hno =>
          have hd : due a = false := by rw [← hd, Tcppriv.due]; simpa using hno
          rw [← scan_again hseen hd]
          exact ih (seen + 1) ht hl hn hle (by omega) hdue hgone
        case isFalse hyes =>
          have hd : due a = true := by rw [← hd, Tcppriv.due]; simpa using hyes
          rw [scan_due hseen hd]
          split
          case isTrue hused =>
            have hg : gone a seen = true := by rw [← hg, Tcppriv.gone]; simp [hused]
            rw [hg, if_pos rfl]
            exact hdrop hseen hg _
          case isFalse hleft =>
            have hmany : ¬ (t.set a { t.lp a with rexmits := ((t.lp a).rexmits + 1) % 256 }).nlimbo > 100 := by
              have : (t.set a { t.lp a with rexmits := ((t.lp a).rexmits + 1) % 256 }).nlimbo = n := hn
              omega
            rw [if_neg hmany]
            split
            case isTrue hsent =>
              have hg : gone a seen = false := by rw [← hg, Tcppriv.gone]; simp [hleft, hsent]
              have hl : l h = (m ++ [a]) ++ l' := by rw [hl, List.append_assoc, List.singleton_append]
              have ha : a ∈ t.heap := ht.mem_heap (by rw [hl, List.append_assoc, List.singleton_append])
              obtain ⟨ht₁, hr₁⟩ := ht.again ha now scale
              have := hgo false ht₁ hl (fun _ _ => rfl) hn hle (by omega) hr₁
              rw [List.getLast?_concat] at this
              rw [hg]
              exact this
            case isFalse hsent =>
              have hg : gone a seen = true := by rw [← hg, Tcppriv.gone]; simp [hsent]
              rw [hg, if_pos rfl]
              exact hdrop hseen hg _

theorem chains_scan (seen now scale : Nat) (due : A → Bool) (gone : A → Nat → Bool) (ht : Table t l) {hs : List Nat}
    (hnodup : hs.Nodup) (hn : t.nlimbo = n) (hle : n ≤ 100)
    (hdue : ∀ b ∈ hs.flatMap l, t.due now b = due b) (hgone : ∀ b ∈ hs.flatMap l, ∀ i, t.gone sent b i = gone b i) :
    ∃ r l', hs.foldlM (fun (s : Nat × Tcppriv A) h =>
        Tcppriv.rexmitchain now scale sent h s.snd.nlimbo.toNat none s.fst s.snd) (seen, t) = some r ∧ Table r.snd l' ∧
      t.Rexmits r.snd now scale (scan due gone (hs.flatMap l) seen n).fst := by
  induction hs generalizing t l seen n
  case nil => exact ⟨(seen, t), l, rfl, ht, .refl ..⟩
  case cons h hs ih =>
    obtain ⟨hnot, hnodup⟩ := List.nodup_cons.mp hnodup
    rw [List.flatMap_cons] at hdue hgone ⊢
    have hdis {a : A} (ha : a ∈ l h) (hm : a ∈ hs.flatMap l) : False := by
      obtain ⟨j, hj, haj⟩ := List.mem_flatMap.mp hm
      exact hnot <| ht.chains.disjoint ha haj ▸ hj
    have htoNat : t.nlimbo.toNat = n := by omega
    obtain ⟨t₁, l₁, h₁, ht₁, ho, hn₁, hr₁⟩ := rexmitchain_scan (m := []) t.nlimbo.toNat seen now scale ht rfl hn hle
      (by omega) (fun b hb => hdue b <| List.mem_append_left _ hb) fun b hb => hgone b <| List.mem_append_left _ hb
    have hflat : hs.flatMap l₁ = hs.flatMap l := by
      rw [List.flatMap_def, List.flatMap_def, List.map_congr_left fun j hj => ho j fun he => hnot <| he ▸ hj]
    have hbody (b : A) (hb : b ∈ hs.flatMap l) : (t₁.lp b).body = (t.lp b).body :=
      hr₁.other b fun hm => hdis (mem_of_scan hm) hb
    obtain ⟨r, l', hr, ht', hr'⟩ := ih (scan due gone (l h) seen n).snd.fst ht₁ hnodup hn₁
      ((scan_le ..).trans hle)
      (fun b hb => by
        rw [hflat] at hb
        rw [Tcppriv.due_congr (hbody b hb)]
        exact hdue b <| List.mem_append_right _ hb)
      fun b hb i => by
        rw [hflat] at hb
        rw [Tcppriv.gone_congr (hbody b hb)]
        exact hgone b (List.mem_append_right _ hb) i
    rw [hflat] at hr'
    refine ⟨r, l', ?_, ht', ?_⟩
    · rw [List.foldlM_cons]
      exact (congrArg (· >>= _) h₁).trans hr
    · rw [scan_append]
      exact hr₁.trans hr' fun a ha hm => hdis (mem_of_scan ha) (mem_of_scan hm)

end Table

-- What a call of `limborexmit` is to do: each entry whose time has come is gone or was sent again, it is gone if its
-- retransmissions are used up, and the others stay as they are.
structure Complete (t t' : Tcppriv A) (now scale : Nat) : Prop where
  due   : ∀ a ∈ t.heap, t.due now a = true →
    a ∉ t'.heap ∨ a ∈ t'.heap ∧ (t'.lp a).body = (t.resent now scale a).body
  used  : ∀ a ∈ t.heap, t.due now a = true → 5 < ((t.lp a).rexmits + 1) % 256 → a ∉ t'.heap
  other : ∀ a ∈ t.heap, t.due now a = false → a ∈ t'.heap ∧ (t'.lp a).body = (t.lp a).body

-- The condition. In the order of the scan no entry that is due comes behind one that is not, or behind so many that
-- the scan is at its end: those that were looked at and those that are gone by then.
def Timely (t : Tcppriv A) (l : Nat → List A) (now : Nat) (sent : Nat → Bool) : Prop :=
  ∀ m a m', (List.range NLHT).flatMap l = m ++ a :: m' → t.due now a = true →
    (∀ b ∈ m, t.due now b = true) ∧ m.length + losses (t.gone sent) m 0 < t.heap.length

theorem Reached.call {c : Call} {seg : Tcp} {mem : Option A} {iss : Nat} {sent : Bool} (h : Reached t)
    (hn : t.nlimbo < Maxlimbo) (hmem : ∀ a ∈ mem, a ∉ t.heap)
    (hs : TcpLimbo.step t (.limbo c seg mem iss now scale sent) = some t') : Reached t' :=
  @Reached.step _ _ _ _ (.limbo c seg mem iss now scale sent) h hmem (fun hge => absurd hn (not_lt.mpr hge)) hs

-- A call that comes again while another waits behind it in its chain.
def again : Option (Tcppriv Nat) :=
  called.bind fun t =>
    (step t (.limbo { call with rport := 1256 } syn (some 1) 100 0 0 true)).bind fun t =>
      step t (.limbo call syn none 100 200 0 true)

end Ip.TcpLimbo
