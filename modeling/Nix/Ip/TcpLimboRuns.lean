import Nix.Ip.TcpLimbo

namespace Ip.TcpLimbo

variable {A : Type*} [DecidableEq A] {t t' : Tcppriv A} {l : Nat → List A} {m l' : List A} {a b : A} {h : Nat} {c : Call}
variable {seg : Tcp} {mem : Option A} {iss now scale : Nat} {sent : Bool}

namespace Table

omit [DecidableEq A] in
theorem get (ht : Table t l) (hl : l h = m ++ l') : t.get h m.getLast? = l'.head? := by
  cases m using List.reverseRecOn
  case nil => exact (ht.chains.head h).trans <| by rw [hl, List.nil_append]
  case append_singleton m p =>
    rw [List.getLast?_concat]
    have := ht.chains.next h
    rw [hl, List.append_assoc, List.singleton_append] at this
    exact this.apply_mid

omit [DecidableEq A] in
theorem mem_heap (ht : Table t l) (hl : l h = m ++ a :: l') : a ∈ t.heap :=
  (ht.mem a).mpr ⟨h, hl ▸ List.mem_append_right _ List.mem_cons_self⟩

variable (a now scale) in
theorem sndsynack (ht : Table t l) : Table (t.sndsynack a now scale) l :=
  ht.set rfl rfl

variable (now scale sent) in
theorem answer (ht : Table t l) (hl : l h = m ++ a :: l') :
    ∃ r, t.answer h m.getLast? a now scale sent = some r ∧ (∃ l, Table r.fst l) ∧
      (r.snd = true → a ∈ r.fst.heap ∧ r.fst.call a = t.call a) := by
  rw [Tcppriv.answer]
  cases sent
  case false =>
    obtain ⟨t', ht', hd⟩ := ht.drop hl
    exact ⟨(t', false), by rw [ht']; rfl, ⟨_, hd⟩, nofun⟩
  case true =>
    refine ⟨_, rfl, ⟨l, ht.sndsynack ..⟩, fun _ => ⟨ht.mem_heap hl, ?_⟩⟩
    exact congrFun (Tcppriv.set_call ..) a |>.trans <| Function.update_self ..

theorem enter_spec (t : Tcppriv A) (h : Nat) (p : Option A) (a : A) (c : Call) (seg : Tcp) (iss : Nat) :
    (t.enter h p a c seg iss).lht = (if p = none then Function.update t.lht h (some a) else t.lht) ∧
      (t.enter h p a c seg iss).next = updateAt t.next p (some a) ∧
      (t.enter h p a c seg iss).call = Function.update t.call a c ∧
      (t.enter h p a c seg iss).nlimbo = t.nlimbo ∧ (t.enter h p a c seg iss).heap = t.heap := by
  refine ⟨Tcppriv.put_lht .., ?_, ?_, Tcppriv.put_nlimbo .., Tcppriv.put_heap ..⟩
  · rw [Tcppriv.enter, Tcppriv.set_next]
    exact (Function.update_eq_self ..).trans <| Tcppriv.put_next ..
  · rw [Tcppriv.enter, Tcppriv.set_call, Tcppriv.put_call]

variable (seg iss now scale sent) in
theorem fresh (ht : Table t l) (hm : ∀ a ∈ mem, a ∉ t.heap) (hnew : ∀ b ∈ t.heap, t.call b ≠ c) :
    ∃ r, Tcppriv.limbo.fresh c seg mem iss now scale sent t c.hash (l c.hash).getLast? = some r ∧ (∃ l, Table r.fst l) ∧
      (r.snd = true → ∃ a ∈ r.fst.heap, r.fst.call a = c) := by
  cases mem
  case none => exact ⟨_, rfl, ⟨l, ht⟩, nofun⟩
  case some a =>
    have ha := hm a rfl
    let lp : Limbo A :=
      { next := none, call := c, irs := 0, iss := 0, mss := 0, rcvscale := 0, sndscale := 0, lastsend := 0, rexmits := 0 }
    have hs : Table (t.set a lp) l := ht.set_new ha lp
    have hcall {b : A} (hb : b ∈ t.heap) : (t.set a lp).call b = t.call b := by
      rw [Tcppriv.set_call, Function.update_of_ne (ne_of_mem_of_not_mem hb ha)]
    have hnil : (t.set a lp).next a = none := by rw [Tcppriv.set_next, Function.update_self]
    obtain ⟨hlht, hnext, hc, hn, hheap⟩ := enter_spec
      { t.set a lp with heap := a :: t.heap, nlimbo := t.nlimbo + 1 } c.hash (l c.hash).getLast? a c seg iss
    have he := hs.added ha hnil (fun b hb => hcall hb ▸ hnew b hb) hlht hnext hc hn (.of_eq hheap)
    obtain ⟨r, hr, hl, hcall⟩ := he.answer (h := c.hash) (m := l c.hash) (a := a) now scale sent (Function.update_self ..)
    refine ⟨r, hr, hl, fun hs => ⟨a, (hcall hs).left, (hcall hs).right.trans ?_⟩⟩
    rw [hc, Function.update_self]

variable (seg iss now scale sent) in
-- The first structure of a chain that has others behind it is used for a call for which there is none.
theorem recycled (ht : Table t l) (hl : l c.hash = a :: b :: l') (hnew : ∀ b ∈ t.heap, t.call b ≠ c) :
    let t₁ : Tcppriv A := { t with lht := Function.update t.lht c.hash (t.next a) }
    let t₂ := t₁.set a { t.lp a with next := none }
    ∃ r, (t₂.enter c.hash (l c.hash).getLast? a c seg iss).answer c.hash (l c.hash).getLast? a now scale sent = some r ∧
      (∃ l, Table r.fst l) ∧ (r.snd = true → ∃ a ∈ r.fst.heap, r.fst.call a = c) := by
  intro t₁ t₂
  have ha : a ∈ t.heap := ht.mem_heap (m := []) hl
  have hnext : t₂.next = Function.update t.next a none := Tcppriv.set_next ..
  have hcall : t₂.call = t.call := (Tcppriv.set_call ..).trans <| Function.update_eq_self ..
  -- The table without the structure.
  let t₃ : Tcppriv A := { t₂ with heap := t.heap.erase a, nlimbo := t.nlimbo - 1 }
  have h₃ : Table t₃ (Function.update l c.hash (b :: l')) :=
    ht.removed (m := []) hl rfl (fun b hb => (congrFun hnext b).trans <| Function.update_of_ne hb ..)
      (fun b _ => congrFun hcall b) rfl rfl
  have hlast : (Function.update l c.hash (b :: l') c.hash).getLast? = (l c.hash).getLast? := by
    rw [Function.update_self, hl, List.getLast?_cons_cons]
  obtain ⟨hlht, hnext', hc, hn, hheap⟩ := enter_spec t₂ c.hash (l c.hash).getLast? a c seg iss
  have he : Table (t₂.enter c.hash (l c.hash).getLast? a c seg iss) _ :=
    h₃.added (a := a) (c := c) (ht.nodup.not_mem_erase) ((congrFun hnext a).trans <| Function.update_self ..)
      (fun b hb => by
        have := hnew b (List.mem_of_mem_erase hb)
        exact (congrFun hcall b).symm ▸ this) (hlast ▸ hlht) (hlast ▸ hnext') hc
      (hn.trans (Int.sub_add_cancel ..).symm) (hheap ▸ List.perm_cons_erase ha)
  obtain ⟨r, hr, hl', hrcall⟩ := he.answer (h := c.hash) (a := a) now scale sent (Function.update_self ..)
  refine ⟨r, hlast ▸ hr, hl', fun hs => ⟨a, (hrcall hs).left, (hrcall hs).right.trans ?_⟩⟩
  rw [hc, Function.update_self]

variable (seg iss now scale sent) in
theorem limbo (ht : Table t l) (hm : ∀ a ∈ mem, a ∉ t.heap)
    (hc : t.nlimbo ≥ Maxlimbo → ∀ a ∈ t.lht c.hash, t.next a = none → t.call a = c) :
    ∃ r, t.limbo c seg mem iss now scale sent = some r ∧ (∃ l, Table r.fst l) ∧
      (r.snd = true → ∃ a ∈ r.fst.heap, r.fst.call a = c) := by
  obtain ⟨m, l', hl, hf, hcall, hnew⟩ := ht.find c
  simp only [Tcppriv.limbo, hf, Option.bind_some]
  cases l'
  case cons a l' =>
    have ha : t.call a = c := hcall a rfl
    have hs : Table (t.set a { t.lp a with irs := seg.seq }) l := ht.set rfl rfl
    obtain ⟨r, hr, hl, hcall⟩ := hs.answer now scale sent hl
    refine ⟨r, hr, hl, fun hs => ⟨a, (hcall hs).left, (hcall hs).right.trans ?_⟩⟩
    exact (congrFun (Tcppriv.set_call ..) a).trans <| (Function.update_self ..).trans ha
  case nil =>
    have hnew := hnew rfl
    rw [List.append_nil] at hl
    subst hl
    have hhead := ht.chains.head c.hash
    simp only [List.head?_nil]
    cases hlc : l c.hash
    case nil =>
      have hhead : t.lht c.hash = none := by rw [hhead, hlc, List.head?_nil]
      have := ht.fresh seg iss now scale sent hm hnew
      rw [hlc] at this
      simpa only [hhead] using this
    case cons a rest =>
      have hhead : t.lht c.hash = some a := by rw [hhead, hlc, List.head?_cons]
      simp only [hhead]
      split
      case isFalse => exact hlc ▸ ht.fresh _ _ _ _ _ hm hnew
      case isTrue hfull =>
        cases rest
        case nil =>
          have hnext : t.next a = none := (hlc ▸ ht.chains.next c.hash).left
          exact absurd (hc hfull a hhead hnext) (hnew a <| ht.mem_heap (m := []) hlc)
        case cons b rest =>
          have := ht.recycled seg iss now scale sent hlc hnew
          rw [hlc] at this
          exact this

variable (now scale) in
theorem rexmitchain (sent : Nat → Bool) (k seen : Nat) (ht : Table t l) (hl : l h = m ++ l') :
    ∃ r, Tcppriv.rexmitchain now scale sent h k m.getLast? seen t = some r ∧ ∃ l, Table r.snd l := by
  induction k generalizing t l m l' seen
  case zero => exact ⟨_, rfl, l, ht⟩
  case succ k ih =>
    rw [Tcppriv.rexmitchain, ht.get hl]
    cases l'
    case nil => exact ⟨_, rfl, l, ht⟩
    case cons a l' =>
      have hs (rexmits : Nat) : Table (t.set a { t.lp a with rexmits }) l := ht.set rfl rfl
      have hdrop (rexmits : Nat) : ∃ r,
          (((t.set a { t.lp a with rexmits }).drop h m.getLast? a).free a).bind
            (Tcppriv.rexmitchain now scale sent h k m.getLast? (seen + 1)) = some r ∧ ∃ l, Table r.snd l := by
        obtain ⟨t', ht', hd⟩ := (hs rexmits).drop hl
        rw [ht', Option.bind_some]
        exact ih _ hd <| Function.update_self ..
      simp only [List.head?_cons]
      split
      case isFalse => exact ⟨_, rfl, l, ht⟩
      case isTrue =>
        split
        case isTrue => exact ih _ ht hl
        case isFalse =>
          split
          case isTrue => exact hdrop _
          case isFalse =>
            split
            case isTrue => exact ih _ (hs _) hl
            case isFalse =>
              split
              case isTrue =>
                have hl : l h = (m ++ [a]) ++ l' := by rw [hl, List.append_assoc, List.singleton_append]
                have hsent := (hs (((t.lp a).rexmits + 1) % 256)).sndsynack a now scale
                have := ih (seen + 1) hsent hl
                rwa [List.getLast?_concat] at this
              case isFalse => exact hdrop _

theorem limborexmit {sent : Nat → Bool} (ht : Table t l) :
    ∃ t', t.limborexmit now scale sent = some t' ∧ ∃ l, Table t' l := by
  have hfold (hs : List Nat) : ∀ s : Nat × Tcppriv A, (∃ l, Table s.snd l) → ∃ r,
      hs.foldlM (fun (s : Nat × Tcppriv A) h =>
        Tcppriv.rexmitchain now scale sent h s.snd.nlimbo.toNat none s.fst s.snd) s = some r ∧ ∃ l, Table r.snd l := by
    induction hs
    case nil => exact fun s hs => ⟨s, rfl, hs⟩
    case cons h hs ih =>
      rintro ⟨seen, t⟩ ⟨l, ht⟩
      obtain ⟨r, hr, hl⟩ := ht.rexmitchain now scale sent t.nlimbo.toNat seen (List.nil_append (l h)).symm
      rw [List.foldlM_cons]
      exact (congrArg (· >>= _) hr).symm ▸ ih r hl
  obtain ⟨r, hr, hl⟩ := hfold (List.range NLHT) (0, t) ⟨l, ht⟩
  exact ⟨r.snd, by rw [Tcppriv.limborexmit, hr]; rfl, hl⟩

theorem limborst (ht : Table t l) : ∃ t', t.limborst c seg = some t' ∧ ∃ l, Table t' l := by
  obtain ⟨m, l', hl, hf, hcall, hnew⟩ := ht.find c
  simp only [Tcppriv.limborst, hf, Option.bind_some]
  cases l'
  case nil => exact ⟨t, rfl, l, ht⟩
  case cons a l' =>
    simp only [List.head?_cons]
    split
    case isTrue =>
      obtain ⟨t', ht', hd⟩ := ht.drop hl
      exact ⟨t', ht', _, hd⟩
    case isFalse => exact ⟨t, rfl, l, ht⟩

-- A structure that is taken out for a new conversation is freed where there is one.
theorem tcpincoming {newcall : Bool} (ht : Table t l)
    (hc : newcall ∨ ∀ a ∈ t.heap, t.call a = c → ¬((seg.SYN = false ∧ seg.ACK = true) ∧
      seg.seq = ((t.lp a).irs + 1) % 2 ^ 32 ∧ seg.ack = ((t.lp a).iss + 1) % 2 ^ 32)) :
    ∃ r, t.tcpincoming c seg newcall = some r ∧ ∃ l, Table r.fst l := by
  obtain ⟨m, l', hl, hf, hcall, hnew⟩ := ht.find c
  simp only [Tcppriv.tcpincoming, hf, Option.bind_some]
  split
  case isTrue => exact ⟨_, rfl, l, ht⟩
  case isFalse hflags =>
    cases l'
    case nil => exact ⟨_, rfl, l, ht⟩
    case cons a l' =>
      simp only [List.head?_cons]
      split
      case isTrue => exact ⟨_, rfl, l, ht⟩
      case isFalse hseq =>
        obtain ⟨t', ht', hd⟩ := ht.drop hl
        rcases hc with hc | hc
        · rw [if_pos hc, ht']
          exact ⟨_, rfl, _, hd⟩
        · have := hc a (ht.mem_heap hl) (hcall a rfl)
          simp only [not_or, Bool.not_eq_true, not_not] at hflags hseq
          exact absurd ⟨by simpa using hflags, hseq⟩ this

end Table

-- The condition on the calls. A table that is full has not only one structure in the chain of a new call, and there
-- can be a conversation for each call that leaves it.
def Act.Meets (t : Tcppriv A) : Act A → Prop
  | .limbo c _ _ _ _ _ _     => t.nlimbo ≥ Maxlimbo → ∀ a ∈ t.lht c.hash, t.next a = none → t.call a = c
  | .tcpincoming c seg newcall =>
    newcall ∨ ∀ a ∈ t.heap, t.call a = c → ¬((seg.SYN = false ∧ seg.ACK = true) ∧
      seg.seq = ((t.lp a).irs + 1) % 2 ^ 32 ∧ seg.ack = ((t.lp a).iss + 1) % 2 ^ 32)
  | _ => True

def empty (lp : A → Limbo A) : Tcppriv A where
  lht _  := none
  lp     := lp
  nlimbo := 0
  heap   := []

-- What is reached by calls that meet the condition.
inductive Reached : Tcppriv A → Prop
  | empty (lp : A → Limbo A) : Reached (empty lp)
  | step {t t' : Tcppriv A} {act : Act A} (h : Reached t) (hf : act.Fits t) (hm : act.Meets t) (hs : step t act = some t') :
    Reached t'

-- The table as it should be. `l` lists the structures of each chain.
structure Sound (t : Tcppriv A) (l : Nat → List A) : Prop where
  chains : ∀ h, t.lht h = (l h).head? ∧ Follows t.next (l h)
  nlimbo : t.nlimbo = ((List.range NLHT).flatMap l).length
  place  : ∀ h, ∀ a ∈ l h, (t.call a).hash = h
  one    : ∀ h, ∀ a ∈ l h, ∀ h', ∀ b ∈ l h', t.call a = t.call b → a = b
  nodup  : ((List.range NLHT).flatMap l).Nodup
  freed  : ∀ a, a ∈ t.heap ↔ a ∈ (List.range NLHT).flatMap l

theorem Table.step {act : Act A} (ht : Table t l) (hf : act.Fits t) (hm : act.Meets t) :
    ∃ t', step t act = some t' ∧ ∃ l, Table t' l := by
  cases act
  case limbo c seg mem iss now scale sent =>
    obtain ⟨r, hr, hl, -⟩ := ht.limbo seg iss now scale sent hf hm
    exact ⟨r.fst, by rw [TcpLimbo.step, hr]; rfl, hl⟩
  case limborexmit now scale sent => exact ht.limborexmit
  case limborst c seg => exact ht.limborst
  case tcpincoming c seg newcall =>
    obtain ⟨r, hr, hl⟩ := ht.tcpincoming hm
    exact ⟨r.fst, by rw [TcpLimbo.step, hr]; rfl, hl⟩

theorem Reached.table (h : Reached t) : ∃ l, Table t l := by
  induction h
  case empty lp =>
    refine ⟨fun _ => [], ⟨fun _ => rfl, fun _ => rfl, fun _ => trivial, fun _ => .nil, nofun⟩, rfl, .nil, ?_, nofun, nofun⟩
    exact fun a => ⟨nofun, nofun⟩
  case step hf hm hs ih =>
    obtain ⟨l, ht⟩ := ih
    obtain ⟨t', ht', hl⟩ := ht.step hf hm
    obtain rfl := Option.some.inj (ht'.symm.trans hs)
    exact hl

omit [DecidableEq A] in
theorem Table.sound (ht : Table t l) : Sound t l := by
  have hmem (a : A) : a ∈ (List.range NLHT).flatMap l ↔ a ∈ t.heap := by
    rw [ht.mem, List.mem_flatMap]
    constructor
    · rintro ⟨h, -, ha⟩
      exact ⟨h, ha⟩
    · rintro ⟨h, ha⟩
      exact ⟨h, List.mem_range.mpr <| ht.place h a ha ▸ Nat.mod_lt _ (by decide), ha⟩
  have hnodup : ((List.range NLHT).flatMap l).Nodup := by
    refine List.nodup_flatMap.mpr ⟨fun h _ => ht.chains.nodup h, List.nodup_range.imp fun hne => ?_⟩
    exact fun a ha hb => hne <| ht.chains.disjoint ha hb
  constructor
  case chains => exact fun h => ⟨ht.chains.head h, ht.chains.next h⟩
  case nlimbo => rw [ht.nlimbo, ((List.perm_ext_iff_of_nodup hnodup ht.nodup).mpr hmem).length_eq]
  case place => exact ht.place
  case one => exact fun h a ha h' b hb => ht.one a ((ht.mem a).mpr ⟨h, ha⟩) b ((ht.mem b).mpr ⟨h', hb⟩)
  case nodup => exact hnodup
  case freed => exact fun a => (hmem a).symm

-- The table stays as it should be as long as each call meets the condition. Each of them returns then without
-- freeing anything twice, and a call for which a SYN ACK was sent is in the table.
theorem limbo_table (h : Reached t) :
    (∃ l, Sound t l) ∧ (∀ act : Act A, act.Fits t → act.Meets t → (step t act).isSome) ∧
      ∀ c seg mem iss now scale sent t', (Act.limbo c seg mem iss now scale sent).Fits t →
        (Act.limbo c seg mem iss now scale sent : Act A).Meets t →
        t.limbo c seg mem iss now scale sent = some (t', true) → ∃ a ∈ t'.heap, t'.call a = c := by
  obtain ⟨l, ht⟩ := h.table
  refine ⟨⟨l, ht.sound⟩, fun act hf hm => ?_, fun c seg mem iss now scale sent t' hf hm hl => ?_⟩
  · obtain ⟨t', ht', -⟩ := ht.step hf hm
    exact ht' ▸ rfl
  · obtain ⟨r, hr, -, hcall⟩ := ht.limbo seg iss now scale sent hf hm
    obtain rfl := Option.some.inj (hr.symm.trans hl)
    exact hcall rfl

-- A call and the segments with which it comes and is accepted.
def call : Call where
  laddr   := fun _ => 0
  raddr   := fun _ => 1
  lport   := 80
  rport   := 1000
  version := .V4

def syn : Tcp where
  seq := 7
  ack := 0
  SYN := true
  ACK := false
  mss := 1460
  ws  := 0

def ack : Tcp where
  seq := 8
  ack := 101
  SYN := false
  ACK := true
  mss := 0
  ws  := 0

def blank : Limbo Nat where
  next     := none
  call     := call
  irs      := 0
  iss      := 0
  mss      := 0
  rcvscale := 0
  sndscale := 0
  lastsend := 0
  rexmits  := 0

def called : Option (Tcppriv Nat) :=
  step (empty fun _ => blank) (.limbo call syn (some 0) 100 0 0 true)

theorem limbo_table_called : ∃ t, called = some t ∧ (∃ l, Sound t l) ∧ t.nlimbo = 1 := by
  obtain ⟨t, ht⟩ := Option.isSome_iff_exists.mp (by decide : called.isSome)
  have h : Reached t := @Reached.step _ _ _ _ (.limbo call syn (some 0) 100 0 0 true) (.empty fun _ => blank)
    (fun _ _ => List.not_mem_nil) (fun h => absurd h (by decide)) ht
  refine ⟨t, ht, (limbo_table h).left, ?_⟩
  have : called.map Tcppriv.nlimbo = some 1 := by decide
  simpa [ht] using this

-- The structure of a call is taken out of the table for a conversation that cannot be had, and is not freed.
theorem tcpincoming_leak :
    ∃ t t', called = some t ∧ step t (.tcpincoming call ack false) = some t' ∧ ¬∃ l, Sound t' l := by
  obtain ⟨t, ht⟩ := Option.isSome_iff_exists.mp (by decide : called.isSome)
  have hs : (called.bind fun t => step t (.tcpincoming call ack false)).map
      (fun t => decide (t.heap = [0] ∧ ∀ h < NLHT, t.lht h = none)) = some true := by decide +kernel
  rw [ht, Option.bind_some] at hs
  obtain ⟨t', ht', hd⟩ := Option.map_eq_some_iff.mp hs
  obtain ⟨hheap, hlht⟩ := of_decide_eq_true hd
  refine ⟨t, t', ht, ht', fun ⟨l, h⟩ => ?_⟩
  obtain ⟨k, hk, hm⟩ := List.mem_flatMap.mp <| (h.freed 0).mp <| by rw [hheap]; exact List.mem_cons_self
  have hnil : l k = [] := by
    rw [← List.head?_eq_none_iff, ← (h.chains k).left]
    exact hlht k <| List.mem_range.mp hk
  rw [hnil] at hm
  contradiction

end Ip.TcpLimbo
