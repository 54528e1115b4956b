import Nix.Port.Procalarm

namespace Port.Procalarm

variable {s s' : State} {p q l f v : Proc} {pre rest rest' xs : List Proc} {n when old now : Nat} {a : Alarm}
  {as : List Alarm} {k k' : Kpc} {r : Record}

-- The process whose link is after `pre`.
def Last (pre : List Proc) (l : Proc) : Prop :=
  pre = [] ∧ l = nil ∨ ∃ xs, pre = xs ++ [l] ∧ l ≠ nil

theorem Last.mem (h : Last pre l) (hl : l ≠ nil) : l ∈ pre := by
  rcases h with ⟨-, h⟩ | ⟨xs, rfl, -⟩
  · exact absurd h hl
  · exact List.mem_append_right _ List.mem_cons_self

namespace State

theorem goto_pc_self {pc : Pc} : (s.goto p pc).pc p = pc :=
  Function.update_self ..

theorem goto_pc_of_ne {pc : Pc} (h : q ≠ p) : (s.goto p pc).pc q = s.pc q :=
  Function.update_of_ne h ..

@[simp]
theorem store_alarm : (s.store l v).alarm = s.alarm := by
  rw [store]
  split <;> rfl

@[simp]
theorem store_pc : (s.store l v).pc = s.pc := by
  rw [store]
  split <;> rfl

@[simp]
theorem store_kpc : (s.store l v).kpc = s.kpc := by
  rw [store]
  split <;> rfl

@[simp]
theorem store_lock : (s.store l v).lock = s.lock := by
  rw [store]
  split <;> rfl

theorem store_palarm_of_ne (h : l ≠ nil → q ≠ l) : (s.store l v).palarm q = s.palarm q := by
  rw [store]
  split
  case isTrue     => rfl
  case isFalse hl => exact Function.update_of_ne (h hl) ..

-- A link that is not of these.
theorem chain_store (h : Chain s.palarm nil f rest) (hl : l ≠ nil → l ∉ rest) :
    Chain (s.store l v).palarm nil f rest :=
  h.congr fun _ hq => (store_palarm_of_ne fun hne => ne_of_mem_of_not_mem hq (hl hne)).symm

end State

theorem Last.store (hl : Last pre l) (h : Chain s.palarm nil s.head (pre ++ rest))
    (hv : Chain (s.store l v).palarm nil v rest') :
    Chain (s.store l v).palarm nil (s.store l v).head (pre ++ rest') := by
  rcases hl with ⟨rfl, rfl⟩ | ⟨xs, rfl, hne⟩
  · exact hv
  · rw [State.store, if_neg hne] at hv ⊢
    rw [List.append_assoc] at h ⊢
    have hnd := List.nodup_append.mp h.nodup
    exact h.relink (fun hmem => hnd.right.right l hmem l List.mem_cons_self rfl) hv

-- Where a process is in the list when it looks at `f`. It is the only one that need not be there.
structure At (s : State) (p l f : Proc) (pre rest : List Proc) : Prop where
  chain  : Chain s.palarm nil s.head (pre ++ rest)
  here   : Chain s.palarm nil f rest
  last   : Last pre l
  mem    : ∀ q, q ≠ p → s.alarm q ≠ 0 → q ∈ pre ++ rest
  sorted : (pre ++ rest).Pairwise s.Le

theorem Listed.at (h : Listed s xs) : At s p nil s.head [] xs where
  chain  := h.chain
  here   := h.chain
  last   := .inl ⟨rfl, rfl⟩
  mem    := fun q _ => h.mem q
  sorted := h.sorted

namespace At

theorem nodup (h : At s p l f pre rest) : (pre ++ rest).Nodup :=
  h.chain.nodup

theorem next (h : At s p l f pre rest) (hf : f ≠ nil) :
    ∃ rest', rest = f :: rest' ∧ At s p f (s.palarm f) (pre ++ [f]) rest' := by
  obtain ⟨rest', rfl, hrest⟩ := h.here.pop hf
  refine ⟨rest', rfl, ?_, hrest, .inr ⟨pre, rfl, hf⟩, ?_, ?_⟩ <;> rw [List.append_assoc]
  · exact h.chain
  · exact h.mem
  · exact h.sorted

theorem unlink (h : At s p l p pre rest) (hp : p ≠ nil) :
    ∃ rest', p ∉ pre ++ rest' ∧ At ((s.store l (s.palarm p)).start p when old) p nil
      (s.store l (s.palarm p)).head [] (pre ++ rest') := by
  obtain ⟨rest', rfl, hrest⟩ := h.here.pop hp
  have hnd := h.nodup
  have hmiddle := List.nodup_middle.mp hnd
  have hnot : p ∉ pre ++ rest' := (List.nodup_cons.mp hmiddle).left
  have hl (hne : l ≠ nil) : l ∉ rest' := fun hmem => by
    have := (List.nodup_append.mp hmiddle.of_cons).right.right
    exact this l (h.last.mem hne) l hmem rfl
  have hchain := h.last.store h.chain (State.chain_store (v := s.palarm p) hrest hl)
  refine ⟨rest', hnot, ?_, ?_, .inl ⟨rfl, rfl⟩, fun q hne hq => ?_, ?_⟩
  · exact hchain.update hnot nil
  · exact hchain.update hnot nil
  · rw [State.start, State.goto, State.store_alarm] at hq
    have hmem := h.mem q hne hq
    rw [List.nil_append]
    simpa [hne] using hmem
  · have hle : ((s.store l (s.palarm p)).start p when old).Le = s.Le := by
      unfold State.Le State.start State.goto
      rw [State.store_alarm]
    rw [List.nil_append, hle]
    exact h.sorted.sublist ((List.sublist_cons_self p rest').append_left pre)

theorem later (h : At s p l f pre rest) (hf : f = nil ∨ s.alarm f > when) : ∀ q ∈ rest, s.alarm q ≠ 0 → when < s.alarm q := by
  cases rest
  case nil => simp
  case cons g rest =>
    obtain ⟨rfl, hne, -⟩ := h.here
    have hlt := hf.resolve_left hne
    have hle := (List.pairwise_cons.mp (List.pairwise_append.mp h.sorted).right.left).left
    refine List.forall_mem_cons.mpr ⟨fun _ => hlt, fun q hq hq0 => hlt.trans_le (hle q hq ?_ hq0)⟩
    exact (Nat.zero_le when).trans_lt hlt |>.ne'

-- It is not there.
theorem start (h : At s p l nil pre rest) : rest = [] ∧ (p ∉ pre → At (s.start p when old) p nil s.head [] pre) := by
  obtain rfl : rest = [] := by
    cases rest
    case nil      => rfl
    case cons q _ => exact absurd h.here.left.symm h.here.right.left
  have hchain := h.chain
  have hmem := h.mem
  have hsorted := h.sorted
  rw [List.append_nil] at hchain hmem hsorted
  exact ⟨rfl, fun hp => ⟨hchain.update hp nil, hchain.update hp nil, .inl ⟨rfl, rfl⟩, hmem, hsorted⟩⟩

-- It puts itself between those whose alarms are not later, and those whose are.
theorem link (h : At s p l f pre rest) (hp : p ≠ nil) (hnot : p ∉ pre ++ rest) (hpre : ∀ q ∈ pre, s.alarm q ≤ when)
    (hrest : ∀ q ∈ rest, s.alarm q ≠ 0 → when < s.alarm q) {t : State}
    (ht : t = { s with palarm := Function.update s.palarm p f }.store l p) :
    Listed { t with alarm := Function.update t.alarm p when, lock := none } (pre ++ p :: rest) := by
  obtain ⟨hnpre, hnrest⟩ := not_or.mp fun hmem => hnot (List.mem_append.mpr hmem)
  have halarm : t.alarm = s.alarm := by rw [ht, State.store_alarm]
  have hne (hl : l ≠ nil) : p ≠ l := fun heq => hnpre (heq ▸ h.last.mem hl)
  have hlrest (hl : l ≠ nil) : l ∉ rest := fun hmem => (List.nodup_append.mp h.nodup).right.right l (h.last.mem hl) l hmem rfl
  have hhere : Chain t.palarm nil (t.palarm p) rest := by
    rw [ht, State.store_palarm_of_ne hne]
    dsimp only
    rw [Function.update_self]
    exact State.chain_store (h.here.update hnrest f) hlrest
  refine ⟨?_, fun q hq => ?_, ?_⟩
  · subst ht
    exact h.last.store (h.chain.update hnot f) ⟨rfl, hp, hhere⟩
  · dsimp only at hq
    by_cases heq : q = p
    · simp [heq]
    · rw [Function.update_of_ne heq, halarm] at hq
      have := h.mem q heq hq
      simp only [List.mem_append, List.mem_cons] at this ⊢
      tauto
  · have hother (q) (hq : q ∈ pre ++ rest) : Function.update t.alarm p when q = s.alarm q := by
      rw [Function.update_of_ne (ne_of_mem_of_not_mem hq hnot), halarm]
    have hself : Function.update t.alarm p when p = when := Function.update_self ..
    have hold : (pre ++ rest).Pairwise
        (State.Le { t with alarm := Function.update t.alarm p when, lock := none }) := by
      refine h.sorted.imp_of_mem fun hx hy hle => ?_
      unfold State.Le
      dsimp only
      rw [hother _ hx, hother _ hy]
      exact hle
    obtain ⟨h₁, h₂, h₃⟩ := List.pairwise_append.mp hold
    refine List.pairwise_append.mpr ⟨h₁, List.pairwise_cons.mpr ⟨fun q hq => ?_, h₂⟩, fun x hx q hq => ?_⟩
    · unfold State.Le
      dsimp only
      rw [hself, hother q (List.mem_append_right _ hq)]
      exact fun _ hne => (hrest q hq hne).le
    · rcases List.mem_cons.mp hq with rfl | hq
      · unfold State.Le
        dsimp only
        rw [hself, hother x (List.mem_append_left _ hx)]
        exact fun _ _ => hpre x hx
      · exact h₃ x hx q hq

end At

theorem clear_le (s : State) (x q : Proc) : Function.update s.alarm x 0 q ≤ s.alarm q := by
  by_cases h : q = x
  · simp [h]
  · rw [Function.update_of_ne h]

theorem clear_eq {x : Proc} (h : Function.update s.alarm x 0 q ≠ 0) : Function.update s.alarm x 0 q = s.alarm q :=
  Function.update_of_ne (fun heq => by simp [heq] at h) ..

theorem State.Le.clear (h : s.Le p q) (x : Proc) : State.Le { s with alarm := Function.update s.alarm x 0 } p q := by
  intro hp hq
  dsimp only at hp hq ⊢
  have hpeq := clear_eq hp
  have hqeq := clear_eq hq
  rw [hpeq] at hp ⊢
  rw [hqeq] at hq ⊢
  exact h hp hq

theorem Listed.congr (h : Listed s xs) (halarm : s'.alarm = s.alarm) (hpalarm : s'.palarm = s.palarm)
    (hhead : s'.head = s.head) : Listed s' xs where
  chain  := hpalarm ▸ hhead ▸ h.chain
  mem    := halarm ▸ h.mem
  sorted := by
    unfold State.Le
    rw [halarm]
    exact h.sorted

theorem At.congr (h : At s p l f pre rest) (halarm : s'.alarm = s.alarm) (hpalarm : s'.palarm = s.palarm)
    (hhead : s'.head = s.head) : At s' p l f pre rest where
  chain  := hpalarm ▸ hhead ▸ h.chain
  here   := hpalarm ▸ h.here
  last   := h.last
  mem    := halarm ▸ h.mem
  sorted := by
    unfold State.Le
    rw [halarm]
    exact h.sorted

theorem Listed.clear (h : Listed s xs) (x : Proc) : Listed { s with alarm := Function.update s.alarm x 0 } xs where
  chain  := h.chain
  mem q hq := h.mem q (clear_eq hq ▸ hq)
  sorted := h.sorted.imp fun hle => hle.clear x

theorem At.clear (h : At s p l f pre rest) (x : Proc) :
    At { s with alarm := Function.update s.alarm x 0 } p l f pre rest where
  chain  := h.chain
  here   := h.here
  last   := h.last
  mem q hne hq := h.mem q hne (clear_eq hq ▸ hq)
  sorted := h.sorted.imp fun hle => hle.clear x

-- What is so while a process has the lock.
def Held (s : State) (p : Proc) : Pc → Prop
  | .unlink _ _ l f  => ∃ pre rest, At s p l f pre rest ∧ p ∉ pre
  | .scan when _ l f => ∃ pre rest, At s p l f pre rest ∧ p ∉ pre ++ rest ∧ ∀ q ∈ pre, s.alarm q ≤ when
  | .link when _ l f => ∃ pre rest, At s p l f pre rest ∧ p ∉ pre ++ rest ∧ (∀ q ∈ pre, s.alarm q ≤ when) ∧
    ∀ q ∈ rest, s.alarm q ≠ 0 → when < s.alarm q
  | _                => False

theorem Held.congr {pc : Pc} (h : Held s p pc) (halarm : s'.alarm = s.alarm) (hpalarm : s'.palarm = s.palarm)
    (hhead : s'.head = s.head) : Held s' p pc := by
  cases pc
  case unlink =>
    obtain ⟨pre, rest, hat, hp⟩ := h
    exact ⟨pre, rest, hat.congr halarm hpalarm hhead, hp⟩
  case scan =>
    obtain ⟨pre, rest, hat, hp, hpre⟩ := h
    exact ⟨pre, rest, hat.congr halarm hpalarm hhead, hp, halarm ▸ hpre⟩
  case link =>
    obtain ⟨pre, rest, hat, hp, hpre, hrest⟩ := h
    exact ⟨pre, rest, hat.congr halarm hpalarm hhead, hp, halarm ▸ hpre, halarm ▸ hrest⟩
  all_goals exact h

theorem Held.clear {pc : Pc} (h : Held s p pc) (x : Proc) :
    Held { s with alarm := Function.update s.alarm x 0 } p pc := by
  cases pc
  case unlink =>
    obtain ⟨pre, rest, hat, hp⟩ := h
    exact ⟨pre, rest, hat.clear x, hp⟩
  case scan =>
    obtain ⟨pre, rest, hat, hp, hpre⟩ := h
    exact ⟨pre, rest, hat.clear x, hp, fun q hq => (clear_le s x q).trans (hpre q hq)⟩
  case link =>
    obtain ⟨pre, rest, hat, hp, hpre, hrest⟩ := h
    refine ⟨pre, rest, hat.clear x, hp, fun q hq => (clear_le s x q).trans (hpre q hq), fun q hq hne => ?_⟩
    have heq := clear_eq hne
    dsimp only at hne ⊢
    rw [heq] at hne ⊢
    exact hrest q hq hne
  all_goals exact h

-- What is so of the alarms that a process has set, where `n` is the one that it has.
structure Told (n : Nat) (k : Kpc) (p : Proc) (as : List Alarm) : Prop where
  posts : ∀ a ∈ as, a.posts ≤ 1 ∧ ∀ n ∈ a.ended, a.posts = n
  old   : ∀ a ∈ as.tail, a.ended ≠ none
  alarm : n ≠ 0 → ∃ a ∈ as.head?, a.ended = none ∧ (a.posts = 0 ∨ ∃ now, k = .clear now p)
  waits : ∀ a ∈ as.head?, a.ended = none → a.posts = 0 → n = a.when ∧ a.when ≠ 0
  clear : ∀ now, k = .clear now p → ∀ a ∈ as.head?, a.ended = none → a.posts = 1
  post  : ∀ now, k = .post now p → n ≠ 0

namespace Told

theorem nil (h : ∀ now, k ≠ .post now p) : Told 0 k p [] :=
  ⟨by simp, by simp, fun h => absurd rfl h, by simp, by simp, fun now hk => absurd hk (h now)⟩

theorem kpc (h : Told n k p as) (hk : ∀ now, k ≠ .clear now p) (hk' : ∀ now, k' ≠ .clear now p)
    (hpost : ∀ now, k' = .post now p → n ≠ 0) : Told n k' p as where
  posts := h.posts
  old   := h.old
  alarm hn := by
    obtain ⟨a, ha, hover, hposts⟩ := h.alarm hn
    exact ⟨a, ha, hover, .inl (hposts.resolve_right fun ⟨now, hc⟩ => hk now hc)⟩
  waits := h.waits
  clear := fun now hc => absurd hc (hk' now)
  post  := hpost

theorem stop_posts (h : ∀ a ∈ as, a.posts ≤ 1 ∧ ∀ n ∈ a.ended, a.posts = n) :
    ∀ a ∈ as.modifyHead .stop, a.posts ≤ 1 ∧ ∀ n ∈ a.ended, a.posts = n := by
  cases as
  case nil       => simp
  case cons a as =>
    obtain ⟨⟨hle, hover⟩, has⟩ := List.forall_mem_cons.mp h
    refine List.forall_mem_cons.mpr ⟨⟨hle, fun n hn => ?_⟩, has⟩
    obtain rfl := Option.some.inj hn
    cases ho : a.ended
    case none   => rfl
    case some m => exact hover m ho

theorem stop_ended (h : ∀ a ∈ as.tail, a.ended ≠ none) : ∀ a ∈ as.modifyHead .stop, a.ended ≠ none := by
  cases as
  case nil       => simp
  case cons a as => exact List.forall_mem_cons.mpr ⟨by simp [Alarm.stop], h⟩

-- The alarm is cancelled,
theorem stop (h : Told n k p as) (hk : ∀ now, k ≠ .post now p) : Told 0 k p (as.modifyHead .stop) where
  posts := stop_posts h.posts
  old a ha  := stop_ended h.old a (List.mem_of_mem_tail ha)
  alarm h0  := absurd rfl h0
  waits a ha ho := absurd ho (stop_ended h.old a (List.mem_of_mem_head? ha))
  clear _ _ a ha ho := absurd ho (stop_ended h.old a (List.mem_of_mem_head? ha))
  post now hpost := absurd hpost (hk now)

-- or replaced.
theorem push (h : Told n k p as) (hpost : ∀ now, k ≠ .post now p) (hclear : ∀ now, k ≠ .clear now p) (h0 : when ≠ 0) :
    Told when k p (⟨when, 0, none⟩ :: as.modifyHead .stop) where
  posts := List.forall_mem_cons.mpr ⟨⟨Nat.zero_le _, by simp⟩, stop_posts h.posts⟩
  old   := stop_ended h.old
  alarm _ := ⟨_, rfl, rfl, .inl rfl⟩
  waits a ha _ _ := by
    obtain rfl := Option.some.inj ha
    exact ⟨rfl, h0⟩
  clear now hc := absurd hc (hclear now)
  post now hc := absurd hc (hpost now)

theorem posted (h : Told n (.post now p) p as) : Told n (.clear now p) p (as.modifyHead .post) := by
  obtain ⟨a, ha, hover, hposts⟩ := h.alarm (h.post now rfl)
  have hposts := hposts.resolve_right (by simp)
  cases as
  case nil => cases ha
  case cons b as =>
    obtain rfl := Option.some.inj ha
    obtain ⟨-, has⟩ := List.forall_mem_cons.mp h.posts
    refine ⟨List.forall_mem_cons.mpr ⟨?_, has⟩, h.old, fun _ => ⟨_, rfl, hover, .inr ⟨now, rfl⟩⟩, ?_, ?_, by simp⟩
    · simp [Alarm.post, hposts, hover]
    · simp [Alarm.post]
    · simp [Alarm.post, hposts]

theorem cleared (h : Told n (.clear now p) p as) : Told 0 (.pop now p) p as where
  posts := h.posts
  old   := h.old
  alarm h0 := absurd rfl h0
  waits a ha ho hposts := by
    rw [h.clear now rfl a ha ho] at hposts
    cases hposts
  clear := by simp
  post  := by simp

-- All but the last are over.
theorem head (h : Told n k p as) (ha : a ∈ as) (hover : a.ended = none) : a ∈ as.head? := by
  have hold := h.old
  cases as
  case nil       => cases ha
  case cons b as =>
    rcases List.mem_cons.mp ha with rfl | ha
    · rfl
    · exact absurd hover (hold a ha)

end Told

-- Whether the lock is held.
def Pc.holds : Pc → Bool
  | .unlink .. | .scan .. | .link .. => true
  | _                                => false

def Kpc.holds : Kpc → Bool
  | .woken | .want _ | .asleep => false
  | _                          => true

-- The process at the head of the list, where that has been read.
def Kpc.rp : Kpc → Option Proc
  | .due _ rp | .post _ rp | .clear _ rp | .pop _ rp => some rp
  | _                                                => none

theorem Kpc.holds_of_rp (h : k.rp = some p) : k.holds = true := by
  cases k <;> first | rfl | cases h

-- What holds all along.
structure Good (s : State) (r : Record) : Prop where
  list : (∀ p, s.lock ≠ some (.proc p)) → ∃ l, Listed s l
  held : ∀ p, s.lock = some (.proc p) → Held s p (s.pc p)
  pc   : ∀ p, (s.pc p).holds = true → s.lock = some (.proc p)
  kpc  : s.kpc.holds = true → s.lock = some .kproc
  rp   : ∀ rp, s.kpc.rp = some rp → s.head = rp ∧ rp ≠ nil
  pop  : ∀ now rp, s.kpc = .pop now rp → s.alarm rp = 0
  call : ∀ p, (∀ old, s.pc p ≠ .idle old) → p ≠ nil
  told : ∀ p, Told (s.alarm p) s.kpc p (r p)

namespace Good

variable {pc : Pc} {lock : Option Who}

theorem kpc_of_proc (h : Good s r) (hl : s.lock = some (.proc p)) : s.kpc.holds = false ∧ s.kpc.rp = none := by
  have hk : s.kpc.holds = false := Bool.eq_false_iff.mpr fun hk => by
    rw [h.kpc hk] at hl
    cases hl
  exact ⟨hk, Option.eq_none_iff_forall_ne_some.mpr fun rp hrp => by simp [Kpc.holds_of_rp hrp] at hk⟩

theorem goto (h : Good s r) (hpc : (s.pc p).holds = false) (hpc' : pc.holds = false) (hp : p ≠ nil) :
    Good (s.goto p pc) r where
  list hno := (h.list hno).imp fun _ hl => hl.congr rfl rfl rfl
  held q hq := by
    have hheld := h.held q hq
    have hne : q ≠ p := fun heq => by
      subst heq
      cases hpq : s.pc q <;> rw [hpq] at hheld hpc <;> first | exact hheld | cases hpc
    rw [State.goto_pc_of_ne hne]
    exact hheld.congr rfl rfl rfl
  pc q hq := by
    by_cases hne : q = p
    · rw [hne, State.goto_pc_self, hpc'] at hq
      cases hq
    · rw [State.goto_pc_of_ne hne] at hq
      exact h.pc q hq
  kpc  := h.kpc
  rp   := h.rp
  pop  := h.pop
  call q hq := by
    by_cases hne : q = p
    · exact hne ▸ hp
    · rw [State.goto_pc_of_ne hne] at hq
      exact h.call q hq
  told := h.told

theorem within (h : Good s r) (hl : s.lock = some (.proc p)) (hl' : s'.lock = s.lock) (halarm : s'.alarm = s.alarm)
    (hkpc : s'.kpc = s.kpc) (hpc : ∀ q, q ≠ p → s'.pc q = s.pc q) (hheld : Held s' p (s'.pc p)) : Good s' r where
  list hno := absurd (hl'.trans hl) (hno p)
  held q hq := by
    obtain rfl : q = p := by
      rw [hl', hl] at hq
      exact (Who.proc.inj (Option.some.inj hq)).symm
    exact hheld
  pc q hq := by
    by_cases hne : q = p
    · rw [hl', hl, hne]
    · rw [hpc q hne] at hq
      exact hl'.trans (h.pc q hq)
  kpc hk := by
    rw [hkpc, (h.kpc_of_proc hl).left] at hk
    cases hk
  rp rp hrp := by
    rw [hkpc, (h.kpc_of_proc hl).right] at hrp
    cases hrp
  pop now rp hpop := by
    have := (h.kpc_of_proc hl).left
    rw [← hkpc, hpop] at this
    cases this
  call q hq := by
    by_cases hne : q = p
    · refine hne ▸ h.call p fun old hidle => ?_
      have := h.held p hl
      rw [hidle] at this
      exact this
    · exact h.call q fun old => hpc q hne ▸ hq old
  told q := by
    rw [halarm, hkpc]
    exact h.told q

theorem kgoto (h : Good s r) (hlock : lock = s.lock ∨ (∀ p, s.lock ≠ some (.proc p)) ∧ ∀ p, lock ≠ some (.proc p))
    (hk : k.holds = true → lock = some .kproc) (hrp : ∀ rp, k.rp = some rp → s.head = rp ∧ rp ≠ nil)
    (hpop : ∀ now rp, k = .pop now rp → s.alarm rp = 0) (hclear : ∀ now p, s.kpc ≠ .clear now p)
    (hclear' : ∀ now p, k ≠ .clear now p) (hpost : ∀ now p, k = .post now p → s.alarm p ≠ 0) :
    Good { s with lock := lock, kpc := k } r where
  list hno := by
    rcases hlock with rfl | ⟨hno', -⟩
    · exact (h.list hno).imp fun _ hl => hl.congr rfl rfl rfl
    · exact (h.list hno').imp fun _ hl => hl.congr rfl rfl rfl
  held p hp := by
    rcases hlock with rfl | ⟨-, hno⟩
    · exact (h.held p hp).congr rfl rfl rfl
    · exact absurd hp (hno p)
  pc p hp := by
    rcases hlock with rfl | ⟨hno, -⟩
    · exact h.pc p hp
    · exact absurd (h.pc p hp) (hno p)
  kpc  := hk
  rp   := hrp
  pop  := hpop
  call := h.call
  told p := (h.told p).kpc (fun now => hclear now p) (fun now => hclear' now p) fun now => hpost now p

theorem cancel (h : Good s r) (hpc : (s.pc p).holds = false) (hp : p ≠ nil) (hk : s.kpc.posting ≠ some p) :
    Good ({ s with alarm := Function.update s.alarm p 0 }.goto p (.idle old))
      (Function.update r p ((r p).modifyHead .stop)) := by
  have hclear : Good { s with alarm := Function.update s.alarm p 0 } (Function.update r p ((r p).modifyHead .stop)) := by
    refine ⟨fun hno => ?_, fun q hq => (h.held q hq).clear p, h.pc, h.kpc, h.rp, fun now rp hpop => ?_, h.call, fun q => ?_⟩
    · exact (h.list hno).imp fun _ hl => hl.clear p
    · exact Nat.le_zero.mp (h.pop now rp hpop ▸ clear_le s p rp)
    · by_cases hne : q = p
      · subst hne
        dsimp only
        rw [Function.update_self, Function.update_self]
        exact (h.told q).stop fun now hpost => hk (by rw [hpost]; rfl)
      · dsimp only
        rw [Function.update_of_ne hne, Function.update_of_ne hne]
        exact h.told q
  exact hclear.goto hpc rfl hp

theorem acquire (h : Good s r) (hp : p ≠ nil) (hl : s.lock = none) :
    Good ({ s with lock := some (.proc p) }.goto p (.unlink when old nil s.head)) r := by
  obtain ⟨xs, hxs⟩ := h.list (by simp [hl])
  have hkpc : s.kpc.holds = false := Bool.eq_false_iff.mpr fun hk => by
    rw [h.kpc hk] at hl
    cases hl
  have hpcs (q : Proc) : (s.pc q).holds = false := Bool.eq_false_iff.mpr fun hq => by
    rw [h.pc q hq] at hl
    cases hl
  refine ⟨fun hno => absurd rfl (hno p), fun q hq => ?_, fun q hq => ?_, fun hk => ?_, h.rp, h.pop, fun q hq => ?_, h.told⟩
  · obtain rfl : p = q := Who.proc.inj (Option.some.inj hq)
    rw [State.goto_pc_self]
    exact ⟨[], xs, hxs.at.congr rfl rfl rfl, by simp⟩
  · by_cases hne : q = p
    · rw [hne]
      rfl
    · rw [State.goto_pc_of_ne hne] at hq
      exact absurd hq (by simp [hpcs q])
  · exact absurd hk (by simp [State.goto, hkpc])
  · by_cases hne : q = p
    · exact hne ▸ hp
    · rw [State.goto_pc_of_ne hne] at hq
      exact h.call q hq

theorem link (h : Good s r) (hl : s.lock = some (.proc p)) (hpc : s.pc p = .link when old l f) (h0 : when ≠ 0)
    {t : State} (ht : t = { s with palarm := Function.update s.palarm p f }.store l p) :
    Good ({ t with alarm := Function.update t.alarm p when, lock := none }.goto p (.idle old))
      (Function.update r p (⟨when, 0, none⟩ :: (r p).modifyHead .stop)) := by
  have hheld := h.held p hl
  rw [hpc] at hheld
  obtain ⟨pre, rest, hat, hnot, hpre, hrest⟩ := hheld
  have hp : p ≠ nil := h.call p (by simp [hpc])
  have hlisted := hat.link hp hnot hpre hrest ht
  have halarm : t.alarm = s.alarm := by rw [ht, State.store_alarm]
  have htpc : t.pc = s.pc := by rw [ht, State.store_pc]
  have htkpc : t.kpc = s.kpc := by rw [ht, State.store_kpc]
  obtain ⟨hkpc, hrp⟩ := h.kpc_of_proc hl
  have hno (q : Proc) (hne : q ≠ p) : (s.pc q).holds = false := Bool.eq_false_iff.mpr fun hq => by
    rw [h.pc q hq] at hl
    exact hne (Who.proc.inj (Option.some.inj hl))
  refine ⟨fun _ => ⟨_, hlisted.congr rfl rfl rfl⟩, fun q hq => ?_, fun q hq => ?_, fun hk => ?_, fun rp hrp' => ?_,
    fun now rp hpop => ?_, fun q hq => ?_, fun q => ?_⟩
  · cases hq
  · by_cases hne : q = p
    · rw [hne, State.goto_pc_self] at hq
      cases hq
    · rw [State.goto_pc_of_ne hne] at hq
      dsimp only at hq
      rw [htpc, hno q hne] at hq
      cases hq
  · exact absurd hk (by simp [State.goto, htkpc, hkpc])
  · exact absurd hrp' (by simp [State.goto, htkpc, hrp])
  · have hpop : s.kpc = .pop now rp := htkpc ▸ hpop
    rw [hpop] at hkpc
    cases hkpc
  · by_cases hne : q = p
    · exact hne ▸ hp
    · rw [State.goto_pc_of_ne hne] at hq
      exact h.call q fun old => htpc ▸ hq old
  · change Told (Function.update t.alarm p when q) t.kpc q _
    rw [halarm, htkpc]
    by_cases hne : q = p
    · subst hne
      rw [Function.update_self, Function.update_self]
      exact (h.told q).push (fun now hk => by simp [hk, Kpc.holds] at hkpc) (fun now hk => by simp [hk, Kpc.holds] at hkpc) h0
    · rw [Function.update_of_ne hne, Function.update_of_ne hne]
      exact h.told q

theorem procStep (h : Good s r) (hfair : Fair (s, r) (.proc p)) (hstep : s.procStep p = some s') :
    Good s' (r.note s (.proc p)) := by
  unfold State.procStep at hstep
  unfold Fair at hfair
  unfold Record.note
  dsimp only at hfair ⊢
  cases hpc : s.pc p <;> rw [hpc] at hstep hfair <;> dsimp only at hstep hfair ⊢
  case idle => cases hstep
  case asked time b =>
    obtain rfl := Option.some.inj hstep
    exact h.goto (by rw [hpc]; rfl) rfl (h.call p (by simp [hpc]))
  case left time old =>
    have hp := h.call p (by simp [hpc])
    split at hstep
    case isTrue h0 =>
      obtain rfl := Option.some.inj hstep
      rw [if_pos h0]
      exact h.cancel (by rw [hpc]; rfl) hp (hfair h0)
    case isFalse h0 =>
      obtain rfl := Option.some.inj hstep
      rw [if_neg h0]
      exact h.goto (by rw [hpc]; rfl) rfl hp
  case want when old =>
    split at hstep
    case isFalse => cases hstep
    case isTrue hl =>
      obtain rfl := Option.some.inj hstep
      exact h.acquire (h.call p (by simp [hpc])) hl
  case link when old l f =>
    have hl := h.pc p (by rw [hpc]; rfl)
    obtain rfl := Option.some.inj hstep
    exact h.link hl hpc hfair rfl
  case unlink when old l f =>
    have hl := h.pc p (by rw [hpc]; rfl)
    have hp := h.call p (by simp [hpc])
    have hheld := h.held p hl
    rw [hpc] at hheld
    obtain ⟨pre, rest, hat, hnot⟩ := hheld
    split at hstep
    case isTrue hf =>
      obtain rfl := Option.some.inj hstep
      subst hf
      obtain ⟨rfl, hstart⟩ := @At.start _ p _ _ _ when old hat
      refine h.within hl rfl rfl rfl (fun q hne => State.goto_pc_of_ne hne) ?_
      rw [State.start, State.goto_pc_self]
      exact ⟨[], pre, hstart hnot, by simpa using hnot, by simp⟩
    case isFalse hf =>
      split at hstep
      case isTrue heq =>
        obtain rfl := Option.some.inj hstep
        subst heq
        obtain ⟨rest', hnot', hstart⟩ := @At.unlink _ _ _ _ _ when old hat hp
        refine h.within hl ?_ ?_ ?_ (fun q hne => ?_) ?_
        · exact State.store_lock
        · exact State.store_alarm
        · exact State.store_kpc
        · rw [State.start, State.goto_pc_of_ne hne]
          exact congrFun State.store_pc q
        · rw [State.start, State.goto_pc_self]
          exact ⟨[], _, hstart, hnot', by simp⟩
      case isFalse heq =>
        obtain rfl := Option.some.inj hstep
        obtain ⟨rest', rfl, hnext⟩ := hat.next hf
        refine h.within hl rfl rfl rfl (fun q hne => State.goto_pc_of_ne hne) ?_
        rw [State.goto_pc_self]
        exact ⟨_, _, hnext.congr rfl rfl rfl, by simp [hnot, Ne.symm heq]⟩
  case scan when old l f =>
    have hl := h.pc p (by rw [hpc]; rfl)
    have hheld := h.held p hl
    rw [hpc] at hheld
    obtain ⟨pre, rest, hat, hnot, hpre⟩ := hheld
    split at hstep
    case isTrue hf =>
      obtain rfl := Option.some.inj hstep
      refine h.within hl rfl rfl rfl (fun q hne => State.goto_pc_of_ne hne) ?_
      rw [State.goto_pc_self]
      exact ⟨pre, rest, hat.congr rfl rfl rfl, hnot, hpre, hat.later hf⟩
    case isFalse hf =>
      obtain ⟨hf, hle⟩ := not_or.mp hf
      obtain rfl := Option.some.inj hstep
      obtain ⟨rest', rfl, hnext⟩ := hat.next hf
      refine h.within hl rfl rfl rfl (fun q hne => State.goto_pc_of_ne hne) ?_
      rw [State.goto_pc_self]
      refine ⟨_, _, hnext.congr rfl rfl rfl, by simpa using hnot, fun q hq => ?_⟩
      rcases List.mem_append.mp hq with hq | hq
      · exact hpre q hq
      · obtain rfl := List.mem_singleton.mp hq
        exact Nat.le_of_not_lt hle

theorem ne_proc (h : Good s r) (hk : s.kpc.holds = true) (p : Proc) : s.lock ≠ some (.proc p) := by
  rw [h.kpc hk]
  simp

theorem sleep (h : Good s r) (hk : s.kpc.holds = true) (hclear : ∀ now p, s.kpc ≠ .clear now p) : Good s.sleep r :=
  h.kgoto (.inr ⟨h.ne_proc hk, by simp⟩) (by simp [Kpc.holds]) (by simp [Kpc.rp]) (by simp) hclear (by simp) (by simp)

theorem kprocStep (h : Good s r) {b : Bool} (hfair : Fair (s, r) (.kproc b)) (hstep : s.kprocStep b = some s') :
    Good s' (r.note s (.kproc b)) := by
  unfold State.kprocStep at hstep
  unfold Fair at hfair
  unfold Record.note
  dsimp only at hfair ⊢
  have hrp := h.rp
  cases hk : s.kpc <;> rw [hk] at hstep hfair hrp <;> dsimp only at hstep hfair ⊢
  case asleep => cases hstep
  case woken =>
    obtain rfl := Option.some.inj hstep
    exact h.kgoto (.inl rfl) (by simp [Kpc.holds]) (by simp [Kpc.rp]) (by simp) (by simp [hk]) (by simp) (by simp)
  case want now =>
    split at hstep
    case isFalse => cases hstep
    case isTrue hl =>
      obtain rfl := Option.some.inj hstep
      exact h.kgoto (.inr ⟨by simp [hl], by simp⟩) (fun _ => rfl) (by simp [Kpc.rp]) (by simp) (by simp [hk]) (by simp)
        (by simp)
  case look now =>
    have hholds : s.kpc.holds = true := by rw [hk]; rfl
    split at hstep
    case isTrue hdue =>
      obtain rfl := Option.some.inj hstep
      refine h.kgoto (.inl rfl) (fun _ => h.kpc hholds) (fun rp hrp => ?_) (by simp) (by simp [hk]) (by simp) (by simp)
      obtain rfl := Option.some.inj hrp
      exact ⟨rfl, hdue.left⟩
    case isFalse =>
      obtain rfl := Option.some.inj hstep
      exact h.sleep hholds (by simp [hk])
  case due now rp =>
    have hholds : s.kpc.holds = true := by rw [hk]; rfl
    split at hstep
    case isTrue h0 =>
      split at hstep <;> obtain rfl := Option.some.inj hstep
      case isTrue =>
        refine h.kgoto (.inl rfl) (fun _ => h.kpc hholds) (fun rp' hrp' => ?_) (by simp) (by simp [hk]) (by simp) ?_
        · exact hrp rp' hrp'
        · rintro now' p hpost
          cases hpost
          exact h0
      case isFalse => exact h.sleep hholds (by simp [hk])
    case isFalse h0 =>
      obtain rfl := Option.some.inj hstep
      refine h.kgoto (.inl rfl) (fun _ => h.kpc hholds) (fun rp' hrp' => hrp rp' hrp') ?_ (by simp [hk]) (by simp) (by simp)
      rintro now' rp' hpop
      cases hpop
      exact not_not.mp h0
  case post now rp =>
    have hno := h.ne_proc (by rw [hk]; rfl)
    obtain rfl := Option.some.inj hstep
    subst hfair
    refine ⟨fun _ => (h.list hno).imp fun _ hl => hl.congr rfl rfl rfl, fun p hp => absurd hp (hno p), h.pc,
      fun _ => h.kpc (by rw [hk]; rfl), hrp, by simp, h.call, fun p => ?_⟩
    have htold := h.told p
    rw [hk] at htold
    by_cases hne : p = rp
    · subst hne
      simpa using htold.posted
    · rw [if_pos rfl, Function.update_of_ne hne]
      exact htold.kpc (by simp) (by simp [Ne.symm hne]) (by simp)
  case clear now rp =>
    have hno := h.ne_proc (by rw [hk]; rfl)
    obtain rfl := Option.some.inj hstep
    refine ⟨fun _ => (h.list hno).imp fun _ hl => (hl.clear rp).congr rfl rfl rfl, fun p hp => absurd hp (hno p), h.pc,
      fun _ => h.kpc (by rw [hk]; rfl), hrp, ?_, h.call, fun p => ?_⟩
    · rintro now' rp' hpop
      cases hpop
      exact Function.update_self ..
    · have htold := h.told p
      rw [hk] at htold
      dsimp only
      by_cases hne : p = rp
      · subst hne
        rw [Function.update_self]
        exact htold.cleared
      · rw [Function.update_of_ne hne]
        exact htold.kpc (by simp [Ne.symm hne]) (by simp) (by simp)
  case pop now rp =>
    have hno := h.ne_proc (by rw [hk]; rfl)
    have h0 := h.pop now rp hk
    obtain ⟨hhead, hne⟩ := hrp rp rfl
    obtain rfl := Option.some.inj hstep
    refine ⟨fun _ => ?_, fun p hp => absurd hp (hno p), h.pc, fun _ => h.kpc (by rw [hk]; rfl), by simp [Kpc.rp], by simp,
      h.call, fun p => ?_⟩
    · obtain ⟨xs, hxs⟩ := h.list hno
      obtain ⟨ys, rfl, hys⟩ := hxs.chain.pop (hhead ▸ hne)
      refine ⟨ys, hhead ▸ hys, fun p hp => ?_, (List.pairwise_cons.mp hxs.sorted).right⟩
      refine (List.mem_cons.mp (hxs.mem p hp)).resolve_left fun heq => hp ?_
      rw [heq, hhead]
      exact h0
    · have htold := h.told p
      rw [hk] at htold
      exact htold.kpc (by simp) (by simp) (by simp)

end Good

theorem good_invariant : tracked.Invariant Fair fun s => Good s.fst s.snd where
  init := by
    rintro ⟨⟨ticks, alarm, palarm, head, lock, pc, kpc⟩, r⟩ ⟨⟨rfl : alarm = _, rfl : head = _, rfl : lock = _,
      rfl : pc = _, rfl : kpc = _⟩, hr⟩
    obtain rfl : r = fun _ => [] := hr
    refine ⟨fun _ => ⟨[], rfl, fun p hp => absurd rfl hp, .nil⟩, by simp, by simp [Pc.holds], by simp [Kpc.holds],
      by simp [Kpc.rp], by simp, fun p hp => absurd rfl (hp 0), fun p => .nil (by simp)⟩
  step := by
    rintro ⟨s, r⟩ a ⟨s', r'⟩ h hfair hstep
    obtain ⟨hact, rfl : r' = _⟩ := Machine.track_step_eq.mp hstep
    clear hstep
    dsimp only at hact h ⊢
    cases a
    case proc p  => exact h.procStep hfair hact
    case kproc b => exact h.kprocStep hfair hact
    case tick =>
      obtain rfl := Option.some.inj hact
      exact ⟨fun hno => (h.list hno).imp fun _ hl => hl.congr rfl rfl rfl, fun p hp => (h.held p hp).congr rfl rfl rfl,
        h.pc, h.kpc, h.rp, h.pop, h.call, h.told⟩
    case checkalarms =>
      change (if _ then _ else _) = _ at hact
      split at hact <;> obtain rfl := Option.some.inj hact
      case isTrue hdue =>
        exact h.kgoto (.inl rfl) (by simp [Kpc.holds]) (by simp [Kpc.rp]) (by simp) (by simp [hdue.right.right]) (by simp)
          (by simp)
      case isFalse => exact h
    case procalarm p time =>
      simp only [machine, State.step] at hact
      cases hpc : s.pc p <;> rw [hpc] at hact <;> dsimp only at hact
      case idle =>
        obtain ⟨hp, hact⟩ := Option.ite_none_left_eq_some.mp hact
        obtain rfl := Option.some.inj hact
        exact h.goto (by rw [hpc]; rfl) rfl hp
      all_goals cases hact

namespace Good

-- No alarm is earlier than the one of the first process, where it has one.
theorem head_le (h : Good s r) (hno : ∀ p, s.lock ≠ some (.proc p)) (hp : s.alarm p ≠ 0) :
    s.head ≠ nil ∧ s.alarm s.head ≤ s.alarm p := by
  obtain ⟨xs, hxs⟩ := h.list hno
  have hmem := hxs.mem p hp
  cases xs
  case nil       => cases hmem
  case cons q xs =>
    have hchain := hxs.chain
    obtain ⟨rfl, hne, -⟩ := hchain
    refine ⟨hne, ?_⟩
    rcases List.mem_cons.mp hmem with rfl | hmem
    · exact le_rfl
    · by_cases h0 : s.alarm s.head = 0
      · rw [h0]
        exact Nat.zero_le _
      · exact (List.pairwise_cons.mp hxs.sorted).left p hmem h0 hp

theorem done (h : Good s r) (hk : s.kpc = .look now) (hend : s.head = nil ∨ now < s.alarm s.head) (ha : a ∈ r p)
    (hover : a.ended = none) (hle : a.when ≤ now) : a.posts = 1 := by
  have htold := h.told p
  have hposts := (htold.posts a ha).left
  by_contra hne
  obtain ⟨halarm, h0⟩ := htold.waits a (htold.head ha hover) hover (by omega)
  obtain ⟨hnil, hfirst⟩ := h.head_le (h.ne_proc (by rw [hk]; rfl)) (halarm ▸ h0)
  have := hend.resolve_left hnil
  omega

end Good

-- The list is in order, and alarms post what they are to post.
theorem alarms_kept {s : State × Record} (hr : tracked.Reachable Fair s) : Kept s := by
  have h := good_invariant.holds hr
  refine ⟨fun hno => ?_, fun p a ha => (h.told p).posts a ha, fun p a ha hover hposts => ?_, fun hno hk hdue => ?_,
    fun now hk hend p a ha => h.done hk hend ha⟩
  · obtain ⟨xs, hxs⟩ := h.list hno
    exact ⟨xs, hxs.chain.nodup, hxs⟩
  · exact (h.told p).waits a ((h.told p).head ha hover) hover hposts
  · obtain ⟨p, hp, hle⟩ := hdue
    obtain ⟨hnil, hfirst⟩ := h.head_le hno hp
    exact ⟨_, if_pos ⟨hnil, hfirst.trans hle, hk⟩, rfl⟩

def boot : State :=
  ⟨0, fun _ => 0, fun _ => nil, nil, none, fun _ => .idle 0, .woken⟩

theorem boot_init : tracked.init (boot, fun _ => []) :=
  ⟨⟨rfl, rfl, rfl, rfl, rfl⟩, rfl⟩

-- Up to where a note is to be posted after five ticks.
def upto : List Action :=
  Action.procalarm 1 50 :: List.replicate 6 (Action.proc 1) ++ List.replicate 3 (Action.kproc true) ++ List.replicate 5 Action.tick ++
    Action.checkalarms :: List.replicate 4 (Action.kproc true)

theorem alarms_kept_posted : ∃ s, Kept s ∧ s.snd 1 = [⟨5, 1, none⟩] := by
  have hrun : ((tracked.guarded Fair).exec (boot, fun _ => []) (upto ++ [.kproc true])).any
      (fun s => s.snd 1 = [⟨5, 1, none⟩]) = true := by
    decide +kernel
  obtain ⟨s, hr, hs⟩ := Machine.exists_reachable boot_init hrun
  exact ⟨s, alarms_kept hr, of_decide_eq_true hs⟩

-- The alarm is cancelled, and posts a note.
theorem not_alarms_kept : ∃ s, tracked.Reachable Asked s ∧ ¬Kept s := by
  have hrun : ((tracked.guarded Asked).exec (boot, fun _ => [])
      (upto ++ [.procalarm 1 0, .proc 1, .proc 1, .kproc true])).any (fun s => s.snd 1 = [⟨5, 1, some 0⟩]) = true := by
    decide +kernel
  obtain ⟨s, hr, hs⟩ := Machine.exists_reachable boot_init hrun
  refine ⟨s, hr, fun hkept => ?_⟩
  have hposts := hkept.posts 1 ⟨5, 1, some 0⟩ (by rw [of_decide_eq_true hs]; exact List.mem_cons_self)
  exact absurd (hposts.right 0 rfl) (by decide)

end Port.Procalarm
