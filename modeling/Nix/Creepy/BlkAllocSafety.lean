import Nix.Creepy.BlkAlloc

namespace Creepy.BlkAlloc

section

variable {Pid : Type*} {s s' : State Pid} {limit : Nat}

-- The counter of a block, or its link when the block is free.
def State.count (s : State Pid) (addr : Nat) : Nat :=
  s.ref (refaddr addr)

-- An address that blocks can be allocated at.
def Usable (limit addr : Nat) : Prop :=
  addr < limit ∧ ∃ n, addr = blkaddr n ∧ ¬(n % Nblkgrpsz = 0 ∨ n % Nblkgrpsz = 1)

-- `l` lists the free blocks, from `super.free` on.
structure FreeList (super : Super) (count : Nat → Nat) (status : Nat → Status) (l : List Nat) : Prop
    where
  chain  : Chain count 0 super.free l
  freed  : addr ∈ l ↔ status addr = .freed
  length : super.ndfree = l.length

-- The block that a process has to itself, and what has become of it so far.
def Proc.owns : Proc → Option (Nat × Status)
  | .fresh addr   => some (addr, .fresh)
  | .freeing addr => some (addr, .dying)
  | _ => none

def Owned (proc : Pid → Proc) (status : Nat → Status) : Prop :=
  ∀ p addr st, (proc p).owns = some (addr, st) →
    status addr = st ∧ ∀ q, (proc q).owns = some (addr, st) → q = p

-- The block that a process found at the head of the free list.
def Proc.fetches : Proc → Option Nat
  | .fetching addr  => some addr
  | .fetched addr _ => some addr
  | _ => none

structure Inv (limit : Nat) (s : State Pid) : Prop where
  eaddr : ∃ n, s.super.eaddr = blkaddr n ∧ n % Nblkgrpsz ≠ 1
  used  : ∀ addr, s.status addr ≠ .never → addr < s.super.eaddr ∧ Usable limit addr
  list  : ∃ l, FreeList s.super s.count s.status l
  owned : Owned s.proc s.status
  fetch : ∀ p, (s.proc p).fetches ≠ some 0
  held  : ∀ addr, 0 < s.held addr → s.status addr = .live ∧ s.count addr = s.held addr

-- The link that `newblkaddr` has fetched is still the link of the first free block whenever this is
-- still the block it was fetched for, and no write of a reference block fails.
def Undisturbed (s : State Pid) : Pid × Act → Prop
  | (_, .newblkaddr cleared) => cleared
  | (p, .relock cleared) =>
    cleared ∧ ∀ naddr, s.proc p = .fetched s.super.free naddr → naddr = s.count s.super.free
  | _ => True

theorem Usable.ne_refaddr (h : Usable limit a) (h' : Usable limit b) (hne : a ≠ b) :
    refaddr a ≠ refaddr b := by
  have ⟨_, n, hn, _⟩ := h
  have ⟨_, k, hk, _⟩ := h'
  rw [hn, hk] at hne ⊢
  exact fun h => hne <| congrArg blkaddr (refaddr_blkaddr_injective h)

theorem Usable.not_isRef (h : Usable limit addr) : ¬IsRef addr := by
  have ⟨_, n, hn, hr⟩ := h
  rwa [hn, isRef_blkaddr_iff]

theorem Usable.le (h : Usable limit addr) : Dblk0addr ≤ addr := by
  have ⟨_, n, hn, _⟩ := h
  exact hn ▸ Nat.le_add_right ..

namespace Owned

variable {proc : Pid → Proc} {status : Nat → Status}

theorem eq_of_owns (h : Owned proc status) (hp : (proc p).owns = some (addr, st)) :
    ∀ q st', (proc q).owns = some (addr, st') → q = p := by
  intro q st' hq
  have hst := (h q addr st' hq).left.symm.trans (h p addr st hp).left
  exact (h p addr st hp).right q (hst ▸ hq)

theorem not_owns (h : Owned proc status) (hst : status addr ≠ .fresh ∧ status addr ≠ .dying) :
    (proc q).owns ≠ some (addr, st) := by
  intro hq
  have hs := (h q addr st hq).left
  cases hc : proc q <;> simp_all [Proc.owns]

variable [DecidableEq Pid]

theorem goto (h : Owned proc status) (hc : c.owns = none) :
    Owned (Function.update proc p c) status := by
  have other {q x} (hq : (Function.update proc p c q).owns = some x) : (proc q).owns = some x := by
    by_cases he : q = p
    case pos => rw [he, Function.update_self, hc] at hq; contradiction
    case neg => rwa [Function.update_of_ne he] at hq
  intro q addr st hq
  have ⟨hst, hu⟩ := h q addr st (other hq)
  exact ⟨hst, fun r hr => hu r (other hr)⟩

-- A process gets hold of `addr`, or lets go of it, that no other process has.
theorem update (h : Owned proc status) (hp : ∀ q st, (proc q).owns = some (addr, st) → q = p)
    (hc : c.owns = none ∨ c.owns = some (addr, st)) :
    Owned (Function.update proc p c) (Function.update status addr st) := by
  have mine {x} (hq : (Function.update proc p c p).owns = some x) : x = (addr, st) := by
    rw [Function.update_self] at hq
    cases hc
    case inl hc => simp [hc] at hq
    case inr hc => exact Option.some.inj <| hq.symm.trans hc
  have other {q x} (he : q ≠ p) (hq : (Function.update proc p c q).owns = some x) :
      (proc q).owns = some x ∧ x.fst ≠ addr := by
    rw [Function.update_of_ne he] at hq
    exact ⟨hq, fun hx => he <| hp q x.snd <| by rw [hq, ← hx]⟩
  intro q a st' hq
  by_cases he : q = p
  case pos =>
    subst he
    obtain ⟨rfl, rfl⟩ := Prod.mk.inj (mine hq)
    refine ⟨Function.update_self .., fun r hr => ?_⟩
    exact Classical.not_not.mp fun hne => (other hne hr).right rfl
  case neg =>
    have ⟨hq, ha⟩ := other he hq
    have ⟨hst, hu⟩ := h q a st' hq
    refine ⟨by rwa [Function.update_of_ne ha], fun r hr => ?_⟩
    by_cases hr' : r = p
    case pos => exact absurd (congrArg Prod.fst <| mine (hr' ▸ hr)) ha
    case neg => exact hu r (other hr' hr).left

end Owned

namespace Inv

-- `newblkaddr` moves on the end of the assigned portion, and clears reference blocks there.
theorem grow (h : Inv limit s) (he : ∃ n, e = blkaddr n ∧ n % Nblkgrpsz ≠ 1)
    (hle : s.super.eaddr ≤ e) (ref : Nat × Nat → Nat)
    (hr : ∀ addr < s.super.eaddr, Usable limit addr → ref (refaddr addr) = s.count addr) :
    Inv limit { s with super.eaddr := e, ref := ref } where
  eaddr := he
  used addr hs := (h.used addr hs).imp_left (·.trans_le hle)
  owned := h.owned
  fetch := h.fetch
  list :=
    have ⟨l, hl⟩ := h.list
    have hcount a (ha : a ∈ l) : s.count a = ref (refaddr a) :=
      have hs : s.status a ≠ .never := by simp [hl.freed.mp ha]
      (hr a (h.used a hs).left (h.used a hs).right).symm
    ⟨l, hl.chain.congr hcount, hl.freed, hl.length⟩
  held addr hh :=
    have ⟨hs, hc⟩ := h.held addr hh
    have hu := h.used addr (by simp [hs])
    ⟨hs, (hr addr hu.left hu.right).trans hc⟩

theorem held_update (h : Inv limit s) (hst : s.status addr ≠ .live) {st : Status} (a : Nat)
    (hh : 0 < s.held a) : Function.update s.status addr st a = .live ∧ s.count a = s.held a := by
  have ⟨hs, hc⟩ := h.held a hh
  have ha : a ≠ addr := fun he => hst (he ▸ hs)
  exact ⟨by rwa [Function.update_of_ne ha], hc⟩

theorem never_of_le (h : Inv limit s) (ha : s.super.eaddr ≤ addr) : s.status addr = .never :=
  Classical.not_not.mp fun hs => (h.used addr hs).left.not_ge ha

variable [DecidableEq Pid]

theorem fetch_update (h : Inv limit s) (hf : c.fetches ≠ some 0) (p q : Pid) :
    (Function.update s.proc p c q).fetches ≠ some 0 :=
  (Function.forall_update_iff s.proc fun _ c => c.fetches ≠ some 0).mpr ⟨hf, fun q _ => h.fetch q⟩ q

theorem goto (h : Inv limit s) (ho : c.owns = none) (hf : c.fetches ≠ some 0) :
    Inv limit (s.goto p c) where
  eaddr := h.eaddr
  used  := h.used
  list  := h.list
  owned := h.owned.goto ho
  held  := h.held
  fetch := h.fetch_update hf p

-- A process takes hold of `addr`, or of what is left of it, and lets `super` and `ref` be.
theorem move {holds : Nat → Nat} (h : Inv limit s) (hp : ∀ q st, (s.proc q).owns = some (addr, st) → q = p)
    (hc : c.owns = none ∨ c.owns = some (addr, st)) (hf : c.fetches ≠ some 0)
    (hu : addr < s.super.eaddr ∧ Usable limit addr)
    (hl : ∃ l, FreeList super (fun addr => ref (refaddr addr)) (Function.update s.status addr st) l)
    (he : super.eaddr = s.super.eaddr)
    (hh : ∀ a, 0 < holds a →
      Function.update s.status addr st a = .live ∧ ref (refaddr a) = holds a) :
    Inv limit
      { s.goto p c with super, ref, held := holds, status := Function.update s.status addr st } where
  eaddr := he ▸ h.eaddr
  used  := by
    have used a (hs : Function.update s.status addr st a ≠ .never) :
        a < s.super.eaddr ∧ Usable limit a := by
      by_cases ha : a = addr
      case pos => exact ha.symm ▸ hu
      case neg => exact h.used a (by rwa [Function.update_of_ne ha] at hs)
    exact he ▸ used
  list  := hl
  owned := h.owned.update hp hc
  held  := hh
  fetch := h.fetch_update hf p

theorem take_never (h : Inv limit s) (hst : s.status addr = .never) (hlt : addr < s.super.eaddr)
    (hu : addr < limit → Usable limit addr) : Inv limit (s.take limit p addr) := by
  rw [State.take]
  split
  case isFalse => exact h.goto rfl nofun
  case isTrue hok =>
    have hu := hu (by simp [okaddr] at hok; exact hok.right)
    have ⟨l, hl⟩ := h.list
    have ha : addr ∉ l := by simp [hl.freed, hst]
    have hfreed {a} : a ∈ l ↔ Function.update s.status addr .fresh a = .freed := by
      by_cases he : a = addr
      case pos => simp [he, ha]
      case neg => rw [Function.update_of_ne he, hl.freed]
    refine h.move ?_ (.inr rfl) nofun ⟨hlt, hu⟩ ⟨l, hl.chain, hfreed, hl.length⟩ rfl ?_
    · exact fun q st hq => (h.owned.not_owns (by simp [hst]) hq).elim
    · exact h.held_update (by simp [hst])

theorem take_free (h : Inv limit s) (hf : s.super.free ≠ 0) :
    Inv limit (({ s with super.free := s.count s.super.free, super.ndfree := s.super.ndfree - 1 } :
      State Pid).take limit p s.super.free) := by
  have ⟨l, hl⟩ := h.list
  obtain ⟨t, rfl, ht⟩ := hl.chain.pop hf
  have hst : s.status s.super.free = .freed := hl.freed.mp (by simp)
  have hu := h.used s.super.free (by simp [hst])
  have hok : okaddr limit s.super.free :=
    decide_eq_true ⟨(by decide : Dblksz ≤ Dblk0addr).trans hu.right.le, hu.right.left⟩
  have hn := (List.nodup_cons.mp hl.chain.nodup).left
  have hfreed {a} : a ∈ t ↔ Function.update s.status s.super.free .fresh a = .freed := by
    by_cases he : a = s.super.free
    case pos => simp [he, hn]
    case neg => simp [← hl.freed, he]
  rw [State.take, if_pos hok]
  refine h.move ?_ (.inr rfl) nofun hu ⟨t, ht, hfreed, by simp [State.goto, hl.length]⟩ rfl ?_
  · exact fun q st hq => (h.owned.not_owns (by simp [hst]) hq).elim
  · exact h.held_update (by simp [hst])

theorem again (h : Inv limit s) : Inv limit (s.again limit p true) := by
  rw [State.again]
  split
  case isTrue hf => split <;> exact h.goto rfl (by simp [Proc.fetches, hf])
  split
  case isFalse => exact h.goto rfl nofun
  have ⟨n, hn, hr⟩ := h.eaddr
  have hgroup : newgroup s.super.eaddr ↔ n % Nblkgrpsz = 0 := by rw [hn, newgroup_blkaddr]
  split
  case isTrue h0 =>
    rw [hgroup] at h0
    have hadd : s.super.eaddr + 2 * Dblksz = blkaddr (n + 2) := by rw [hn, blkaddr_add]
    have he : s.super.eaddr + Dblksz + 2 * Dblksz = blkaddr (n + 3) := by
      rw [hn, ← blkaddr_add]
      omega
    have hrest addr (hlt : addr < s.super.eaddr) (hu : Usable limit addr) :
        (refaddr addr).fst ≠ s.super.eaddr := by
      have ⟨_, k, hk, _⟩ := hu
      exact ((hk ▸ refaddr_fst_le k).trans_lt hlt).ne
    have hgrow := h.grow (e := s.super.eaddr + Dblksz + 2 * Dblksz) ⟨n + 3, he, ?_⟩ (by omega)
      (fun r => if r.fst = s.super.eaddr then 0 else s.ref r) fun addr hlt hu => if_neg (hrest addr hlt hu)
    rw [if_pos rfl]
    refine hgrow.take_never ?_ ?_ fun hl => ⟨hl, n + 2, hadd, ?_⟩
    · exact h.never_of_le (Nat.le_add_right ..)
    · rw [hadd, he, blkaddr_lt_iff]
      omega
    all_goals
      simp only [Nblkgrpsz, Dblksz, Dblkhdrsz, Daddrsz] at h0 ⊢
      omega
  case isFalse h0 =>
    rw [hgroup] at h0
    have he : s.super.eaddr + Dblksz = blkaddr (n + 1) := by rw [hn, ← blkaddr_add, Nat.one_mul]
    refine Inv.take_never (h.grow ⟨n + 1, he, ?_⟩ ?_ s.ref fun _ _ _ => rfl) ?_ ?_
      fun hl => ⟨hl, n, hn, ?_⟩
    · simp only [Nblkgrpsz, Dblksz, Dblkhdrsz, Daddrsz] at h0 ⊢
      omega
    · exact Nat.le_add_right ..
    · exact h.never_of_le le_rfl
    · rw [State.extend, he, hn, blkaddr_lt_iff]
      omega
    · exact not_or.mpr ⟨h0, hr⟩

-- The entry of a block in use is written. The list of the free blocks goes through other entries.
theorem write (h : Inv limit s) (hst : s.status addr ≠ .never ∧ s.status addr ≠ .freed)
    (hp : ∀ q st, (s.proc q).owns = some (addr, st) → q = p)
    (hc : c.owns = none ∨ c.owns = some (addr, st)) (hf : c.fetches ≠ some 0) (hfree : st ≠ .freed)
    (hn : 0 < n → st = .live ∧ v = n) :
    Inv limit { s.goto p c with
      ref    := Function.update s.ref (refaddr addr) v
      status := Function.update s.status addr st
      held   := Function.update s.held addr n } := by
  have hu := h.used addr hst.left
  have ⟨l, hl⟩ := h.list
  have hcount {a} (ha : a ≠ addr) (hs : s.status a ≠ .never) :
      Function.update s.ref (refaddr addr) v (refaddr a) = s.count a :=
    Function.update_of_ne ((h.used a hs).right.ne_refaddr hu.right ha) ..
  have hchain a (ha : a ∈ l) :
      s.count a = Function.update s.ref (refaddr addr) v (refaddr a) := by
    have hs := hl.freed.mp ha
    exact (hcount (fun he => hst.right (he ▸ hs)) (by simp [hs])).symm
  have hfreed {a} : a ∈ l ↔ Function.update s.status addr st a = .freed := by
    by_cases he : a = addr
    case pos => simp [he, hl.freed, hst.right, hfree]
    case neg => rw [Function.update_of_ne he, hl.freed]
  refine h.move hp hc hf hu ⟨l, hl.chain.congr hchain, hfreed, hl.length⟩ rfl fun a ha => ?_
  by_cases he : a = addr
  case pos =>
    subst he
    simp only [Function.update_self] at ha ⊢
    exact hn ha
  case neg =>
    rw [Function.update_of_ne he] at ha
    have ⟨hs, hh⟩ := h.held a ha
    rw [Function.update_of_ne he, Function.update_of_ne he, hcount he (by simp [hs])]
    exact ⟨hs, hh⟩

theorem link (h : Inv limit s) (hp : s.proc p = .freeing addr) :
    Inv limit { s.goto p .idle with
      ref          := Function.update s.ref (refaddr addr) s.super.free
      super.free   := addr
      super.ndfree := s.super.ndfree + 1
      status       := Function.update s.status addr .freed } := by
  have howns : (s.proc p).owns = some (addr, .dying) := by rw [hp]; rfl
  have hst := (h.owned p addr _ howns).left
  have hu := h.used addr (by simp [hst])
  have ⟨l, hl⟩ := h.list
  have ha : addr ∉ l := by simp [hl.freed, hst]
  have hcount {a} (ha : a ≠ addr) (hs : s.status a ≠ .never) :
      Function.update s.ref (refaddr addr) s.super.free (refaddr a) = s.count a :=
    Function.update_of_ne ((h.used a hs).right.ne_refaddr hu.right ha) ..
  have hchain a (hm : a ∈ addr :: l) : Function.update s.count addr s.super.free a =
      Function.update s.ref (refaddr addr) s.super.free (refaddr a) := by
    by_cases he : a = addr
    case pos => rw [he, Function.update_self, Function.update_self]
    case neg =>
      have hs := hl.freed.mp (List.mem_of_ne_of_mem he hm)
      rw [Function.update_of_ne he, hcount he (by simp [hs])]
  have hfreed {a} : a ∈ addr :: l ↔ Function.update s.status addr .freed a = .freed := by
    by_cases he : a = addr
    case pos => simp [he]
    case neg => simp [he, hl.freed]
  have hne : addr ≠ 0 := (hu.right.le.trans_lt' (by decide)).ne'
  refine h.move (h.owned.eq_of_owns howns) (.inl rfl) nofun hu
    ⟨addr :: l, (hl.chain.push ha hne).congr hchain, hfreed, congrArg Nat.succ hl.length⟩ rfl ?_
  intro a hh
  have ⟨hs, hc⟩ := h.held a hh
  have he : a ≠ addr := fun he => by simp [← he, hs] at hst
  rw [Function.update_of_ne he, hcount he (by simp [hs])]
  exact ⟨hs, hc⟩

theorem setref (h : Inv limit s) (hp : s.proc p = .fresh addr) :
    Inv limit { s.goto p .idle with
      ref    := Function.update s.ref (refaddr addr) 1
      status := Function.update s.status addr .live
      held   := Function.update s.held addr 1 } := by
  have howns : (s.proc p).owns = some (addr, .fresh) := by rw [hp]; rfl
  have hst := (h.owned p addr _ howns).left
  exact h.write (by simp [hst]) (h.owned.eq_of_owns howns) (.inl rfl) nofun nofun fun _ => ⟨rfl, rfl⟩

theorem count (h : Inv limit s) (hh : 0 < s.held addr) (v : Nat) :
    Inv limit { s.goto p .idle with
      ref  := Function.update s.ref (refaddr addr) v
      held := Function.update s.held addr v } := by
  have hst := (h.held addr hh).left
  have hlive : Function.update s.status addr .live = s.status := by rw [← hst, Function.update_eq_self]
  have hi := h.write (p := p) (c := .idle) (v := v) (n := v)
    (show s.status addr ≠ .never ∧ s.status addr ≠ .freed by simp [hst]) (fun q st hq => (h.owned.not_owns (by simp [hst]) hq).elim) (.inl rfl) nofun
    (show Status.live ≠ .freed from nofun) fun _ => ⟨rfl, rfl⟩
  rwa [hlive] at hi

theorem decref_last (h : Inv limit s) (hh : 0 < s.held addr) :
    Inv limit { s.goto p (.freeing addr) with
      ref    := Function.update s.ref (refaddr addr) 0
      status := Function.update s.status addr .dying
      held   := Function.update s.held addr 0 } := by
  have hst := (h.held addr hh).left
  exact h.write (by simp [hst]) (fun q st hq => (h.owned.not_owns (by simp [hst]) hq).elim)
    (.inr rfl) nofun nofun nofun

theorem step (h : Inv limit s) (hc : Undisturbed s a) (hs : step limit s a = some s') :
    Inv limit s' := by
  obtain ⟨p, a⟩ := a
  cases a <;> simp only [BlkAlloc.step] at hs
  case newblkaddr cleared =>
    obtain rfl : cleared = true := hc
    split at hs <;> cases hs
    exact h.again
  case getref =>
    split at hs <;> cases hs
    case h_1 addr hp =>
      have hne : addr ≠ 0 := by simpa [hp, Proc.fetches] using h.fetch p
      split <;> exact h.goto rfl (by simp [Proc.fetches, hne])
  case relock cleared =>
    obtain ⟨rfl, hnaddr⟩ : cleared = true ∧ _ := hc
    split at hs
    case h_2 => contradiction
    case h_1 addr naddr hp =>
      split at hs
      case isTrue =>
        cases hs
        exact h.again
      case isFalse heq =>
        obtain rfl := Classical.not_not.mp heq
        obtain rfl := hnaddr naddr hp
        cases hs
        have hne : s.super.free ≠ 0 := by simpa [hp, Proc.fetches] using h.fetch p
        exact h.take_free hne
  case setref =>
    split at hs <;> cases hs
    case h_1 addr hp => exact h.setref hp
  case incref addr =>
    split at hs <;> cases hs
    case isTrue hi =>
      have hstay : s.goto p .idle = s := by rw [State.goto, ← hi.left, Function.update_eq_self]
      have hcount : s.ref (refaddr addr) = s.held addr := (h.held addr hi.right).right
      have hi := h.count (p := p) hi.right (s.held addr + 1)
      rw [hstay] at hi
      rw [hcount]
      exact hi
  case dbput addr =>
    split at hs <;> cases hs
    split <;> exact h.goto rfl nofun
  case decref =>
    split at hs
    case h_2 => contradiction
    case h_1 addr hp =>
      split at hs
      case isFalse => contradiction
      case isTrue hh =>
        have hcount : s.ref (refaddr addr) = s.held addr := (h.held addr hh).right
        rw [hcount] at hs
        split at hs <;> cases hs
        case isTrue => exact h.count hh _
        case isFalse hz =>
          rw [Classical.not_not.mp hz]
          exact h.decref_last hh
  case link =>
    split at hs <;> cases hs
    case h_1 addr hp => exact h.link hp
  case error =>
    split at hs <;> cases hs
    all_goals exact h.goto rfl nofun

end Inv

end

variable {Pid : Type*} [DecidableEq Pid] {s s' : State Pid} {limit : Nat}

omit [DecidableEq Pid] in
theorem fmt_inv (ref : Nat × Nat → Nat) : Inv limit (fmt ref : State Pid) where
  eaddr := ⟨0, rfl, by decide⟩
  used  := by simp [fmt]
  list  := ⟨[], rfl, by simp [fmt], rfl⟩
  owned := by simp [Owned, fmt, Proc.owns]
  fetch := by simp [fmt, Proc.fetches]
  held  := by simp [fmt]

theorem inv_invariant : (machine Pid limit).Invariant Undisturbed (Inv limit) where
  init := fun ⟨ref, hs⟩ => hs ▸ fmt_inv ref
  step := Inv.step

@[simp]
theorem goto_proc_self (s : State Pid) (p : Pid) (c : Proc) : (s.goto p c).proc p = c :=
  Function.update_self ..

theorem take_proc (h : (s.take limit p addr').proc p = .fresh addr) : addr' = addr := by
  rw [State.take] at h
  split at h
  case isTrue => exact Proc.fresh.inj <| (goto_proc_self s p _).symm.trans h
  case isFalse => simp at h

theorem Inv.again_proc (h : Inv limit s) (hp : (s.again limit p cleared).proc p = .fresh addr) :
    s.status addr = .never := by
  rw [State.again] at hp
  split at hp
  case isTrue => split at hp <;> simp at hp
  split at hp
  case isFalse => simp at hp
  split at hp
  case isFalse =>
    obtain rfl := take_proc hp
    exact h.never_of_le le_rfl
  split at hp
  case isFalse => simp at hp
  case isTrue =>
    obtain rfl := take_proc hp
    exact h.never_of_le (by omega)

-- `newblkaddr` returns `addr` to `p`.
def Returns (s s' : State Pid) (p : Pid) (addr : Nat) : Prop :=
  s.proc p ≠ .fresh addr ∧ s'.proc p = .fresh addr

theorem Inv.not_allocated (h : Inv limit s) (hs : BlkAlloc.step limit s (p, a) = some s')
    (hr : Returns s s' p addr) : ¬s.allocated addr := by
  suffices hst : s.status addr = .never ∨ s.status addr = .freed by
    rw [State.allocated]
    rcases hst with hst | hst <;> simp [hst]
  have ⟨hne, hp⟩ := hr
  cases a <;> simp only [BlkAlloc.step] at hs
  case newblkaddr cleared =>
    split at hs <;> cases hs
    exact .inl <| h.again_proc hp
  case relock cleared =>
    split at hs
    case h_2 => contradiction
    case h_1 addr' naddr hp' =>
      split at hs <;> cases hs
      case isTrue => exact .inl <| h.again_proc hp
      case isFalse heq =>
        obtain rfl := take_proc hp
        obtain rfl := Classical.not_not.mp heq
        have hf : s.super.free ≠ 0 := by simpa [hp', Proc.fetches] using h.fetch p
        have ⟨l, hl⟩ := h.list
        obtain ⟨t, rfl, -⟩ := hl.chain.pop hf
        exact .inr <| hl.freed.mp (by simp)
  -- The other steps leave no process with a new block.
  case incref =>
    split at hs <;> cases hs
    contradiction
  all_goals
    repeat' split at hs
    all_goals cases hs
  all_goals simp [State.goto] at hp

-- Two blocks are freed. Process 1 fetches the link of the first one. The others then allocate both,
-- and the first one is freed again. Process 1 takes it off along the link to the second one.
def race : List (Fin 3 × Act) :=
  [(0, .newblkaddr true), (0, .setref), (2, .newblkaddr true), (2, .setref),
   (2, .dbput (blkaddr 3)), (2, .decref), (2, .link),
   (0, .dbput (blkaddr 2)), (0, .decref), (0, .link),
   (1, .newblkaddr true), (1, .getref),
   (0, .newblkaddr true), (0, .getref), (0, .relock true), (0, .setref),
   (2, .newblkaddr true), (2, .getref), (2, .relock true),
   (0, .dbput (blkaddr 2)), (0, .decref), (0, .link),
   (1, .relock true),
   (0, .newblkaddr true), (0, .getref)]

-- The state after the run.
def raced : State (Fin 3) :=
  ((machine (Fin 3) (10 * Dblksz)).exec (fmt fun _ => 0) race).get (by decide +kernel)

end Creepy.BlkAlloc
