import Nix.Creepy.MblkInvariant

namespace Creepy.Mblk

variable {Blk Pid : Type*} [DecidableEq Blk] [DecidableEq Pid] {B : Blocks Blk}
variable {s s' : State Blk Pid} {place : Blk → Option ListId} {p : Pid} {b : Blk} {c : Proc Blk}

namespace HashOk

variable {hash : Nat → List Blk}

omit [DecidableEq Blk]

theorem update (h : HashOk B hash) (hl : l.Pairwise (B.addr · ≠ B.addr ·)) (hb : ∀ b ∈ l, B.bucket b = v) :
    HashOk B (Function.update hash v l) := by
  intro w
  by_cases hw : w = v
  case pos =>
    subst hw
    rw [Function.update_self]
    exact ⟨hl, hb⟩
  case neg =>
    rw [Function.update_of_ne hw]
    exact h w

theorem nodup (h : HashOk B hash) (v : Nat) : (hash v).Nodup :=
  (h v).left.imp fun hne he => hne (congrArg B.addr he)

theorem insert (h : HashOk B hash) (hn : (hash (B.bucket b)).find? (B.addr · = B.addr b) = none)
    (hl : l = b :: hash (B.bucket b) ∨ l = hash (B.bucket b) ++ [b]) :
    HashOk B (Function.update hash (B.bucket b) l) := by
  have hne : ∀ a ∈ hash (B.bucket b), B.addr a ≠ B.addr b := by simpa using hn
  have ⟨hp, hv⟩ := h (B.bucket b)
  rcases hl with rfl | rfl
  · refine h.update (hp.cons fun a ha => (hne a ha).symm) ?_
    simpa using hv
  · refine h.update ?_ ?_
    · rw [List.pairwise_append]
      exact ⟨hp, List.pairwise_singleton .., fun a ha d hd => List.mem_singleton.mp hd ▸ hne a ha⟩
    · simpa [or_imp, forall_and] using hv

end HashOk

namespace Inv

omit [DecidableEq Blk] [DecidableEq Pid] in
-- A block that stays between two steps is on the list that its type and `dirty` call for.
theorem place_of_still (h : Inv B s place) (hs : s.still B b) (hb : B.moves b) :
    if s.dirty b then place b = some .mdirty ∨ place b = some .dl else place b = some .lru := by
  have ⟨ht, hf⟩ : B.type b = .other ∧ ¬B.fake b := by simpa [Blocks.moves] using hb
  have ⟨l, hl⟩ := Option.ne_none_iff_exists'.mp <| h.home b hs hf (by simp [ht])
  have hfits := h.fits b l hl
  cases l <;> simp only [State.fits] at hfits
  case lru => simp [hfits, hl]
  case mdirty | dl => simp [hfits, hl]
  case refs => simp [ht] at hfits

theorem hashed (h : Inv B s place) (hp : (s.proc p).moves = none) (hu : ¬s.used b)
    {hash : List Blk} (hn : (s.hash (B.bucket b)).find? (B.addr · = B.addr b) = none)
    (hl : hash = b :: s.hash (B.bucket b) ∨ hash = s.hash (B.bucket b) ++ [b])
    (hk : k ≠ .written ∧ k ≠ .failed) (hc : c = .idle ∨ c = .get b) :
    Inv B ((s.hash1 B b hash).linkblock p B b k c) place := by
  have hb : place b = none := Classical.not_not.mp fun hb => hu <| h.used b (.inl hb)
  have hq q : (s.proc q).moves ≠ some b := fun hq => hu <| h.used b (.inr (.inr ⟨q, hq⟩))
  have hlisting : ∃ L, Listing (s.hash1 B b hash).links s.ends place L := by
    have ⟨L, hlist⟩ := h.listing
    have ⟨hnext, hprev⟩ := hlist.off hb
    refine ⟨L, ?_⟩
    simp only [State.hash1]
    rwa [← hnext, Function.update_eq_self, hnext, ← hprev, Function.update_eq_self]
  have hmem {a} (ha : a ∉ some b) (hh : a ∈ Function.update s.hash (B.bucket b) hash (B.bucket a)) :
      a ∈ s.hash (B.bucket a) := by
    have hab : a ≠ b := fun he => ha (congrArg some he.symm)
    by_cases hv : B.bucket a = B.bucket b
    case pos =>
      rw [hv, Function.update_self] at hh
      rw [hv]
      rcases hl with rfl | rfl <;> simpa [hab] using hh
    case neg => rwa [Function.update_of_ne hv] at hh
  have f c' (hc' : ∀ a ∈ c'.moves, a ∈ some b) {hlk : Nat → Option Pid} :
      Local B s { (s.hash1 B b hash).goto p c' with hlk } place place p (some b) c' :=
    { proc   := rfl
      dirty  := fun a ha _ => Function.update_of_ne (fun he => ha (congrArg some he.symm)) ..
      hashed := fun a ha => hmem ha
      used   := fun a ha => by
        by_cases he : a = b
        case pos => exact he ▸ Function.update_self ..
        case neg => exact (Function.update_of_ne he ..).trans ha
      before := by simp [hp]
      after  := hc'
      others := fun q _ a ha => Option.some.inj ha ▸ hq q
      place  := fun _ _ => rfl
      lk     := fun _ _ _ h => h
      keep   := fun _ _ _ _ _ _ h => h }
  have hashok := h.hash.insert hn hl
  have hused {c'} {hlk : Nat → Option Pid} (a : Blk) (ha : a ∈ some b) :
      ({ (s.hash1 B b hash).goto p c' with hlk } : State Blk Pid).used a :=
    Option.some.inj ha ▸ Function.update_self ..
  have hfits {c'} {hlk : Nat → Option Pid} (a : Blk) (ha : a ∈ some b) l (hpl : place a = some l) :
      ({ (s.hash1 B b hash).goto p c' with hlk } : State Blk Pid).fits B a l := by
    simp [← Option.some.inj ha, hb] at hpl
  rw [State.linkblock]
  split
  case isTrue hf =>
    have hok : Ok B ((s.hash1 B b hash).goto p c) place p c := by rcases hc with rfl | rfl <;> trivial
    have hmoves : c.moves = none := by rcases hc with rfl | rfl <;> rfl
    refine h.of_local (f c (by simp [hmoves])) hlisting hok hashok h.nodl hfits hused ?_
    intro a ha _ _ hfake hsuper
    obtain rfl := Option.some.inj ha
    exact absurd hf (not_or.mpr ⟨hfake, hsuper⟩)
  case isFalse hf =>
    have ⟨hfake, hsuper⟩ := not_or.mp hf
    refine h.of_local (f (.link b _ false k) fun a ha => ha) hlisting ⟨hb, ?_, ?_, hk.right, ?_⟩ hashok h.nodl hfits
      hused (by simp [Proc.moves])
    · split <;> nofun
    · split
      case isTrue ht => exact ht
      case isFalse ht =>
        have hother : B.type b = .other := by cases hB : B.type b <;> simp_all
        exact ⟨by simpa [Blocks.moves, hother] using hfake, by simp [State.goto, State.hash1]⟩
    · simp [hk]

theorem unhashed (h : Inv B s place) (hp : (s.proc p).moves = none)
    (hq : ∀ q, (s.proc q).moves ≠ some b) (hdl : s.dirty b → place b ≠ some .dl)
    (hc : c.moves = none) (hok : ∀ t : State Blk Pid, t.lk = s.lk → Ok B t place p c)
    (hk : k = .unhash ∨ ∃ bprev, k = .reclaim bprev ∧ s.lk .lru = some p ∧ ¬s.dirty b ∧
      ∀ a ∈ bprev, a ≠ b ∧ place a = some .lru) :
    Inv B (s.unhash p B b k c) place := by
  have hdead : Inv B (s.goto p .dead) place :=
    h.goto hp rfl (fun _ _ => rfl) (fun _ _ _ hl => hl) h.nodl trivial
  rw [State.unhash]
  split
  case isTrue => exact hdead
  case isFalse href =>
    split
    case h_1 => exact hdead
    case h_2 a hfind =>
      split
      case isTrue => exact hdead
      case isFalse hab =>
        obtain rfl := Classical.not_not.mp hab
        have hhashed : s.hashed B a := List.mem_of_find?_eq_some hfind
        have ⟨hpw, hv⟩ := h.hash (B.bucket a)
        have hashok : HashOk B (Function.update s.hash (B.bucket a) ((s.hash (B.bucket a)).erase a)) :=
          h.hash.update (hpw.sublist (List.erase_sublist ..)) fun d hd => hv d (List.mem_of_mem_erase hd)
        have hgone : a ∉ (s.hash (B.bucket a)).erase a := (h.hash.nodup _).not_mem_erase
        have f c' (hc' : ∀ d ∈ c'.moves, d ∈ some a) {hlk : Nat → Option Pid} :
            Local B s
              { (s.goto p c') with
                hash := Function.update s.hash (B.bucket a) ((s.hash (B.bucket a)).erase a), hlk }
              place place p (some a) c' :=
          { proc   := rfl
            hashed := fun d _ hd => by
              by_cases hv : B.bucket d = B.bucket a
              case pos =>
                simp only [State.hashed, hv, Function.update_self] at hd ⊢
                exact List.mem_of_mem_erase hd
              case neg => simpa only [State.hashed, Function.update_of_ne hv] using hd
            before := by simp [hp]
            after  := hc'
            others := fun q _ d hd => Option.some.inj hd ▸ hq q
            place  := fun _ _ => rfl
            dirty  := fun _ _ _ => rfl
            used   := fun _ h => h
            lk     := fun _ _ _ h => h
            keep   := fun _ _ _ _ _ _ h => h }
        have hused d (hd : d ∈ some a) : s.used d := Option.some.inj hd ▸ h.used a (.inr (.inl hhashed))
        split
        case isTrue hfake =>
          refine h.of_local (f c (by simp [hc])) h.listing (hok _ rfl) hashok h.nodl
            (fun d _ => h.fits d) hused fun d hd _ _ hf => ?_
          exact absurd hfake (Option.some.inj hd ▸ hf)
        case isFalse hfake =>
          split
          case isTrue hsuper =>
            refine h.of_local (f .dead (by simp [Proc.moves])) h.listing trivial hashok h.nodl
              (fun d _ => h.fits d) hused fun d hd _ _ _ ht => ?_
            exact absurd hsuper (Option.some.inj hd ▸ ht)
          case isFalse hsuper =>
            have hmoves : B.moves a := by
              cases hB : B.type a <;> simp_all [Blocks.moves]
            have hplace := h.place_of_still ⟨hhashed, hq⟩ hmoves
            refine h.of_local (f (.unlink a _ k) fun d hd => hd) h.listing ?_ hashok h.nodl
              (fun d _ => h.fits d) hused (by simp [Proc.moves])
            have hout : a ∉ Function.update s.hash (B.bucket a) ((s.hash (B.bucket a)).erase a)
                (B.bucket a) := by rwa [Function.update_self]
            rcases hk with rfl | ⟨bprev, rfl, hlru, hclean, hprev⟩
            · by_cases hd : s.dirty a
              case pos =>
                rw [if_pos hd] at hplace ⊢
                exact ⟨hplace.resolve_right (hdl hd), .inr rfl, hout⟩
              case neg =>
                rw [if_neg hd] at hplace ⊢
                exact ⟨hplace, .inl rfl, hout⟩
            · rw [if_neg hclean] at hplace ⊢
              exact ⟨hplace, rfl, hout, hlru, hprev⟩

end Inv

-- `b` is on the private list of `writedata`.
def State.pulled (s : State Blk Pid) (b : Blk) : Prop :=
  ∃ l, DList s.links (s.ends .dl) l ∧ b ∈ l

-- A process starts to move a block when the block is in the hash and nobody is moving it. A block
-- that `writedata` has pulled into its list is not unhashed, and its writes do not fail.
def Apart (B : Blocks Blk) (s : State Blk Pid) : Pid × Act Blk → Prop
  | (_, .mbused b) | (_, .mbunused b) => B.moves b ∧ ¬s.dirty b → s.still B b
  | (_, .mbunhash b) => (∀ q, (s.proc q).moves ≠ some b) ∧ ¬s.pulled b
  | (p, .next) =>
    match s.proc p with
    | .get b | .chg b => B.moves b ∧ ¬s.dirty b → s.still B b
    | .filter (some b) => s.frozen b → ∀ q, (s.proc q).moves ≠ some b
    | _ => True
  | (p, .lru .out) => ∀ b, s.proc p = .scan (some b) → ∀ q, (s.proc q).moves ≠ some b
  | (_, .wrote ok _) => ok
  | _ => True

namespace Inv

omit [DecidableEq Blk] in
theorem touch (h : Inv B s place) (hp : (s.proc p).moves = none)
    (hs : B.moves b ∧ ¬s.dirty b → s.still B b) (last : Bool) : Inv B (s.touch p B b last) place := by
  rw [State.touch]
  split
  case isTrue => exact h.goto hp rfl (fun _ _ => rfl) (fun _ _ _ hl => hl) h.nodl trivial
  case isFalse hd =>
    have ⟨hd, hm⟩ := not_or.mp hd
    have hm := Classical.not_not.mp hm
    have hs := hs ⟨hm, hd⟩
    have hplace := h.place_of_still hs hm
    rw [if_neg hd] at hplace
    exact h.start hp rfl hs ⟨hplace, rfl⟩

omit [DecidableEq Blk] [DecidableEq Pid] in
theorem not_moving_of_dl (h : Inv B s place) (hb : place b = some .dl) (q : Pid) :
    (s.proc q).moves ≠ some b := by
  intro hq
  have hok := h.ok q
  cases hc : s.proc q <;> rw [hc] at hok hq <;> simp only [Proc.moves, Option.some.injEq, reduceCtorEq] at hq
  all_goals subst hq
  case unlink a l k =>
    cases k <;> simp only [Ok] at hok
    case unhash => rcases hok with ⟨ha, hl | hl, -⟩ <;> simp [hb, hl] at ha
    all_goals
      obtain ⟨ha, hl⟩ := hok
      simp [hb, hl] at ha
  all_goals simp [hb, Ok] at hok

omit [DecidableEq Blk] [DecidableEq Pid] in
theorem unlinked_of_place (h : Inv B s place) (hb : place b = none) : s.unlinked b := by
  have ⟨_, hl⟩ := h.listing
  simpa [State.unlinked] using hl.off hb

theorem next_unlink (h : Inv B s place) (hp : s.proc p = .unlink b l k) (hs : Mblk.next B s p = some s') :
    ∃ place', Inv B s' place' := by
  have hmoves : (s.proc p).moves = some b := by rw [hp]; rfl
  have hbefore a (ha : a ∈ (s.proc p).moves) : a ∈ some b := hmoves.symm.trans ha
  have hothers := h.others hmoves
  have hok := h.ok p
  rw [hp] at hok
  simp only [Mblk.next, hp] at hs
  cases k <;> simp only at hs
  case relink last =>
    obtain ⟨hb, rfl⟩ := hok
    split at hs <;> cases hs
    case isFalse hlk =>
      have hfree q (_ : q ≠ p) : s.lk .lru ≠ some q := by simp [Classical.not_not.mp hlk]
      exact ⟨_, h.unlinked hbefore hothers hb hfree (.inl rfl)
        ⟨Function.update_self .., nofun, h.fits b _ hb, nofun, nofun⟩⟩
  case mark =>
    obtain ⟨hb, rfl⟩ := hok
    split at hs <;> cases hs
    case isFalse hlk =>
      have hfree q (_ : q ≠ p) : s.lk .lru ≠ some q := by simp [Classical.not_not.mp hlk]
      exact ⟨_, h.unlinked hbefore hothers hb hfree (.inl rfl) ⟨Function.update_self .., h.fits b _ hb⟩⟩
  case unhash =>
    obtain ⟨hb, -, hout⟩ := hok
    split at hs <;> cases hs
    case isFalse hlk =>
      have hfree q (_ : q ≠ p) : s.lk l ≠ some q := by simp [Classical.not_not.mp hlk]
      exact ⟨_, h.unlinked hbefore hothers hb hfree (.inr ⟨rfl, hout⟩) trivial⟩
  case reclaim bprev =>
    obtain ⟨hb, rfl, hout, hlru, hprev⟩ := hok
    cases hs
    have hfree q (hq : q ≠ p) : s.lk .lru ≠ some q := by simp [hlru, hq.symm]
    refine ⟨_, h.unlinked hbefore hothers hb hfree (.inr ⟨rfl, hout⟩) ⟨hlru, fun a ha => ?_⟩⟩
    rw [Function.update_of_ne (hprev a ha).left]
    exact (hprev a ha).right

theorem next_link (h : Inv B s place) (hp : s.proc p = .link b l last k)
    (hs : Mblk.next B s p = some s') : ∃ place', Inv B s' place' := by
  have hmoves : (s.proc p).moves = some b := by rw [hp]; rfl
  have hok := h.ok p
  rw [hp] at hok
  obtain ⟨hb, hl, hf, hk, hw⟩ := hok
  simp only [Mblk.next, hp, h.unlinked_of_place hb, not_true, and_false, if_false] at hs
  split at hs
  case isTrue => contradiction
  case isFalse hlk =>
    have ht : (if last then s.mlinklast b l else s.mlink b l) = s.mlink b l ∨
        (if last then s.mlinklast b l else s.mlink b l) = s.mlinklast b l := by cases last <;> simp
    generalize (if last then s.mlinklast b l else s.mlink b l) = t at hs ht
    have hsame : t.lk = s.lk := by rcases ht with rfl | rfl <;> rfl
    have hlk' l q (_ : q ≠ p) (hq : s.lk l = some q) : t.lk l = some q := hsame ▸ hq
    have nodl (hdl : t.lk .dl = none) : ∀ a, place a ≠ some .dl := h.nodl (hsame ▸ hdl)
    cases k <;> cases hs
    case failed => exact absurd rfl hk
    case written =>
      exact ⟨_, h.linked ht hmoves hb hl hf rfl hlk' nodl (hsame.symm ▸ hw rfl : t.lk .dl = some p)⟩
    all_goals exact ⟨_, h.linked ht hmoves hb hl hf rfl hlk' nodl trivial⟩

omit [DecidableEq Blk] [DecidableEq Pid] in
theorem unlock (hp : s.lk i = some p) (l : ListId) (q : Pid) (hq : q ≠ p) (hl : s.lk l = some q) :
    Function.update s.lk i none l = some q := by
  have hne : l ≠ i := fun he => hq <| Option.some.inj <| hl.symm.trans (he ▸ hp)
  rwa [Function.update_of_ne hne]

theorem next (h : Inv B s place) (hc : Apart B s (p, .next)) (hs : Mblk.next B s p = some s') :
    ∃ place', Inv B s' place' := by
  have hok := h.ok p
  simp only [Apart] at hc
  have hs' := hs
  simp only [Mblk.next] at hs
  split at hs <;> rename_i hp <;> simp only [hp] at hc hok
  case h_1 b =>
    cases hs
    exact ⟨place, h.touch (by simp [hp, Proc.moves]) hc false⟩
  case h_2 b =>
    have hmoves : (s.proc p).moves = none := by rw [hp]; rfl
    split at hs
    case isTrue => contradiction
    split at hs
    case isTrue =>
      cases hs
      exact ⟨place, h.goto hmoves rfl (fun _ _ => rfl) (fun _ _ _ hl => hl) h.nodl trivial⟩
    case isFalse hd =>
      split at hs <;> cases hs
      case isTrue ht =>
        refine ⟨place, h.goto hmoves rfl (fun a ha => Function.update_of_ne (fun he => ?_) ..)
          (fun _ _ _ hl => hl) h.nodl trivial⟩
        simp [Blocks.moves, he, ht] at ha
      case isFalse ht =>
        have hfake : ¬B.fake b := hok
        have hm : B.moves b := by simpa [Blocks.moves, Classical.not_not.mp ht] using hfake
        have hstill := hc ⟨hm, hd⟩
        have hplace := h.place_of_still hstill hm
        rw [if_neg hd] at hplace
        exact ⟨place, h.start hmoves rfl hstill ⟨hplace, rfl⟩⟩
  case h_3 b l k => exact h.next_unlink hp hs'
  case h_4 b =>
    cases hs
    have hmoves : (s.proc p).moves = some b := by rw [hp]; rfl
    refine ⟨place, h.marked hmoves hok.left rfl ⟨hok.left, nofun, ⟨hok.right.left, ?_⟩, nofun, nofun⟩⟩
    exact Function.update_self ..
  case h_5 b l last k => exact h.next_link hp hs'
  case h_6 =>
    cases hs
    have ⟨hm, hd, _⟩ := hok
    have hmoves : (s.proc p).moves = none := by rw [hp]; rfl
    have hdl : Function.update s.lk .mdirty none ListId.dl = some p := hd
    refine ⟨place, h.goto hmoves rfl (fun _ _ => rfl) (unlock hm) (fun hn => ?_) hdl⟩
    exact absurd (hdl.symm.trans hn) nofun
  case h_7 b =>
    have ⟨hm, hd, hcur⟩ := hok
    have hb : place b = some .mdirty := hcur b rfl
    have ⟨_, hl⟩ := h.listing
    have hmoves : (s.proc p).moves = none := by rw [hp]; rfl
    split at hs <;> cases hs
    case isTrue hf =>
      refine ⟨_, h.pulled hmoves hb (hc hf) hm hd rfl ⟨hm, hd, fun a ha => ?_⟩⟩
      have ⟨hne, hpl⟩ := hl.next_place hb ha
      rwa [Function.update_of_ne hne]
    case isFalse =>
      refine ⟨place, h.goto hmoves rfl (fun _ _ => rfl) (fun _ _ _ hl => hl) h.nodl
        ⟨hm, hd, fun a ha => (hl.next_place hb ha).right⟩⟩
  case h_8 =>
    have hdl : s.lk .dl = some p := hok
    have ⟨L, hl⟩ := h.listing
    have hmoves : (s.proc p).moves = none := by rw [hp]; rfl
    split at hs
    case h_1 hhd =>
      cases hs
      refine ⟨place, h.goto hmoves rfl (fun _ _ => rfl) (unlock hdl) (fun _ a ha => ?_) trivial⟩
      have hnil : L .dl = [] := List.head?_eq_none_iff.mp <| (hl.list .dl).hd.symm.trans hhd
      exact List.not_mem_nil (hnil ▸ hl.mem.mpr ha)
    case h_2 b hhd =>
      have hb := hl.hd_place hhd
      have ⟨hm, hd⟩ := h.fits b _ hb
      have hfake : ¬B.fake b := by simp [Blocks.moves] at hm; simp [hm.right]
      have hgood : ¬(¬(s.munlink b .dl).dirty b ∨ B.fake b) := not_or.mpr ⟨not_not.mpr hd, hfake⟩
      simp only [if_neg hgood] at hs
      cases hs
      have hfree q (hq : q ≠ p) : s.lk .dl ≠ some q := by simp [hdl, hq.symm]
      have hothers q (_ : q ≠ p) a (ha : a ∈ some b) : a ∉ (s.proc q).moves :=
        Option.some.inj ha ▸ h.not_moving_of_dl hb q
      exact ⟨_, h.unlinked (by simp [hmoves]) hothers hb hfree (.inl rfl)
        ⟨Function.update_self .., ⟨hm, hd⟩, hdl⟩⟩
  case h_9 => contradiction

theorem wrote (h : Inv B s place) (hc : Apart B s (p, .wrote good last))
    (hs : step B s (p, .wrote good last) = some s') : ∃ place', Inv B s' place' := by
  obtain rfl : good = true := hc
  have hok := h.ok p
  simp only [step] at hs
  split at hs
  case h_2 => contradiction
  case h_1 b hp =>
    rw [hp] at hok
    have ⟨hb, ⟨hm, hd⟩, hdl⟩ := hok
    have hmoves : (s.proc p).moves = some b := by rw [hp]; rfl
    have hgood : ¬(¬s.dirty b ∨ ¬s.unlinked b) :=
      not_or.mpr ⟨not_not.mpr hd, not_not.mpr (h.unlinked_of_place hb)⟩
    split at hs
    case isTrue => contradiction
    simp only [if_true] at hs
    cases hs
    refine ⟨place, h.marked hmoves hb rfl ⟨hb, nofun, ⟨hm, ?_⟩, nofun, fun _ => hdl⟩⟩
    simp

omit [DecidableEq Blk] [DecidableEq Pid] in
theorem scanned (h : Inv B s place) (hp : s.proc p = .scan (some b)) :
    ∀ a ∈ s.links.prev b, a ≠ b ∧ place a = some .lru := by
  have hok := h.ok p
  rw [hp] at hok
  have ⟨_, hl⟩ := h.listing
  exact fun a ha => hl.prev_place (hok.right b rfl) ha

theorem lru (h : Inv B s place) (hc : Apart B s (p, .lru d)) (hs : step B s (p, .lru d) = some s') :
    ∃ place', Inv B s' place' := by
  have hok := h.ok p
  simp only [step] at hs
  split at hs
  case h_1 hp =>
    rw [hp] at hok
    have hmoves : (s.proc p).moves = none := by rw [hp]; rfl
    cases hs
    exact ⟨place, h.goto hmoves rfl (fun _ _ => rfl) (unlock hok.left) h.nodl trivial⟩
  case h_2 b hp =>
    have hprev := h.scanned hp
    have hmoves : (s.proc p).moves = none := by rw [hp]; rfl
    rw [hp] at hok
    have ⟨hlru, hcur⟩ := hok
    have hdead : Inv B (s.goto p .dead) place :=
      h.goto hmoves rfl (fun _ _ => rfl) (fun _ _ _ hl => hl) h.nodl trivial
    cases d <;> simp only at hs
    case stop =>
      cases hs
      exact ⟨place, h.goto hmoves rfl (fun _ _ => rfl) (unlock hlru) h.nodl trivial⟩
    case ignore =>
      split at hs <;> cases hs
      case isTrue => exact ⟨place, hdead⟩
      case isFalse =>
        exact ⟨place, h.goto hmoves rfl (fun _ _ => rfl) (fun _ _ _ hl => hl) h.nodl
          ⟨hlru, fun a ha => (hprev a ha).right⟩⟩
    case out =>
      have hfits := h.fits b _ (hcur b rfl)
      split at hs
      case isTrue =>
        cases hs
        exact ⟨place, hdead⟩
      split at hs <;> cases hs
      refine ⟨place, h.unhashed hmoves (hc b hp) (by simp [hcur b rfl]) rfl ?_ ?_⟩
      · exact fun t ht => ⟨ht ▸ hlru, fun a ha => (hprev a ha).right⟩
      · exact .inr ⟨_, rfl, hlru, hfits.right, hprev⟩
  case h_3 => contradiction

omit [DecidableEq Pid] in
theorem frozen (h : Inv B s place) (b : Blk) :
    Inv B { s with frozen := Function.update s.frozen b true } place := by
  exact ⟨h.listing, h.fits, h.home, h.used, h.alone, h.ok, h.nodl, h.hash⟩

-- A reference block or the super block is marked. These move between no lists.
theorem cleaned (h : Inv B s place) (hp : s.proc p = .idle) (hb : B.type b ≠ .other) (v : Bool) :
    Inv B { s with dirty := Function.update s.dirty b v } place := by
  have hstay : s.goto p .idle = s := by rw [State.goto, ← hp, Function.update_eq_self]
  have hi : Inv B { s.goto p .idle with dirty := Function.update s.dirty b v } place := by
    refine h.goto (by rw [hp]; rfl) rfl (fun a ha => Function.update_of_ne (fun he => ?_) ..)
      (fun _ _ _ hl => hl) h.nodl trivial
    simp [Blocks.moves, he, hb] at ha
  rwa [hstay] at hi

omit [DecidableEq Blk] [DecidableEq Pid] in
theorem not_pulled (h : Inv B s place) (hb : ¬s.pulled b) : place b ≠ some .dl := by
  have ⟨L, hl⟩ := h.listing
  exact fun hp => hb ⟨L .dl, hl.list .dl, hl.mem.mpr hp⟩

omit [DecidableEq Blk] in
theorem writedata (h : Inv B s place) (hp : (s.proc p).moves = none) (hdl : s.lk .dl = none)
    (hmdirty : s.lk .mdirty = none) :
    Inv B
      { s.goto p (.filter (s.ends .mdirty).hd) with
        ends := Function.update s.ends .dl { hd := none, tl := none, n := 0 }
        lk   := Function.update (Function.update s.lk .dl (some p)) .mdirty (some p) } place := by
  have ⟨L, hl⟩ := h.listing
  have hnil : L .dl = [] :=
    List.eq_nil_iff_forall_not_mem.mpr fun b hb => h.nodl hdl b (hl.mem.mp hb)
  have hends : s.ends .dl = { hd := none, tl := none, n := 0 } := by
    have ⟨hhd, htl, hn, _, _, _⟩ := hl.list .dl
    rw [hnil] at hhd htl hn
    cases he : s.ends .dl
    simp_all
  have hsame : Function.update s.ends .dl { hd := none, tl := none, n := 0 } = s.ends := by
    rw [← hends, Function.update_eq_self]
  rw [hsame]
  refine h.goto hp rfl (fun _ _ => rfl) (fun l q _ hq => ?_) (fun hn => ?_)
    ⟨rfl, rfl, fun b hb => hl.hd_place hb⟩
  · cases l <;> simp_all
  · simp at hn

omit [DecidableEq Blk] in
theorem fslru (h : Inv B s place) (hp : (s.proc p).moves = none) (hlru : s.lk .lru = none) :
    Inv B
      { s.goto p (.scan (s.ends .lru).tl) with lk := Function.update s.lk .lru (some p) } place := by
  have ⟨L, hl⟩ := h.listing
  refine h.goto hp rfl (fun _ _ => rfl) (fun l q _ hq => ?_) h.nodl ⟨rfl, fun b hb => hl.tl_place hb⟩
  cases l <;> simp_all

omit [DecidableEq Pid] in
theorem of_idle {o : Option (State Blk Pid)}
    (hs : (if s.proc p ≠ .idle then none else o) = some s') : s.proc p = .idle ∧ o = some s' := by
  split at hs
  case isTrue => contradiction
  case isFalse h => exact ⟨Classical.not_not.mp h, hs⟩

theorem step (h : Inv B s place) (hc : Apart B s (p, a)) (hs : Mblk.step B s (p, a) = some s') :
    ∃ place', Inv B s' place' := by
  cases a
  case next => exact h.next hc hs
  case wrote => exact h.wrote hc hs
  case lru => exact h.lru hc hs
  all_goals
    simp only [Mblk.step] at hs
    replace hs := of_idle hs
    obtain ⟨hidle, hs⟩ := hs
    have hmoves : (s.proc p).moves = none := by rw [hidle]; rfl
    have hgoto c (hcm : c.moves = none) (hok : Ok B (s.goto p c) place p c) :
        Inv B (s.goto p c) place :=
      h.goto hmoves hcm (fun _ _ => rfl) (fun _ _ _ hl => hl) h.nodl hok
  case mbused b =>
    cases hs
    exact ⟨place, h.touch hmoves hc false⟩
  case mbunused b =>
    cases hs
    exact ⟨place, h.touch hmoves hc true⟩
  case changed b =>
    split at hs
    case isTrue =>
      cases hs
      exact ⟨place, hgoto .dead rfl trivial⟩
    case isFalse =>
      split at hs <;> cases hs
      case isTrue => exact ⟨place, h⟩
      case isFalse hn => exact ⟨place, hgoto (.chg b) rfl (not_or.mp hn).right⟩
  case written b =>
    split at hs
    case isTrue => contradiction
    case isFalse hn =>
      split at hs <;> cases hs
      case isTrue => exact ⟨place, hgoto .dead rfl trivial⟩
      case isFalse => exact ⟨place, h.cleaned hidle (not_or.mp hn).left false⟩
  case freeze b =>
    cases hs
    exact ⟨place, h.frozen b⟩
  case mbhash b =>
    split at hs
    case isTrue => contradiction
    case isFalse hn =>
      split at hs <;> cases hs
      case h_1 => exact ⟨place, hgoto .dead rfl trivial⟩
      case h_2 hfind =>
        exact ⟨place, h.hashed hmoves (not_or.mp hn).left hfind (.inr rfl) ⟨nofun, nofun⟩ (.inl rfl)⟩
  case mbunhash b =>
    split at hs <;> cases hs
    case isFalse =>
      exact ⟨place, h.unhashed hmoves hc.left (fun _ => h.not_pulled hc.right) rfl (fun _ _ => trivial)
        (.inl rfl)⟩
  case mbget addr mk =>
    split at hs
    case isTrue => contradiction
    split at hs
    case h_1 b _ =>
      cases hs
      exact ⟨place, hgoto (.get b) rfl trivial⟩
    case h_2 =>
      cases hs
      exact ⟨place, h⟩
    case h_3 b hfind =>
      split at hs <;> cases hs
      case isFalse hn =>
        have ⟨hu, ha⟩ := not_or.mp hn
        obtain rfl := Classical.not_not.mp ha
        exact ⟨place, h.hashed hmoves hu hfind (.inl rfl) ⟨nofun, nofun⟩ (.inr rfl)⟩
  case writedata =>
    split at hs <;> cases hs
    case isFalse hn =>
      have ⟨hdl, hm⟩ := not_or.mp hn
      exact ⟨place, h.writedata hmoves (Classical.not_not.mp hdl) (Classical.not_not.mp hm)⟩
  case fslru =>
    split at hs <;> cases hs
    case isFalse hn => exact ⟨place, h.fslru hmoves (Classical.not_not.mp hn)⟩

end Inv

end Creepy.Mblk
