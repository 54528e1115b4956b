import Nix.Creepy.RefsInvariant

namespace Creepy.Refs

variable {limit : Nat} {s s' : State} {a a' : Snapshot Image} {i i' : Image}

-- A crash comes only while each block that was changed is still frozen, so that no copy of it was
-- written. The writes of reference blocks do not fail, but for those of `writerefs`.
def Settled (s : State) : Act → Prop
  | .crash => ∀ g, ∀ rb ∈ s.mem g, rb.changed → rb.frozen
  | .dbclear ok | .dbclearodd ok | .dbaddref _ _ _ _ ok | .dbput _ _ ok | .syncref ok => ok
  | _ => True

namespace Image

theorem group_eq_some (h : i.group g = some x) : i.has g ∧ i.ref g = x := by
  rw [group] at h
  split at h
  case isTrue hg => exact ⟨hg, Option.some.inj h⟩
  case isFalse => contradiction

theorem group_of_has (h : i.has g) : i.group g = some (i.ref g) :=
  if_pos h

theorem bind_group_of_has {o : Option Image} (hi : i ∈ o) (h : i.has g) :
    i.ref g ∈ o.bind fun i => i.group g := by
  have hbind : o.bind (fun i => i.group g) = i.group g :=
    (congrArg (fun o => Option.bind o fun i => i.group g) hi).trans (Option.bind_some ..)
  exact hbind.trans (group_of_has h)

theorem group_congr (he : i'.eaddr = i.eaddr) (hr : i'.ref g = i.ref g) : i'.group g = i.group g := by
  rw [group, group, hr]
  exact if_congr (by rw [has, has, he]) rfl rfl

theorem has_set (g j v) : (i.set g j v).has k ↔ i.has k :=
  Iff.rfl

theorem Whole.has_extend (h : i.Whole) (k : Nat) :
    blkaddr (k * Nblkgrpsz + 2) < i.eaddr + Dblksz ↔ i.has k := by
  have ⟨n, he, _, h2⟩ := h
  have hadd := blkaddr_add n 1
  rw [Nat.one_mul] at hadd
  rw [has, he, hadd, blkaddr_lt_iff, blkaddr_lt_iff]
  simp only [Nblkgrpsz, Dblksz, Dblkhdrsz, Daddrsz] at *
  omega

theorem group_extend (h : i.Whole) (g : Nat) :
    { i with eaddr := i.eaddr + Dblksz }.group g = i.group g :=
  if_congr (h.has_extend g) rfl rfl

theorem Whole.extend (h : i.Whole) (hn : ¬newgroup i.eaddr) : { i with eaddr := i.eaddr + Dblksz }.Whole := by
  have ⟨n, he, h1, h2⟩ := h
  rw [he, newgroup_blkaddr] at hn
  have hadd := blkaddr_add n 1
  rw [Nat.one_mul, ← he] at hadd
  refine ⟨n + 1, hadd, ?_⟩
  simp only [Nblkgrpsz, Dblksz, Dblkhdrsz, Daddrsz] at *
  omega

theorem Whole.newgroup (h : i.Whole) (hn : newgroup i.eaddr) : ∃ g, i.eaddr = blkaddr (g * Nblkgrpsz) := by
  have ⟨n, he, _⟩ := h
  rw [he, newgroup_blkaddr] at hn
  exact ⟨n / Nblkgrpsz, by rw [he, Nat.div_mul_cancel (Nat.dvd_of_mod_eq_zero hn)]⟩

end Image

theorem groupof_blkaddr (g : Nat) : groupof (blkaddr (g * Nblkgrpsz)) = g := by
  simp only [groupof, blkaddr, Dblk0addr, Nblkgrpsz, Dblkhdrsz, Daddrsz, Dblksz]
  omega

namespace Inv

-- A step at a group that exists.
structure Local (s s' : State) (a a' : Snapshot Image) (g : Nat) : Prop where
  has      : a.now.has g
  odd      : s'.super.oddrefs = s.super.oddrefs
  super    : s'.super.free = a'.now.free ∧ s'.super.eaddr = a'.now.eaddr
  fzsuper  : s'.fzsuper = s.fzsuper
  saved    : s'.disk.super = s.disk.super
  clearing : s'.clearing = s.clearing
  past     : a'.frozen = a.frozen ∧ a'.saved = a.saved
  eaddr    : a'.now.eaddr = a.now.eaddr
  disk     : ∀ c k, k ≠ g → s'.disk.ref c k = s.disk.ref c k
  mem      : ∀ k, k ≠ g → s'.mem k = s.mem k
  now      : ∀ k, k ≠ g → a'.now.ref k = a.now.ref k

theorem Local.view_eq (l : Local s s' a a' g) (hk : k ≠ g) : view s' a' k = view s a k := by
  simp only [view, l.disk _ k hk, l.mem k hk, l.past, Image.group_congr l.eaddr (l.now k hk)]

theorem local_of_mem (h : Inv s a) (hhas : a.now.has g)
    (hs : s' = { s with phase := s'.phase, refs := s'.refs, freeing := s'.freeing, mem := s'.mem })
    (hm : ∀ k, k ≠ g → s'.mem k = s.mem k) :
    Local s s' a a g where
  has      := hhas
  odd      := by rw [hs]
  super    := by rw [hs]; exact h.super
  fzsuper  := by rw [hs]
  saved    := by rw [hs]
  clearing := by rw [hs]
  past     := ⟨rfl, rfl⟩
  eaddr    := rfl
  disk     := by rw [hs]; exact fun _ _ _ => rfl
  mem      := hm
  now      := fun _ _ => rfl

theorem ne_clearing (h : Inv s a) (hg : a.now.has g) (hk : k ∈ s.clearing) : k ≠ g := by
  rintro rfl
  obtain ⟨he, _⟩ := h.clearing k hk
  rw [Image.has, he, blkaddr_lt_iff] at hg
  omega

theorem of_local (h : Inv s a) (l : Local s s' a a' g)
    (hcur : s'.phase.cur s.super.oddrefs = s.phase.cur s.super.oddrefs)
    (hphase : s'.phase.Ok s.fzsuper.isSome)
    (hrefs : ∀ k, s'.mem k ≠ none → k ∈ s'.refs)
    (hfreeing : ∀ p ∈ s'.freeing, ∃ rb ∈ s'.mem p.fst, rb.loading = none ∧ rb.dirty ∧ ¬rb.frozen)
    (hothers : ∀ k, k ≠ g → GroupOk s'.phase s.super.oddrefs s.fzsuper.isSome k (view s a k))
    (hg : GroupOk s'.phase s.super.oddrefs s.fzsuper.isSome g (view s' a' g)) : Inv s' a' where
  super := l.super
  fzsuper := by rw [l.fzsuper, l.odd, l.past.left, h.fzsuper]
  saved := by rw [l.saved, l.odd, l.past.right, hcur, h.saved]
  refs := hrefs
  phase := l.fzsuper ▸ hphase
  freeing := hfreeing
  group k := by
    rw [l.odd, l.fzsuper]
    by_cases hk : k = g
    case pos => exact hk ▸ hg
    case neg => exact l.view_eq hk ▸ hothers k hk
  whole hcl := by
    have ⟨n, hn⟩ := h.whole (l.clearing ▸ hcl)
    exact ⟨n, l.eaddr ▸ hn⟩
  clearing k hk := by
    rw [l.clearing] at hk
    have hne := h.ne_clearing l.has hk
    have hc := h.clearing k hk
    rwa [l.eaddr, l.disk _ k hne, l.now k hne]
  past := ⟨l.past.left ▸ h.past.frozen, l.past.right ▸ h.past.saved⟩

theorem has_of_mem (h : Inv s a) (hm : s.mem g = some rb) : a.now.has g := by
  by_contra hn
  have hrest := (h.group g).rest (if_neg hn)
  rw [view, hm] at hrest
  exact absurd hrest.left nofun

theorem refs_put (h : Inv s a) (hm : s.mem g = some rb) (rb' : Ref) :
    ∀ k, (s.put g rb').mem k ≠ none → k ∈ s.refs := by
  intro k hk
  by_cases hg : k = g
  case pos => exact hg ▸ h.refs g (by simp [hm])
  case neg => exact h.refs k <| by simpa [State.put, hg] using hk

theorem freeing_put (h : Inv s a) (hm : s.mem g = some rb)
    (hrb : rb.loading = none ∧ rb.dirty ∧ ¬rb.frozen → rb'.loading = none ∧ rb'.dirty ∧ ¬rb'.frozen) :
    ∀ p ∈ s.freeing, ∃ rb ∈ (s.put g rb').mem p.fst, rb.loading = none ∧ rb.dirty ∧ ¬rb.frozen := by
  intro p hp
  have ⟨r, hr, hrest⟩ := h.freeing p hp
  by_cases hg : p.fst = g
  case pos =>
    rw [hg, hm] at hr
    obtain rfl := Option.some.inj hr
    exact ⟨rb', hg ▸ Function.update_self .., hrb hrest⟩
  case neg => exact ⟨r, (Function.update_of_ne hg ..).trans hr, hrest⟩

theorem dbget (h : Inv s a) (hs : step limit s (.dbget g) = some s') : Inv s' a := by
  simp only [step] at hs
  split at hs <;> cases hs
  case isTrue hc =>
    obtain ⟨hhas, hm, _⟩ := hc
    have hm : s.mem g = none := by simpa using hm
    have hhas : a.now.has g := by rwa [State.has, h.super.right] at hhas
    refine h.of_local (g := g) (h.local_of_mem hhas rfl fun k hk => Function.update_of_ne hk ..)
      rfl h.phase (fun k hk => ?refs) (fun p hp => ?freeing) (fun k _ => h.group k) ?group
    case refs =>
      by_cases hg : k = g
      case pos => exact hg ▸ List.mem_cons_self
      case neg => exact List.mem_cons_of_mem _ <| h.refs k <| by simpa [State.put, hg] using hk
    case freeing =>
      obtain ⟨rb, hrb, hrest⟩ := h.freeing p hp
      have hne : p.fst ≠ g := by
        intro he
        simp [he, hm] at hrb
      exact ⟨rb, (Function.update_of_ne hne ..).trans hrb, hrest⟩
    case group =>
      have hn : (view s a g).now ≠ none := by simp [view, Image.group_of_has hhas]
      simpa [view, State.put] using (h.group g).dbget hm hn rfl

theorem dbread (h : Inv s a) (hs : step limit s (.dbread g) = some s') : Inv s' a := by
  simp only [step] at hs
  split at hs
  case h_1 => contradiction
  case h_2 rb hm =>
    split at hs
    case h_1 => contradiction
    case h_2 odd hl =>
      cases hs
      refine h.of_local (g := g)
        (h.local_of_mem (h.has_of_mem hm) rfl fun k hk => Function.update_of_ne hk ..)
        rfl h.phase (h.refs_put hm _) (h.freeing_put hm (by simp [hl])) (fun k _ => h.group k) ?_
      simpa [view, State.put] using (h.group g).dbread hm (by simp [hl]) odd

theorem fz_oddrefs (h : Inv s a) (hz : s.fzsuper.isSome) :
    s.fzsuper.any (·.oddrefs) = !s.super.oddrefs := by
  rw [h.fzsuper] at hz ⊢
  cases ha : a.frozen
  case none => simp [ha] at hz
  case some => rfl

theorem put_eq (hm : s.mem g = some rb) : s.put g rb = s := by
  rw [State.put, ← hm, Function.update_eq_self]

theorem loaded_of_frozen (h : Inv s a) (hm : s.mem g = some rb) (hf : rb.frozen) : rb.loading = none := by
  by_contra hl
  exact ((h.group g).loading rb hm hl).right.left hf

theorem meltedref (h : Inv s a) (hm : s.mem g = some rb) : Inv (s.meltedref g rb true) a := by
  by_cases hf : rb.frozen
  case neg => rwa [State.meltedref_of_not_frozen hf, put_eq hm]
  case pos =>
    have hl := h.loaded_of_frozen hm hf
    by_cases hd : rb.dirty
    case neg =>
      rw [State.meltedref_of_not_dirty hd]
      refine h.of_local (g := g)
        (h.local_of_mem (h.has_of_mem hm) rfl fun k hk => Function.update_of_ne hk ..)
        rfl h.phase (h.refs_put hm _) (h.freeing_put hm (by simp [hf])) (fun k _ => h.group k) ?_
      simpa [view, State.put] using (h.group g).thawed hm hl (by simp [hd])
    case pos =>
      rw [State.meltedref_of_dirty hf hd, h.fz_oddrefs ((h.group g).froze rb hm hf).left]
      refine h.of_local (g := g)
        { has      := h.has_of_mem hm
          odd      := rfl
          super    := h.super
          fzsuper  := rfl
          saved    := rfl
          clearing := rfl
          past     := ⟨rfl, rfl⟩
          eaddr    := rfl
          disk     := fun c k hk => Disk.pwrite_of_ne hk
          mem      := fun k hk => Function.update_of_ne hk ..
          now      := fun _ _ => rfl }
        rfl h.phase (h.refs_put hm _) (h.freeing_put hm (by simp [hf])) (fun k _ => h.group k) ?_
      simpa [view, State.put, Disk.pwrite_self] using (h.group g).written hm hl hf hd

theorem ref_eq (h : Inv s a) (hm : s.mem g = some rb) (hl : rb.loading = none) : a.now.ref g = rb.ref := by
  have hload := (h.group g).loaded rb hm hl
  simp only [view, Image.group_of_has (h.has_of_mem hm)] at hload
  exact Option.some.inj hload

theorem set (h : Inv s a) (hm : s.mem g = some rb) (hl : rb.loading = none) (hf : ¬rb.frozen) (j : Nat)
    (v : UInt64) :
    Inv (s.put g { rb with ref := Function.update rb.ref j v, dirty := true })
      (a.update fun i => i.set g j v) := by
  have hhas := h.has_of_mem hm
  refine h.of_local (g := g)
    { has      := hhas
      odd      := rfl
      super    := h.super
      fzsuper  := rfl
      saved    := rfl
      clearing := rfl
      past     := ⟨rfl, rfl⟩
      eaddr    := rfl
      disk     := fun _ _ _ => rfl
      mem      := fun k hk => Function.update_of_ne hk ..
      now      := fun k hk => Function.update_of_ne hk .. }
    rfl h.phase (h.refs_put hm _) (h.freeing_put hm (by simp +contextual)) (fun k _ => h.group k) ?_
  have hnow : (a.update fun i => i.set g j v).now.group g = some (Function.update rb.ref j v) := by
    rw [Snapshot.update_now, Image.group_of_has (i := a.now.set g j v) hhas]
    simp [Image.set, h.ref_eq hm hl]
  have hg := (h.group g).update hm hl hf (Function.update rb.ref j v)
  simpa only [view, State.put, hnow, Function.update_self, Snapshot.update_frozen, Snapshot.update_saved] using hg

theorem dbaddref (h : Inv s a) (hm : s.mem g = some rb) (hl : rb.loading = none) (j : Nat)
    (delta set : UInt64) :
    Inv (s.dbaddref g rb j delta set true)
      (a.update fun i => i.set g j (if set ≠ 0 then set else i.ref g j + delta)) := by
  have hrb : rb.melted true = { rb with dirty := rb.dirty ∧ ¬rb.frozen, frozen := false } := by
    simp [Ref.melted]
  have hmelt := h.meltedref hm
  have hm' : (s.meltedref g rb true).mem g = some (rb.melted true) := by
    rw [State.meltedref_mem, Function.update_self]
  have hset := hmelt.set hm' (by simp [hrb, hl]) (by simp [hrb]) j
    (if set ≠ 0 then set else rb.ref j + delta)
  simpa [State.dbaddref, hrb, Ref.add, Snapshot.update, h.ref_eq hm hl] using hset

theorem set_freeing (h : Inv s a)
    (hl : ∀ p ∈ l, ∃ rb ∈ s.mem p.fst, rb.loading = none ∧ rb.dirty ∧ ¬rb.frozen) :
    Inv { s with freeing := l } a :=
  { h with freeing := hl }

theorem dbput (h : Inv s a) (hm : s.mem g = some rb) (hl : rb.loading = none) (j : Nat)
    (last : Prop) [Decidable last] :
    Inv
      { s.dbaddref g rb j (-1) 0 true with freeing := if last then (g, j) :: s.freeing else s.freeing }
      (a.update fun i => i.set g j (i.ref g j - 1)) := by
  have hadd := h.dbaddref hm hl j (-1) 0
  simp only [ne_eq, not_true_eq_false, if_false, ← UInt64.sub_eq_add_neg] at hadd
  have hfreeing := hadd.freeing
  rw [State.dbaddref_freeing] at hfreeing
  refine hadd.set_freeing ?_
  split
  case isFalse => exact hfreeing
  case isTrue =>
    refine List.forall_mem_cons.mpr ⟨⟨_, State.dbaddref_mem, ?_⟩, hfreeing⟩
    simp [Ref.add, Ref.melted, hl]

theorem set_free (h : Inv s a) (v : UInt64) :
    Inv { s with super.free := v } (a.update fun i => { i with free := v }) :=
  { h with
    super := ⟨rfl, h.super.right⟩
    past  := h.past.update _ }

theorem link (h : Inv s a) (hs : step limit s (.link g j) = some s') :
    Inv s' (note s (.link g j) a) := by
  simp only [step] at hs
  split at hs
  case h_1 => contradiction
  case h_2 rb hm =>
    split at hs <;> cases hs
    case isTrue hc =>
      have ⟨r, hr, hl, hd, hf⟩ := h.freeing _ hc.left
      rw [hm] at hr
      obtain rfl := Option.some.inj hr
      have hset := (h.set hm hl hf j s.super.free).set_free (.ofNat (addrofref (groupaddr g) j))
      have hrb : { rb with ref := Function.update rb.ref j s.super.free } =
          { rb with ref := Function.update rb.ref j s.super.free, dirty := true } := by simp [← hd]
      have hfreeing p (hp : p ∈ s.freeing.erase (g, j)) := hset.freeing p (List.mem_of_mem_erase hp)
      rw [hrb]
      simpa [note_link, Snapshot.update, h.super.left] using hset.set_freeing hfreeing

theorem goto (h : Inv s a) (hcur : p.cur s.super.oddrefs = s.phase.cur s.super.oddrefs)
    (hphase : p.Ok s.fzsuper.isSome) (hlive : p = .idle ∨ s.phase ≠ .idle)
    (hf : ∀ g, ∀ rb ∈ s.mem g, rb.frozen → p.MayFreeze g)
    (hc : ∀ g, ∀ rb ∈ s.mem g, rb.changed → p.MayChange s.fzsuper.isSome g) :
    Inv { s with phase := p } a :=
  { h with
    saved := by rw [hcur]; exact h.saved
    phase := hphase
    group := fun g => by
      refine (h.group g).goto hcur (fun hl hi => ?_) (hf g) (hc g)
      exact hl <| hlive.resolve_right (· hi) }

theorem freezesuperrefs (h : Inv s a) (hs : step limit s .freezesuperrefs = some s') :
    Inv s' (note s .freezesuperrefs a) := by
  simp only [step] at hs
  split at hs <;> cases hs
  case isTrue hc =>
    have ⟨hph, hz, hcl, hfree, hload⟩ := hc
    have ha : a.frozen = none := by
      have hfz := h.fzsuper
      rw [hz] at hfz
      exact Option.map_eq_none_iff.mp hfz.symm
    exact
      { super := h.super
        fzsuper := by simp [note_freezesuperrefs, Snapshot.freeze, Image.super, h.super]
        saved := by simpa [note_freezesuperrefs, Snapshot.freeze, Phase.cur, hph] using h.saved
        refs := fun g hg => h.refs g <| by simpa using hg
        phase := rfl
        freeing := by simp [hfree]
        group := fun g => by
          have hg := h.group g
          rw [hph, hz] at hg
          have hgf := hg.freeze fun rb hrb => by
            have hmem : s.mem g = some rb := hrb
            simpa using hload g (h.refs g (by simp [hmem])) rb hrb
          simpa [view, note_freezesuperrefs, Snapshot.freeze] using hgf
        whole := fun hcl => h.whole hcl
        clearing := h.clearing
        past := h.past.freeze (h.whole hcl) }

theorem fswrite (h : Inv s a) (hs : step limit s .fswrite = some s') : Inv s' a := by
  simp only [step] at hs
  split at hs <;> cases hs
  case isTrue hph =>
    have hp := h.phase
    rw [hph] at hp
    refine h.goto (by rw [hph]; rfl) hp (.inr (by simp [hph])) (fun g rb hrb _ => ?_) fun g rb hrb hc => ?_
    case refine_1 => exact h.refs g (by simp [Option.mem_def.mp hrb])
    case refine_2 => exact hp

theorem writeref (h : Inv s a) (hs : step limit s (.writeref ok) = some s') : Inv s' a := by
  have hfz := h.phase
  simp only [step] at hs
  split at hs
  case h_3 => contradiction
  case h_1 hph =>
    cases hs
    rw [hph] at hfz
    refine h.goto (by rw [hph]; rfl) hfz (.inr (by simp [hph])) (fun g rb hrb hf => ?_) fun g rb hrb hc => hfz
    have hm := ((h.group g).froze rb hrb hf).right.right
    simp [hph, Phase.MayFreeze] at hm
  case h_2 g l hph =>
    rw [hph] at hfz
    split at hs
    case h_1 => contradiction
    case h_2 rb hm =>
      split at hs
      case isTrue =>
        cases hs
        have hmelt := h.meltedref hm
        have hz : s.fzsuper.isSome := hfz
        refine hmelt.goto (p := .writerefs l) (by simp [hph, Phase.cur]) (by simp [Phase.Ok, hz])
          (.inr (by simp [hph])) (fun k rb' hrb hf => ?_) fun k rb' hrb hc => by simp [Phase.MayChange, hz]
        have hmay := ((hmelt.group k).froze rb' hrb hf).right.right
        rw [State.meltedref_phase, hph] at hmay
        refine (List.mem_cons.mp hmay).resolve_left fun hk => ?_
        subst hk
        rw [State.meltedref_mem, Function.update_self] at hrb
        simp [← Option.some.inj hrb, Ref.melted] at hf
      case isFalse =>
        split at hs <;> cases hs
        case isTrue hw =>
          obtain ⟨hf, hd⟩ : rb.frozen ∧ rb.dirty := by simpa [Ref.writes] using hw
          have hl := h.loaded_of_frozen hm hf
          have hz : s.fzsuper.isSome := hfz
          rw [State.meltedref_fails hw]
          refine h.of_local (g := g)
            (h.local_of_mem (h.has_of_mem hm) rfl fun k hk => Function.update_of_ne hk ..)
            (by rw [hph]; rfl) trivial (h.refs_put hm _) (h.freeing_put hm (by simp [hf]))
            (fun k _ => ?_) ?_
          case refine_1 =>
            exact (h.group k).goto (by rw [hph]; rfl) (fun hl => absurd hz (hl rfl))
              (fun _ _ _ => trivial) fun _ _ _ => hfz
          case refine_2 =>
            have hg := h.group g
            rw [hz, hph] at hg
            simpa [view, State.put, hz] using hg.spoiled hm hl rfl

theorem writedatafails (h : Inv s a) (hs : step limit s .writedatafails = some s') : Inv s' a := by
  simp only [step] at hs
  split at hs <;> cases hs
  case isTrue hph =>
    have hfz := h.phase
    rw [hph] at hfz
    exact h.goto (by rw [hph]; rfl) trivial (.inl rfl) (fun _ _ _ _ => trivial) fun _ _ _ _ => hfz

theorem writezsuper (h : Inv s a) (hs : step limit s (.writezsuper ok) = some s') :
    Inv s' (note s (.writezsuper ok) a) := by
  have hfz := h.phase
  simp only [step] at hs
  split at hs
  case h_2 => contradiction
  case h_1 fz hph hz =>
    split at hs <;> cases hs
    case isFalse hok =>
      have hok : ok = false := by simpa using hok
      rw [hph] at hfz
      subst hok
      exact h.goto (by rw [hph]; rfl) trivial (.inl rfl) (fun _ _ _ _ => trivial) fun _ _ _ _ => hfz
    case isTrue hok =>
      subst hok
      have hfzs := h.fzsuper
      rw [hz] at hfzs
      exact
        { super := h.super
          fzsuper := rfl
          saved := hfzs
          refs := h.refs
          phase := nofun
          freeing := h.freeing
          group := fun g => by
            have hg := h.group g
            rw [hph, hz] at hg
            exact hg.writezsuper
          whole := h.whole
          clearing := h.clearing
          past := h.past.save }

theorem syncrefs (h : Inv s a) (hs : step limit s .syncrefs = some s') : Inv s' a := by
  simp only [step] at hs
  split at hs <;> cases hs
  case isTrue hph =>
    have hp := h.phase
    have hsaved := h.saved
    have hfz := h.fzsuper
    rw [hph] at hp hsaved
    have hz : s.fzsuper = none := by simpa [Phase.Ok] using hp
    have ha : a.frozen = none := by rw [hz] at hfz; exact Option.map_eq_none_iff.mp hfz.symm
    exact
      { h with
        fzsuper := by simp [hz, ha]
        saved := hsaved
        phase := hp
        group := fun g => by
          have hg := h.group g
          rw [hph, hz] at hg
          simpa [hz, view] using hg.syncrefs (by simp [view, ha]) (h.refs g) }

theorem syncref {ok : Bool} (h : Inv s a) (hok : ok) (hs : step limit s (.syncref ok) = some s') :
    Inv s' a := by
  obtain rfl : ok = true := hok
  have hp := h.phase
  have hfz := h.fzsuper
  simp only [step] at hs
  split at hs
  case h_3 => contradiction
  case h_1 hph =>
    cases hs
    refine h.goto (by rw [hph]; rfl) trivial (.inl rfl) (fun _ _ _ _ => trivial) fun g rb hrb hc => ?_
    have hm := (h.group g).change rb hrb hc
    simp [hph, Phase.MayChange] at hm
  case h_2 g l hph =>
    rw [hph] at hp
    have hz : s.fzsuper = none := by simpa [Phase.Ok] using hp
    have ha : a.frozen = none := by rw [hz] at hfz; exact Option.map_eq_none_iff.mp hfz.symm
    -- The blocks that are left.
    have hleft k (hk : k ≠ g) : GroupOk (.syncrefs l) s.super.oddrefs false k (view s a k) := by
      have hg := h.group k
      rw [hz, hph] at hg
      refine hg.goto rfl (fun _ => (by simp)) (fun rb hrb hf => ?_) fun rb hrb hc => ?_
      case refine_1 => exact absurd (hg.froze rb hrb hf).left (by simp)
      case refine_2 => exact (List.mem_cons.mp (hg.change rb hrb hc)).resolve_left hk
    split at hs
    case h_1 => contradiction
    case h_2 rb hm =>
      have hg := h.group g
      rw [hz, hph] at hg
      split at hs
      case isTrue hc =>
        cases hs
        refine { h with phase := hp, saved := ?_, group := fun k => ?_ }
        case refine_1 => simpa [hph, Phase.cur] using h.saved
        case refine_2 =>
          by_cases hk : k = g
          case neg => simpa [hz, view] using hleft k hk
          case pos =>
            subst hk
            refine hz ▸ hg.goto rfl (fun _ => (by simp)) (fun rb hrb hf => ?_) fun rb' hrb hc' => ?_
            case refine_1 => exact absurd (hg.froze rb hrb hf).left (by simp)
            case refine_2 =>
              have he : rb' = rb := Option.some.inj (hrb.symm.trans hm)
              exact absurd (he ▸ hc') hc
      case isFalse hc =>
        cases hs
        refine h.of_local (g := g)
          { has      := h.has_of_mem hm
            odd      := rfl
            super    := h.super
            fzsuper  := rfl
            saved    := rfl
            clearing := rfl
            past     := ⟨rfl, rfl⟩
            eaddr    := rfl
            disk     := fun c k hk => Disk.pwrite_of_ne hk
            mem      := fun k hk => Function.update_of_ne hk ..
            now      := fun _ _ => rfl }
          (by rw [hph]; rfl) hp (h.refs_put hm _) (h.freeing_put hm (by simp)) (fun k hk => hz ▸ hleft k hk) ?_
        have hsync := hg.synced (by simp [view, ha]) hm (not_not.mp hc) l
        simpa [view, State.put, hz, Disk.pwrite_self] using hsync

theorem extend (h : Inv s a) (hs : step limit s .extend = some s') : Inv s' (note s .extend a) := by
  simp only [step] at hs
  split at hs <;> cases hs
  case isTrue hc =>
    have ⟨hcl, _, _, hn⟩ := hc
    have hwhole := h.whole hcl
    exact
      { h with
        super := ⟨h.super.left, congrArg (· + Dblksz) h.super.right⟩
        group := fun g => by
          have hg := h.group g
          rwa [view, ← Image.group_extend hwhole] at hg
        whole := fun _ => hwhole.extend (h.super.right ▸ hn)
        clearing := by simp [hcl]
        past := ⟨h.past.frozen, h.past.saved⟩ }

theorem takefree (h : Inv s a) (hs : step limit s (.takefree naddr) = some s') :
    Inv s' (note s (.takefree naddr) a) := by
  simp only [step] at hs
  split at hs <;> cases hs
  exact h.set_free naddr

theorem dbclear {ok : Bool} (h : Inv s a) (hok : ok) (hs : step limit s (.dbclear ok) = some s') :
    Inv s' (note s (.dbclear ok) a) := by
  obtain rfl : ok = true := hok
  simp only [step] at hs
  split at hs <;> cases hs
  case isTrue hc =>
    obtain ⟨hcl, _, _, hn⟩ := hc
    have hwhole := h.whole hcl
    rw [h.super.right] at hn
    obtain ⟨g, he⟩ := hwhole.newgroup hn
    have hgs : groupof s.super.eaddr = g := by rw [h.super.right, he, groupof_blkaddr]
    have hga : groupof a.now.eaddr = g := by rw [he, groupof_blkaddr]
    have hno : ¬a.now.has g := by
      rw [Image.has, he, blkaddr_lt_iff]
      omega
    have hnote : note s (.dbclear true) a = a.update fun i => { i with
        eaddr := i.eaddr + Dblksz
        ref   := Function.update i.ref g 0 } := by simp only [note_dbclear, Snapshot.update, hga]
    have hnow k (hk : k ≠ g) : { a.now with
        eaddr := a.now.eaddr + Dblksz
        ref   := Function.update a.now.ref g 0 }.group k = a.now.group k := by
      rw [← Image.group_extend hwhole k]
      exact Image.group_congr rfl (Function.update_of_ne hk ..)
    obtain ⟨hm, hf, hsv⟩ := (h.group g).rest (if_neg hno)
    rw [hgs, hnote]
    exact
      { h with
        super := ⟨h.super.left, congrArg (· + Dblksz) h.super.right⟩
        group := fun k => by
          by_cases hk : k = g
          case pos =>
            subst hk
            exact .absent (if_neg <| (hwhole.has_extend k).not.mpr hno) hm hf hsv
          case neg =>
            have hg := h.group k
            simpa [view, hnow k hk, Disk.pwrite_of_ne hk] using hg
        whole := by simp
        clearing := fun k hk => by
          obtain rfl := Option.some.inj hk
          have hadd := blkaddr_add (g * Nblkgrpsz) 1
          rw [Nat.one_mul, ← he] at hadd
          exact ⟨hadd, by simp [Disk.pwrite], by simp⟩
        past := ⟨h.past.frozen, h.past.saved⟩ }

theorem dbclearodd {ok : Bool} (h : Inv s a) (hok : ok) (hs : step limit s (.dbclearodd ok) = some s') :
    Inv s' (note s (.dbclearodd ok) a) := by
  obtain rfl : ok = true := hok
  simp only [step] at hs
  split at hs
  case h_1 => contradiction
  case h_2 g hcl =>
    cases hs
    obtain ⟨he, hd, hr⟩ := h.clearing g hcl
    have hno : ¬a.now.has g := by
      rw [Image.has, he, blkaddr_lt_iff]
      omega
    have hadd := blkaddr_add (g * Nblkgrpsz + 1) 2
    rw [← he] at hadd
    obtain ⟨hm, hf, hsv⟩ := (h.group g).rest (if_neg hno)
    -- The new group comes after the others.
    have hnow k (hk : k ≠ g) : { a.now with eaddr := a.now.eaddr + 2 * Dblksz }.group k = a.now.group k := by
      refine if_congr ?_ rfl rfl
      rw [Image.has, Image.has, hadd, he, blkaddr_lt_iff, blkaddr_lt_iff]
      simp only [Nblkgrpsz, Dblksz, Dblkhdrsz, Daddrsz]
      omega
    have hnew : { a.now with eaddr := a.now.eaddr + 2 * Dblksz }.group g = some 0 := by
      rw [← hr]
      refine if_pos ?_
      rw [Image.has, hadd, blkaddr_lt_iff]
      omega
    exact
      { h with
        super := ⟨h.super.left, congrArg (· + 2 * Dblksz) h.super.right⟩
        group := fun k => by
          by_cases hk : k = g
          case pos =>
            subst hk
            refine .created hnew (fun c => ?_) hm hf hsv
            cases c
            case false => simpa [view, Disk.pwrite] using hd
            case true => simp [view, Disk.pwrite]
          case neg =>
            have hg := h.group k
            simpa [view, note_dbclearodd, hnow k hk, Disk.pwrite_of_ne hk] using hg
        whole := fun _ => by
          refine ⟨g * Nblkgrpsz + 1 + 2, hadd, ?_⟩
          simp only [Nblkgrpsz, Dblksz, Dblkhdrsz, Daddrsz]
          omega
        clearing := by simp
        past := ⟨h.past.frozen, h.past.saved⟩ }

theorem crash (h : Inv s a) (hc : Settled s .crash) (hs : step limit s .crash = some s') :
    Inv s' (note s .crash a) := by
  obtain ⟨sb, hsb, hs⟩ := Option.map_eq_some_iff.mp hs
  subst hs
  have hsaved := h.saved
  rw [hsb] at hsaved
  obtain ⟨i, hi, he⟩ := Option.map_eq_some_iff.mp hsaved.symm
  subst he
  have hnow : (note s .crash a).now = i := by simp [note_crash, Snapshot.crash, hi]
  exact
    { super := by rw [hnow]; exact ⟨rfl, rfl⟩
      fzsuper := rfl
      saved := h.saved
      refs := by simp [fsopen]
      phase := trivial
      freeing := by simp [fsopen]
      group := fun g => by
        have hg := (h.group g).crash (hc g)
        simpa [view, hnow, hi, note_crash, Snapshot.crash, fsopen, Image.super] using hg
      whole := fun _ => h.past.now_crash hi
      clearing := by simp [fsopen]
      past := h.past.crash }

theorem step (h : Inv s a) (hc : Settled s act) (hs : step limit s act = some s') :
    Inv s' (note s act a) := by
  cases act
  case dbclear ok => exact h.dbclear hc hs
  case dbclearodd ok => exact h.dbclearodd hc hs
  case extend => exact h.extend hs
  case takefree => exact h.takefree hs
  case dbget => exact h.dbget hs
  case dbread => exact h.dbread hs
  case dbaddref g j delta v ok =>
    obtain rfl : ok = true := hc
    simp only [Refs.step] at hs
    split at hs
    case h_1 => contradiction
    case h_2 rb hm =>
      split at hs <;> cases hs
      case isTrue hl => exact h.dbaddref hm (by simpa using hl.left) j delta v
  case dbput g j ok =>
    obtain rfl : ok = true := hc
    simp only [Refs.step] at hs
    split at hs
    case h_1 => contradiction
    case h_2 rb hm =>
      split at hs <;> cases hs
      case isTrue hl => exact h.dbput hm (by simpa using hl.left) j _
  case link => exact h.link hs
  case freezesuperrefs => exact h.freezesuperrefs hs
  case fswrite => exact h.fswrite hs
  case writeref => exact h.writeref hs
  case writedatafails => exact h.writedatafails hs
  case writezsuper => exact h.writezsuper hs
  case syncrefs => exact h.syncrefs hs
  case syncref => exact h.syncref hc hs
  case crash => exact h.crash hc hs

end Inv

end Creepy.Refs
