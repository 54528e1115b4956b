import Nix.Creepy.Readdir

namespace Creepy.Readdir

open Fblk Dir

variable {d d' : Dir.State} {s s' : State} {k j n a : Nat}

-- What a request for a child does to the entries: the first one that is free is used, one is given up, or none.
inductive Moved (d d' : Dir.State) : Dir.Act → Prop
  | create {name : String} {dir : Bool} {na j : Nat} (hj : j ∉ d.used) (hfirst : ∀ i < j, i ∈ d.used)
    (hused : d'.used = insert j d.used) : Moved d d' (.create name dir na)
  | remove {a j : Nat} (hj : j ∈ d.used) (he : entry d.d j = a) (hused : d'.used = d.used.erase j) :
    Moved d d' (.remove a)
  | rename {a : Nat} {name : String} (hused : d'.used = d.used) : Moved d d' (.rename a name)
  | melt {a na : Nat} (hused : d'.used = d.used) : Moved d d' (.melt a na)

theorem shape_setchild (h : Shape d) (a : Nat) (c : Child) : Shape (d.setchild a c) :=
  ⟨h.layout, h.ndents⟩

theorem moved_of_step {act : Dir.Act} (h : Shape d) (hs : Dir.step d act = some d') : Shape d' ∧ Moved d d' act := by
  cases act
  case create name dir na =>
    rw [Dir.step] at hs
    split at hs
    case isTrue => contradiction
    case isFalse hg =>
      simp only [not_or, not_not] at hg
      obtain ⟨_, _, _, hfresh⟩ := hg
      obtain ⟨hne, _, j, f, hch, hfirst, he⟩ := dfchdentry_found (eq_ok_of_toOption hs) hfresh.right.left
      have hsc := shape_setchild h na { name := name, dir := dir }
      have hz : na ≠ 0 := Nat.ne_of_gt hfresh.left
      have hused := hsc.used_chdentry hch
      rw [if_neg hz] at hused
      subst he
      refine ⟨hsc.chdentry hch hne, .create (j := j) ?_ (fun i hi => ?_) hused⟩
      · exact fun hj => ((mem_used_iff h.layout).mp hj).right hch.old
      · refine (mem_used_iff h.layout).mpr ⟨?_, hfirst i hi⟩
        exact Nat.le_trans (Nat.mul_le_mul_right _ (Nat.succ_le_succ hi.le)) hch.le
  case remove a =>
    have hs := eq_ok_of_toOption hs
    rw [Dir.State.dfremove] at hs
    cases hd : d.dfchdentry a 0
    case error => rw [hd] at hs; contradiction
    case ok t =>
      obtain ⟨hne, _, j, f, hch, he⟩ := dfchdentry_eq_ok hd (by decide)
      have ht : Shape t := he ▸ h.chdentry hch hne
      have hused : t.used = d.used.erase j := by rw [he, h.used_chdentry hch, if_pos rfl]
      have hj : j ∈ d.used := (mem_used_iff h.layout).mpr ⟨hch.le, hch.old ▸ hne⟩
      rw [hd] at hs
      obtain rfl := Except.ok.inj hs
      split
      case isTrue hz =>
        refine ⟨ht.reset hz.left, .remove hj hch.old ?_⟩
        rw [← hused, ht.used_eq_empty hz.left]
        simp [Dir.State.used]
      case isFalse => exact ⟨ht, .remove hj hch.old hused⟩
  case rename a name =>
    rw [Dir.step] at hs
    split at hs
    case isTrue => exact Option.some.inj hs ▸ ⟨h, .rename rfl⟩
    split at hs
    case isTrue => contradiction
    case isFalse => exact Option.some.inj hs ▸ ⟨shape_setchild h _ _, .rename rfl⟩
  case melt a na =>
    rw [Dir.step] at hs
    split at hs
    case isTrue => contradiction
    case isFalse hg =>
      simp only [not_or, not_not] at hg
      obtain ⟨ha, hfresh⟩ := hg
      obtain ⟨hne, _, j, f, hch, he⟩ := dfchdentry_eq_ok (eq_ok_of_toOption hs) hfresh.right.left
      have hsc := shape_setchild h na (d.child a)
      have hj : j ∈ d.used := (mem_used_iff h.layout).mpr ⟨hch.le, hch.old ▸ ha⟩
      have hused := hsc.used_chdentry hch
      rw [if_neg (Nat.ne_of_gt hfresh.left)] at hused
      subst he
      exact ⟨hsc.chdentry hch hne, .melt <| hused.trans <| Finset.insert_eq_of_mem hj⟩

theorem shape_invariant : Dir.machine.Invariant (fun _ _ => True) Shape where
  init h := (created_inv h).shape
  step h _ hs := (moved_of_step h hs).left

-- The entries that were read keep their places: a new child is put behind them, and none of them is removed. A read has
-- room for the next entry, and does not fail after it has packed some.
def Steady (s : State) : Act → Prop
  | .dir (.create ..)             => ∀ k < s.fid.lidx, k ∈ s.dir.used
  | .dir (.remove a)              => a ∉ (children s.dir).take s.fid.lidx
  | .dir _                        => True
  | .fidread count _ stat io      =>
    (∀ a ∈ (children s.dir)[s.fid.lidx]?, (packed (stat a)).length ≤ count) ∧
      ∀ a ∈ (children s.dir).drop (s.fid.lidx + 1), io a = true

structure Sound (s : State) : Prop where
  shape  : Shape s.dir
  who    : Set.InjOn s.who s.dir.used
  next   : ∀ k ∈ s.dir.used, s.who k < s.next
  opened : ∀ e ∈ s.opened, e < s.next
  seen   : ∀ k ∈ s.dir.used, s.who k ∈ s.seen
  had    : ∀ e ∈ s.got, e ∈ s.seen
  le     : s.fid.lidx ≤ s.ids.length
  got    : s.ids.take s.fid.lidx = s.got
  whole  : ∀ r ∈ s.replies, r.data = r.stats.flatMap packed ∧ r.entries.length = r.stats.length
  ended  : s.ended = true → ∀ e ∈ s.opened, e ∈ s.ids → e ∈ s.got

theorem mem_ids {e : Nat} : e ∈ s.ids ↔ ∃ k ∈ s.dir.used, s.who k = e := by
  rw [State.ids, List.mem_map]
  exact exists_congr fun k => and_congr_left fun _ => mem_slots

theorem ids_length (s : State) : s.ids.length = s.dir.used.card := by
  rw [State.ids, List.length_map, slots_eq, Finset.length_sort]

theorem who_change (s : State) (hk : k ∈ s.dir.used) : (s.change d).who k = s.who k :=
  if_neg fun h => h.right hk

theorem who_change_new (s : State) (hk : k ∈ d.used) (hn : k ∉ s.dir.used) : (s.change d).who k = s.next :=
  if_pos ⟨hk, hn⟩

namespace Sound

theorem change (h : Sound s) (hshape : Shape d) (hnew : ∀ i ∈ d.used, ∀ k ∈ d.used, i ∉ s.dir.used → k ∉ s.dir.used → i = k)
    (htake : d.used.sort.take s.fid.lidx = s.dir.used.sort.take s.fid.lidx) (hle : s.fid.lidx ≤ d.used.card) :
    Sound (s.change d) := by
  have hold {k : Nat} (hk : k ∈ s.dir.used) : (s.change d).who k = s.who k := who_change s hk
  have hnext {k : Nat} (hk : k ∈ d.used) (hk' : k ∉ s.dir.used) : (s.change d).who k = s.next :=
    who_change_new s hk hk'
  have hlt : ∀ k ∈ d.used, (s.change d).who k < s.next + 1 := by
    intro k hk
    by_cases hk' : k ∈ s.dir.used
    case pos =>
      rw [hold hk']
      exact (h.next k hk').trans (Nat.lt_succ_self _)
    case neg =>
      rw [hnext hk hk']
      exact Nat.lt_succ_self _
  have hgot : (s.change d).ids.take s.fid.lidx = s.got := by
    have hids : (s.change d).ids = d.used.sort.map (s.change d).who := by rw [State.ids, slots_eq]; rfl
    rw [hids, ← List.map_take, htake, ← h.got, State.ids, ← List.map_take, slots_eq]
    exact List.map_congr_left fun k hk => hold <| (Finset.mem_sort _).mp <| List.mem_of_mem_take hk
  constructor
  case shape => exact hshape
  case who =>
    intro i hi k hk he
    by_cases hi' : i ∈ s.dir.used <;> by_cases hk' : k ∈ s.dir.used
    · rw [hold hi', hold hk'] at he
      exact h.who hi' hk' he
    · rw [hold hi', hnext hk hk'] at he
      exact absurd he <| Nat.ne_of_lt <| h.next i hi'
    · rw [hnext hi hi', hold hk'] at he
      exact absurd he.symm <| Nat.ne_of_lt <| h.next k hk'
    · exact hnew i hi k hk hi' hk'
  case next => exact hlt
  case opened => exact fun e he => (h.opened e he).trans (Nat.lt_succ_self _)
  case seen => exact fun k hk => Finset.mem_union_right _ <| Finset.mem_image_of_mem _ hk
  case had => exact fun e he => Finset.mem_union_left _ <| h.had e he
  case le => exact (ids_length (s.change d)).symm ▸ hle
  case got => exact hgot
  case whole => exact h.whole
  case ended =>
    intro he e heo hmem
    obtain ⟨k, hk, rfl⟩ := mem_ids.mp hmem
    by_cases hk' : k ∈ s.dir.used
    case pos =>
      rw [hold hk'] at heo ⊢
      exact h.ended he _ heo <| mem_ids.mpr ⟨k, hk', rfl⟩
    case neg =>
      rw [hnext hk hk'] at heo
      exact absurd (h.opened _ heo) (Nat.lt_irrefl _)

theorem create (h : Sound s) (hc : ∀ k < s.fid.lidx, k ∈ s.dir.used)
    (hshape : Shape d) (hj : j ∉ s.dir.used) (hfirst : ∀ i < j, i ∈ s.dir.used) (hused : d.used = insert j s.dir.used) :
    Sound (s.change d) := by
  have hle : s.fid.lidx ≤ s.dir.used.card := h.le.trans (ids_length s).le
  have hjle : s.fid.lidx ≤ j := Nat.le_of_not_lt fun hlt => hj (hc j hlt)
  have hcard : s.fid.lidx ≤ ({b ∈ s.dir.used | b < j} : Finset Nat).card := by
    refine hjle.trans <| (Finset.card_range j).ge.trans <| Finset.card_le_card fun i hi => ?_
    have hi := Finset.mem_range.mp hi
    exact Finset.mem_filter.mpr ⟨hfirst i hi, hi⟩
  refine h.change hshape (fun i hi k hk hi' hk' => ?_) ?_ ?_
  · rw [hused] at hi hk
    rw [(Finset.mem_insert.mp hi).resolve_right hi', (Finset.mem_insert.mp hk).resolve_right hk']
  · refine (Finset.take_sort_eq (a := j) (fun b hb => ?_) hcard).symm
    rw [hused, Finset.mem_insert, or_iff_right (Nat.ne_of_lt hb)]
  · rw [hused, Finset.card_insert_of_notMem hj]
    exact hle.trans (Nat.le_succ _)

theorem remove (h : Sound s) (hc : a ∉ (children s.dir).take s.fid.lidx) (hshape : Shape d) (hj : j ∈ s.dir.used)
    (he : entry s.dir.d j = a) (hused : d.used = s.dir.used.erase j) : Sound (s.change d) := by
  have hcard : s.fid.lidx ≤ ({b ∈ s.dir.used | b < j} : Finset Nat).card := by
    refine Nat.le_of_not_lt fun hlt => hc ?_
    have hslot := Finset.getElem?_sort hj
    have hchild : (children s.dir)[({b ∈ s.dir.used | b < j} : Finset Nat).card]? = some a := by
      rw [children, slots_eq, List.getElem?_map, hslot, Option.map_some, he]
    exact List.mem_of_getElem? <| (List.getElem?_take_of_lt hlt).trans hchild
  refine h.change hshape (fun i hi _ _ hi' => ?_) ?_ ?_
  · exact absurd (Finset.mem_of_mem_erase (hused ▸ hi)) hi'
  · refine (Finset.take_sort_eq (a := j) (fun b hb => ?_) hcard).symm
    rw [hused, Finset.mem_erase, and_iff_right (Nat.ne_of_lt hb)]
  · refine hcard.trans <| Finset.card_le_card fun i hi => ?_
    obtain ⟨hi, hlt⟩ := Finset.mem_filter.mp hi
    exact hused ▸ Finset.mem_erase.mpr ⟨Nat.ne_of_lt hlt, hi⟩

theorem dir {act : Dir.Act} (h : Sound s) (hc : Steady s (.dir act)) (hs : Dir.step s.dir act = some d) :
    Sound (s.change d) := by
  obtain ⟨hshape, hm⟩ := moved_of_step h.shape hs
  have hsame (hused : d.used = s.dir.used) : Sound (s.change d) :=
    h.change hshape (fun i hi _ _ hi' => absurd (hused ▸ hi) hi') (by rw [hused])
      (by rw [hused]; exact h.le.trans (ids_length s).le)
  cases hm with
  | create hj hfirst hused => exact h.create hc hshape hj hfirst hused
  | remove hj he hused => exact h.remove hc hshape hj he hused
  | rename hused => exact hsame hused
  | melt hused => exact hsame hused

theorem read {lidx loff : Nat} {data : List UInt8} {ended : Prop} [Decidable ended] {stat : Nat → Stat} {io : Nat → Bool}
    (h : Sound s) (hp : Packs s.dir stat io s.fid.lidx [] lidx (.ok data)) (hended : ended → lidx = s.ids.length) :
    Sound { s with
      fid := { loff := loff, lidx := lidx }
      replies := s.replies ++ [{
        data    := data
        entries := (s.ids.drop s.fid.lidx).take (lidx - s.fid.lidx)
        stats   := (((children s.dir).drop s.fid.lidx).take (lidx - s.fid.lidx)).map stat }]
      ended := s.ended ∨ ended } := by
  have hle : lidx ≤ s.ids.length := by
    rw [ids_length, ← h.shape.ndents]
    exact hp.le
  obtain ⟨new, hnew⟩ : ∃ new, new = (s.ids.drop s.fid.lidx).take (lidx - s.fid.lidx) := ⟨_, rfl⟩
  have hgot : s.ids.take lidx = s.got ++ new := by
    rw [hnew, ← h.got, ← List.take_add, Nat.add_sub_cancel' hp.ge]
  have hgot' (data : List UInt8) (stats : List Stat) :
      (s.replies ++ [(⟨data, new, stats⟩ : Reply)]).flatMap Reply.entries = s.got ++ new := by
    simp [State.got]
  rw [← hnew]
  constructor
  case shape => exact h.shape
  case who => exact h.who
  case next => exact h.next
  case opened => exact h.opened
  case seen => exact h.seen
  case had =>
    intro e he
    have he : e ∈ s.got ++ new := hgot' _ _ ▸ he
    have he : e ∈ s.ids := List.mem_of_mem_take <| hgot ▸ he
    obtain ⟨k, hk, rfl⟩ := mem_ids.mp he
    exact h.seen k hk
  case le => exact hle
  case got => exact hgot.trans (hgot' _ _).symm
  case whole =>
    intro r hr
    rcases List.mem_append.mp hr with hr | hr
    · exact h.whole r hr
    · obtain rfl := List.mem_singleton.mp hr
      have hlen : (children s.dir).length = s.ids.length := by rw [children_length, ids_length]
      refine ⟨?_, ?_⟩
      · rw [hp.data data rfl, List.flatMap_map]
        rfl
      · rw [hnew, List.length_map, List.length_take, List.length_take, List.length_drop, List.length_drop, hlen]
  case ended =>
    intro he e heo hmem
    have he := of_decide_eq_true he
    have hall : e ∈ s.got ++ new := by
      rcases he with he | he
      · exact List.mem_append_left _ <| h.ended he e heo hmem
      · rw [← hgot, hended he, List.take_length]
        exact hmem
    change e ∈ List.flatMap Reply.entries _
    rw [hgot']
    exact hall

theorem fidread {count : Nat} {offset : Int} {stat : Nat → Stat} {io : Nat → Bool} (h : Sound s)
    (hc : Steady s (.fidread count offset stat io)) (hs : s.fidread count offset stat io = some s') : Sound s' := by
  obtain ⟨hfits, hio⟩ := hc
  obtain ⟨⟨fid, r⟩, hr, rfl⟩ := Option.map_eq_some_iff.mp hs
  rw [Readdir.fidread] at hr
  split at hr
  case isTrue =>
    cases hr
    exact h
  split at hr
  case isTrue =>
    cases hr
    exact h
  case isFalse =>
    obtain ⟨⟨lidx, r'⟩, hl, hr⟩ := Option.map_eq_some_iff.mp hr
    have hnd : s.dir.ndents = s.ids.length := h.shape.ndents.trans (ids_length s).symm
    obtain ⟨lidx', r'', hl', hp⟩ : ∃ lidx' r'',
        loop s.dir stat io count (s.dir.ndents - s.fid.lidx + 1) s.fid.lidx [] = some (lidx', r'') ∧
        Packs s.dir stat io s.fid.lidx [] lidx' r'' := loop_packs h.shape [] (hnd ▸ h.le) (by omega)
    rw [readdir, hl'] at hl
    cases hl
    cases r'
    case error e =>
      cases hr
      obtain ⟨a, ha, hno⟩ := hp.error e rfl
      have hstay : lidx = s.fid.lidx := by
        refine Nat.le_antisymm (Nat.le_of_not_lt fun hlt => ?_) hp.ge
        have hmem : a ∈ (children s.dir).drop (s.fid.lidx + 1) := by
          refine List.mem_of_getElem? (i := lidx - (s.fid.lidx + 1)) ?_
          rw [List.getElem?_drop, Nat.add_sub_cancel' hlt, ha]
        rw [hio a hmem] at hno
        contradiction
      rw [hstay]
      exact h
    case ok data =>
      cases hr
      refine h.read hp fun ⟨hnil, hcount⟩ => Nat.le_antisymm (hnd ▸ hp.le) ?_
      refine Nat.le_of_not_lt fun hlt => ?_
      have hidx : s.fid.lidx < (children s.dir).length := by
        rw [children_length, ← ids_length]
        exact hp.ge.trans_lt hlt
      have ha := List.getElem?_eq_getElem hidx
      cases hread : io (children s.dir)[s.fid.lidx]
      case false =>
        rw [loop_succ h.shape [] hcount ha, if_pos hread] at hl'
        cases hl'
      case true => exact hp.ne_nil h.shape (lt_of_loop h.shape hl' (by omega) ha hread (hfits _ ha)) hnil

theorem init (h : Init s) : Sound s := by
  have hreplies : s.got = [] := by rw [State.got, h.replies]; rfl
  constructor
  case shape => exact shape_invariant.holds h.dir
  case who => exact h.who
  case next => exact h.next
  case opened =>
    intro e he
    obtain ⟨k, hk, rfl⟩ := Finset.mem_image.mp (h.opened ▸ he)
    exact h.next k hk
  case seen =>
    intro k hk
    rw [h.seen, h.opened]
    exact Finset.mem_image_of_mem _ hk
  case had => rw [hreplies]; exact nofun
  case le => rw [h.fid]; exact Nat.zero_le _
  case got => rw [hreplies, h.fid]; exact List.take_zero
  case whole => rw [h.replies]; exact nofun
  case ended => rw [h.ended]; exact nofun

theorem step {act : Act} (h : Sound s) (hc : Steady s act) (hs : Readdir.step s act = some s') : Sound s' := by
  cases act
  case dir act =>
    obtain ⟨d, hd, rfl⟩ := Option.map_eq_some_iff.mp hs
    exact h.dir hc hd
  case fidread count offset stat io => exact h.fidread hc hs

theorem nodup_got (h : Sound s) : s.got.Nodup := by
  have hnodup : s.ids.Nodup := by
    rw [State.ids, slots_eq]
    refine List.Nodup.map_on (fun i hi k hk => h.who ?_ ?_) (Finset.sort_nodup _ _)
    · exact (Finset.mem_sort _).mp hi
    · exact (Finset.mem_sort _).mp hk
  exact h.got ▸ hnodup.sublist (List.take_sublist _ _)

end Sound

theorem sound_invariant : machine.Invariant Steady Sound where
  init h := .init h
  step h hc hs := h.step hc hs

-- What the reader has of the directory.
structure Complete (s : State) : Prop where
  once  : ∀ e, s.got.count e ≤ 1
  all   : s.ended = true → ∀ e ∈ s.opened, e ∈ s.ids → s.got.count e = 1
  seen  : ∀ e ∈ s.got, e ∈ s.seen
  whole : ∀ r ∈ s.replies, r.data = r.stats.flatMap packed ∧ r.entries.length = r.stats.length

-- In a run in which the entries that were read keep their places, those that stay in the directory are returned once
-- each.
theorem readdir_complete (hr : machine.Reachable Steady s) : Complete s := by
  have h := sound_invariant.holds hr
  have honce e : s.got.count e ≤ 1 := List.nodup_iff_count_le_one.mp h.nodup_got e
  refine ⟨honce, fun hended e he hmem => ?_, h.had, h.whole⟩
  exact Nat.le_antisymm (honce e) <| List.count_pos_iff.mpr <| h.ended hended e he hmem

-- A directory is opened. Its entries are numbered by their places.
def opening (d : Dir.State) : State where
  dir     := d
  fid     := { loff := 0, lidx := 0 }
  who k   := k
  next    := d.d.length / Daddrsz
  opened  := d.used.image id
  seen    := d.used.image id
  replies := []
  ended   := false

theorem opening_init (h : Dir.machine.Reachable (fun _ _ => True) d) : Init (opening d) where
  dir     := h
  fid     := rfl
  who     := fun _ _ _ _ he => he
  next    := fun _ hk => lt_of_used hk
  opened  := rfl
  seen    := rfl
  replies := rfl
  ended   := rfl

-- 49 bytes are packed of a file whose names are all empty.
def nameless : Stat where
  type := 0
  dev := 0
  qid := { path := 0, vers := 0, type := 0 }
  mode := 0
  atime := 0
  mtime := 0
  length := 0
  name := none
  uid := none
  gid := none
  muid := none

-- A read with room for one entry.
def readone (offset : Int) : Act :=
  .fidread 60 offset (fun _ => nameless) fun _ => true

theorem readone_steady (s : State) (offset : Int) : Steady s (readone offset) :=
  ⟨fun _ _ => (by decide : (packed nameless).length ≤ 60), fun _ _ => rfl⟩

-- A directory with one child is read to its end.
def readtwice : State :=
  (machine.exec (opening created) [readone 0, readone 49]).get (by decide +kernel)

theorem readdir_complete_twice :
    readtwice.ended = true ∧ 0 ∈ readtwice.opened ∧ readtwice.got.count 0 = 1 ∧ Complete readtwice := by
  have hs : machine.exec (opening created) [readone 0, readone 49] = some readtwice := (Option.some_get _).symm
  have hi : machine.init (opening created) := opening_init <| created_reachable.mono fun _ _ _ => trivial
  have hr : machine.Reachable Steady readtwice := by
    refine (Machine.Reachable.init hi).exec (fun a ha s => ?_) hs
    obtain rfl | rfl : a = readone 0 ∨ a = readone 49 := by simpa using ha
    · exact readone_steady s 0
    · exact readone_steady s 49
  exact ⟨by decide +kernel, by decide +kernel, by decide +kernel, readdir_complete hr⟩

def twochildren : Dir.State :=
  (Dir.machine.exec newdir [.create "a" false Dblksz, .create "b" false (2 * Dblksz)]).get (by decide +kernel)

theorem twochildren_reachable : Dir.machine.Reachable (fun _ _ => True) twochildren := by
  have hs : Dir.machine.exec newdir [.create "a" false Dblksz, .create "b" false (2 * Dblksz)] = some twochildren :=
    (Option.some_get _).symm
  exact (Machine.Reachable.init newdir_created).exec (fun _ _ _ => trivial) hs

-- The first of two children is removed after it was read.
def skipped : State :=
  (machine.exec (opening twochildren) [readone 0, .dir (.remove Dblksz), readone 49]).get (by decide +kernel)

theorem readdir_skips : machine.Reachable (fun _ _ => True) skipped ∧ ¬Complete skipped := by
  constructor
  case left =>
    have hs : machine.exec (opening twochildren) [readone 0, .dir (.remove Dblksz), readone 49] = some skipped :=
      (Option.some_get _).symm
    exact (Machine.Reachable.init <| opening_init twochildren_reachable).exec (fun _ _ _ => trivial) hs
  case right =>
    intro h
    have hcount : skipped.got.count 1 = 1 :=
      h.all (by decide +kernel) 1 (by decide +kernel) (by decide +kernel)
    exact absurd hcount (by decide +kernel)

end Creepy.Readdir
