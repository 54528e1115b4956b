import Mathlib.Data.List.Perm.Subperm
import Nix.K10.Asm

namespace K10.Asm

open Span

variable {s s' : State} {l fl pre post : List Nat} {i j pp np k : Nat} {e : Entry}

-- The list `l` of the map and the list `fl` of the entries that are free.
structure Lists (s : State) (l fl : List Nat) : Prop where
  list  : Chain s.next nil s.list l
  free  : Chain s.next nil s.freelist fl
  nodup : (l ++ fl).Nodup
  lt    : ∀ i ∈ l ++ fl, i < s.index
  le    : s.index ≤ nelem

namespace Lists

theorem ne_nil (h : Lists s l fl) (hi : i ∈ l ++ fl) : i ≠ nil :=
  ((h.lt i hi).trans_le h.le).ne

theorem length_le (h : Lists s l fl) : l.length ≤ nelem := by
  have hsub : l ⊆ List.range nelem := fun i hi =>
    List.mem_range.mpr ((h.lt i (List.mem_append_left _ hi)).trans_le h.le)
  have hnd := (List.nodup_append'.mp h.nodup).left
  simpa using (hnd.subperm hsub).length_le

end Lists

theorem walk_eq (h : Chain s.next nil i l) (hk : l.length < k) : s.walk k i = some (l.map s.asm) := by
  induction l generalizing i k
  case nil =>
    obtain rfl : i = nil := h
    obtain ⟨k, rfl⟩ := Nat.exists_eq_succ_of_ne_zero (Nat.ne_zero_of_lt hk)
    rw [State.walk, if_pos rfl]
    rfl
  case cons j l ih =>
    obtain ⟨rfl, hne, h⟩ := h
    obtain ⟨k, rfl⟩ := Nat.exists_eq_succ_of_ne_zero (Nat.ne_zero_of_lt hk)
    rw [State.walk, if_neg hne, ih h (by simpa using hk)]
    rfl

theorem Lists.entries (h : Lists s l fl) : s.entries = some (l.map s.asm) :=
  walk_eq h.list (Nat.lt_succ_of_le h.length_le)

-- Where `pp` and `np` are in the list.
def Last (pre : List Nat) (pp : Nat) : Prop :=
  pre = [] ∧ pp = nil ∨ ∃ l, pre = l ++ [pp] ∧ pp ≠ nil

def First (post : List Nat) (np : Nat) : Prop :=
  post = [] ∧ np = nil ∨ ∃ l, post = np :: l ∧ np ≠ nil

theorem Last.append (hi : i ≠ nil) : Last (pre ++ [i]) i :=
  .inr ⟨pre, rfl, hi⟩

theorem Last.mem (h : Last pre pp) (hpp : pp ≠ nil) : pp ∈ pre := by
  rcases h with ⟨-, h⟩ | ⟨l, rfl, -⟩
  · exact absurd h hpp
  · simp

theorem first_of_chain (h : Chain s.next nil i l) : First l i := by
  cases l
  case nil      => exact .inl ⟨rfl, h⟩
  case cons j l => exact .inr ⟨l, by rw [h.left], h.left ▸ h.right.left⟩

theorem find_eq {addr : Nat} (hpp : Last pre pp) (h : Chain s.next nil i l) (hk : l.length < k) :
    ∃ pre' post pp' np, pre ++ l = pre' ++ post ∧ (∀ j ∈ pre', j ∈ pre ∨ (s.asm j).addr ≤ addr) ∧
    First post np ∧ (np ≠ nil → addr < (s.asm np).addr) ∧ Last pre' pp' ∧ s.find addr k pp i = some (pp', np) := by
  induction l generalizing i k pre pp
  case nil =>
    obtain rfl : i = nil := h
    obtain ⟨k, rfl⟩ := Nat.exists_eq_succ_of_ne_zero (Nat.ne_zero_of_lt hk)
    refine ⟨pre, [], pp, nil, rfl, fun j hj => .inl hj, .inl ⟨rfl, rfl⟩, fun h => absurd rfl h, hpp, ?_⟩
    rw [State.find, if_neg fun h => h.left rfl]
  case cons j l ih =>
    have hfirst := first_of_chain h
    obtain ⟨rfl, hne, h⟩ := h
    obtain ⟨k, rfl⟩ := Nat.exists_eq_succ_of_ne_zero (Nat.ne_zero_of_lt hk)
    by_cases ha : (s.asm i).addr ≤ addr
    · obtain ⟨pre', post, pp', np, hl, hpre, hfirst, hnp, hpp', hfind⟩ :=
        ih (@Last.append pre _ hne) h (by simpa using hk)
      refine ⟨pre', post, pp', np, by rw [← hl, List.append_assoc]; rfl, fun j hj => ?_, hfirst, hnp, hpp', ?_⟩
      · rcases hpre j hj with hj | hj
        · rcases List.mem_append.mp hj with hj | hj
          · exact .inl hj
          · exact .inr (by rwa [List.mem_singleton.mp hj])
        · exact .inr hj
      · rwa [State.find, if_pos ⟨hne, ha⟩]
    · refine ⟨pre, i :: l, pp, i, rfl, fun j hj => .inl hj, hfirst, fun _ => Nat.lt_of_not_le ha, hpp, ?_⟩
      rw [State.find, if_neg fun h => ha h.right]

section

variable {addr size : Nat} {type align : Int}

theorem search_eq (hpp : Last pre pp) (h : Chain s.next nil i l) (hk : l.length < k) :
    (Scan.find (scan addr size type align ∘ s.asm) l = none → s.search addr size type align k pp i = some none) ∧
    ∀ pre' j post a, Scan.find (scan addr size type align ∘ s.asm) l = some (pre', j, post, a) →
      ∃ pp', Last (pre ++ pre') pp' ∧ s.search addr size type align k pp i = some (some (pp', j, a)) := by
  induction l generalizing i k pre pp
  case nil =>
    obtain rfl : i = nil := h
    obtain ⟨k, rfl⟩ := Nat.exists_eq_succ_of_ne_zero (Nat.ne_zero_of_lt hk)
    rw [State.search, if_pos rfl]
    exact ⟨fun _ => rfl, fun _ _ _ _ h => by cases h⟩
  case cons j l ih =>
    obtain ⟨rfl, hne, h⟩ := h
    obtain ⟨k, rfl⟩ := Nat.exists_eq_succ_of_ne_zero (Nat.ne_zero_of_lt hk)
    obtain ⟨hnone, hsome⟩ := ih (@Last.append pre _ hne) h (k := k) (by simpa using hk)
    rw [State.search, if_neg hne, Scan.find, Function.comp_apply]
    cases scan addr size type align (s.asm i)
    case next =>
      refine ⟨fun hf => hnone (Option.map_eq_none_iff.mp hf), fun pre' j post a hf => ?_⟩
      obtain ⟨⟨pre', j', post', a'⟩, hfind, heq⟩ := Option.map_eq_some_iff.mp hf
      cases heq
      obtain ⟨pp', hpp', hs⟩ := hsome _ _ _ _ hfind
      exact ⟨pp', by rwa [List.append_cons], hs⟩
    case stop => exact ⟨fun _ => rfl, fun _ _ _ _ h => by cases h⟩
    case take a =>
      refine ⟨fun h => (by cases h), fun pre' j post a hf => ?_⟩
      cases hf
      exact ⟨pp, by rwa [List.append_nil], rfl⟩

end

theorem link_chain (h : Chain s.next nil s.list (pre ++ post)) (hpp : Last pre pp) {post' : List Nat}
    (hpost : Chain s.next nil i post') (hnd : pre.Nodup) (hdisj : ∀ j ∈ pre, j ∉ post') :
    Chain (s.link pp i).next nil (s.link pp i).list (pre ++ post') := by
  rcases hpp with ⟨rfl, rfl⟩ | ⟨l, rfl, hne⟩
  case inl =>
    rw [State.link, if_pos rfl]
    exact hpost
  case inr =>
    rw [State.link, if_neg hne]
    have hpp : pp ∉ post' := hdisj pp (by simp)
    have hl : pp ∉ l := fun hmem => (List.nodup_append'.mp hnd).right.right hmem (List.mem_singleton_self pp)
    rw [List.append_assoc] at h ⊢
    exact h.relink hl (hpost.update hpp i)

@[simp] theorem link_asm : (s.link pp i).asm = s.asm := by
  rw [State.link]; split <;> rfl

@[simp] theorem link_freelist : (s.link pp i).freelist = s.freelist := by
  rw [State.link]; split <;> rfl

@[simp] theorem link_index : (s.link pp i).index = s.index := by
  rw [State.link]; split <;> rfl

theorem link_free (h : Chain s.next nil j fl) (hpp : pp ∉ fl) : Chain (s.link pp i).next nil j fl := by
  rw [State.link]
  split
  · exact h
  · exact h.update hpp i

namespace Lists

theorem set (h : Lists s l fl) : Lists (s.set i e) l fl :=
  ⟨h.list, h.free, h.nodup, h.lt, h.le⟩

theorem map_set (h : Lists s (pre ++ i :: post) fl) :
    (pre ++ i :: post).map (s.set i e).asm = pre.map s.asm ++ e :: post.map s.asm := by
  have hnd := (List.nodup_append'.mp h.nodup).left
  obtain ⟨-, hcons, hdisj⟩ := List.nodup_append'.mp hnd
  have hpre (j : Nat) (hj : j ∈ pre) : (s.set i e).asm j = s.asm j :=
    Function.update_of_ne (fun heq : j = i => hdisj hj (by simp [heq])) ..
  have hpost (j : Nat) (hj : j ∈ post) : (s.set i e).asm j = s.asm j :=
    Function.update_of_ne (fun heq : j = i => (List.nodup_cons.mp hcons).left (heq ▸ hj)) ..
  rw [List.map_append, List.map_cons, List.map_congr_left hpre, List.map_congr_left hpost]
  exact congrArg (fun x => List.map s.asm pre ++ x :: List.map s.asm post) (Function.update_self ..)

theorem drop (h : Lists s (pre ++ i :: post) fl) (hpp : Last pre pp) :
    Lists ((s.link pp (s.next i)).free i) (pre ++ post) (i :: fl) := by
  have hperm : (pre ++ post ++ i :: fl).Perm (pre ++ i :: post ++ fl) := by
    rw [List.append_assoc, List.append_assoc]
    exact List.Perm.append_left pre List.perm_middle
  have hnd := hperm.nodup_iff.mpr h.nodup
  have hi : i ≠ nil := h.ne_nil (by simp)
  obtain ⟨hpp', hcons, hdisj⟩ := List.nodup_append'.mp hnd
  obtain ⟨hpre, hpost, hdisj'⟩ := List.nodup_append'.mp hpp'
  have hlink := link_chain h.list hpp (h.list.suffix).right.right hpre fun j hj hj' => hdisj' hj hj'
  have hifl : i ∉ fl := (List.nodup_cons.mp hcons).left
  have hil : i ∉ pre ++ post := fun hi => hdisj hi List.mem_cons_self
  have hpfl : pp ∉ fl := fun hmem => by
    by_cases hn : pp = nil
    · exact h.ne_nil (List.mem_append_right _ hmem) hn
    · exact hdisj (List.mem_append_left _ (hpp.mem hn)) (List.mem_cons_of_mem _ hmem)
  refine ⟨hlink.update hil _, ?_, hnd, fun j hj => ?_, ?_⟩
  · rw [State.free]
    dsimp only
    rw [link_freelist]
    exact (link_free h.free hpfl).push hifl hi
  · rw [State.free]
    dsimp only
    rw [link_index]
    exact h.lt j (hperm.mem_iff.mp hj)
  · rw [State.free]
    dsimp only
    rw [link_index]
    exact h.le

theorem asmnew (h : Lists s l fl) (hspare : s.Spare) : ∃ i s' fl', s.asmnew e = some (i, s') ∧ i ∉ l ∧ i ≠ nil ∧
    s'.asm = Function.update s.asm i e ∧ s'.list = s.list ∧ Lists s' l fl' ∧ i ∉ fl' ∧ i < s'.index := by
  by_cases hfree : s.freelist ≠ nil
  case pos =>
    obtain ⟨fl, rfl, hfl⟩ := h.free.pop hfree
    have hnd := h.nodup
    obtain ⟨hl, hcons, hdisj⟩ := List.nodup_append'.mp hnd
    obtain ⟨hifl, hndfl⟩ := List.nodup_cons.mp hcons
    have hil : s.freelist ∉ l := fun hmem => hdisj hmem List.mem_cons_self
    rw [State.asmnew, if_pos hfree]
    refine ⟨_, _, fl, rfl, hil, hfree, rfl, rfl, ⟨h.list.update hil _, hfl.update hifl _, ?_, fun j hj => ?_, h.le⟩, hifl,
      h.lt _ (by simp)⟩
    · exact List.nodup_append'.mpr ⟨hl, hndfl, fun j hj hj' => hdisj hj (List.mem_cons_of_mem _ hj')⟩
    · refine h.lt j ?_
      rcases List.mem_append.mp hj with hj | hj
      · exact List.mem_append_left _ hj
      · exact List.mem_append_right _ (List.mem_cons_of_mem _ hj)
  case neg =>
    have hlt := hspare.resolve_left hfree
    have hnew (hmem : s.index ∈ l ++ fl) : False := (h.lt _ hmem).false
    rw [State.asmnew, if_neg hfree, if_neg hlt.not_ge]
    refine ⟨_, _, fl, rfl, fun hm => hnew (List.mem_append_left _ hm), hlt.ne, rfl, rfl,
      ⟨h.list, h.free, h.nodup, fun j hj => ?_, hlt⟩, fun hm => hnew (List.mem_append_right _ hm), Nat.lt_succ_self _⟩
    exact (h.lt j hj).trans (Nat.lt_succ_self _)

theorem asmnew_none (hspare : ¬s.Spare) : s.asmnew e = none := by
  obtain ⟨hfree, hindex⟩ := not_or.mp hspare
  rw [State.asmnew, if_neg hfree, if_pos (Nat.le_of_not_lt hindex)]

theorem insert (h : Lists s (pre ++ post) fl) (hpp : Last pre pp) (hnp : First post np) (hil : i ∉ pre ++ post)
    (hi : i ≠ nil) (hifl : i ∉ fl) (hlt : i < s.index) :
    Lists { s.link pp i with next := Function.update (s.link pp i).next i np } (pre ++ i :: post) fl := by
  have hperm : (pre ++ i :: post ++ fl).Perm (i :: (pre ++ post ++ fl)) := by
    rw [List.append_assoc, List.append_assoc]
    exact List.perm_middle
  have hnd : (pre ++ i :: post ++ fl).Nodup := by
    rw [hperm.nodup_iff, List.nodup_cons, List.mem_append, not_or]
    exact ⟨⟨hil, hifl⟩, h.nodup⟩
  obtain ⟨hl, -, hdisj⟩ := List.nodup_append'.mp hnd
  obtain ⟨hpre, -, hdisj'⟩ := List.nodup_append'.mp hl
  have hppi : pp ≠ i := fun heq => hil (List.mem_append_left _ (heq ▸ hpp.mem (heq ▸ hi)))
  have hswap : { s.link pp i with next := Function.update (s.link pp i).next i np } =
      { s with next := Function.update s.next i np }.link pp i := by
    unfold State.link
    split
    · rfl
    · dsimp only
      rw [Function.update_comm hppi]
  have hfree : Chain { s with next := Function.update s.next i np }.next nil s.freelist fl := h.free.update hifl np
  have hlist : Chain (Function.update s.next i np) nil s.list (pre ++ post) := h.list.update hil np
  have hpost : Chain (Function.update s.next i np) nil i (i :: post) := by
    refine ⟨rfl, hi, ?_⟩
    rw [Function.update_self]
    rcases hnp with ⟨rfl, rfl⟩ | ⟨l, rfl, -⟩
    · exact rfl
    · exact hlist.suffix
  rw [hswap]
  refine ⟨link_chain (s := { s with next := Function.update s.next i np }) hlist hpp hpost hpre hdisj', ?_, hnd,
    fun j hj => ?_, ?_⟩
  · rw [link_freelist]
    refine link_free hfree fun hmem => ?_
    by_cases hn : pp = nil
    · exact h.ne_nil (List.mem_append_right _ hmem) hn
    · exact hdisj (List.mem_append_left _ (hpp.mem hn)) hmem
  · rw [link_index]
    rcases List.mem_cons.mp (hperm.mem_iff.mp hj) with rfl | hj
    · exact hlt
    · exact h.lt j hj
  · rw [link_index]
    exact h.le

end Lists

end K10.Asm
