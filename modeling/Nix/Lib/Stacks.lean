import Nix.Lib.DList

-- Lists that are linked one way from their heads. Several lists share one set of links, and `place` tells
-- on which of them a node is.
structure Stacks {β ι : Type*} (hd : ι → Option β) (next : β → Option β) (place : β → Option ι) (l : ι → List β) :
    Prop where
  hd    : ∀ i, hd i = (l i).head?
  next  : ∀ i, Follows next (l i)
  nodup : ∀ i, (l i).Nodup
  mem   : ∀ {b i}, b ∈ l i ↔ place b = some i

namespace Stacks

variable {β ι : Type*} [DecidableEq β] [DecidableEq ι] {hd : ι → Option β} {next : β → Option β}
variable {place : β → Option ι} {l : ι → List β} {a b : β} {i j : ι}

-- A list is replaced, and the links of no other list with it.
omit [DecidableEq β] in
theorem update {hd' : ι → Option β} {next' : β → Option β} {place' : β → Option ι} {l' : List β}
    (h : Stacks hd next place l) (hhd : hd' i = l'.head?) (hhds : ∀ j ≠ i, hd' j = hd j) (hl : Follows next' l')
    (hn : l'.Nodup) (hnext : ∀ a j, j ≠ i → place a = some j → next a = next' a) (hmem : ∀ a, a ∈ l' ↔ place' a = some i)
    (hplace : ∀ a j, j ≠ i → (place a = some j ↔ place' a = some j)) :
    Stacks hd' next' place' (Function.update l i l') where
  hd j := by
    by_cases hj : j = i
    case pos => rw [hj, Function.update_self, hhd]
    case neg => rw [Function.update_of_ne hj, hhds j hj, h.hd]
  next j := by
    by_cases hj : j = i
    case pos => rwa [hj, Function.update_self]
    case neg =>
      rw [Function.update_of_ne hj]
      exact (h.next j).congr fun a ha => hnext a j hj (h.mem.mp ha)
  nodup j := by
    by_cases hj : j = i
    case pos => rwa [hj, Function.update_self]
    case neg => rw [Function.update_of_ne hj]; exact h.nodup j
  mem {a j} := by
    by_cases hj : j = i
    case pos => rw [hj, Function.update_self, hmem]
    case neg => rw [Function.update_of_ne hj, h.mem, hplace a j hj]

theorem push (h : Stacks hd next place l) (hb : place b = none) :
    Stacks (Function.update hd i (some b)) (Function.update next b (hd i)) (Function.update place b (some i))
      (Function.update l i (b :: l i)) := by
  have hnot {j : ι} : b ∉ l j := by simp [h.mem, hb]
  have hne {a : β} {j : ι} (ha : place a = some j) : a ≠ b := fun he => hnot (h.mem.mpr (he ▸ ha))
  refine h.update ?_ (fun j hj => Function.update_of_ne hj ..) ?_ ((h.nodup i).cons hnot) (fun a j hj ha => ?_)
    (fun a => ?_) fun a j hj => ?_
  · exact Function.update_self ..
  · exact h.hd i ▸ (h.next i).cons hnot
  · exact (Function.update_of_ne (hne ha) ..).symm
  · by_cases ha : a = b <;> simp [ha, h.mem]
  · by_cases ha : a = b <;> simp [ha, hb, hj.symm]

theorem remove {hd' : ι → Option β} {next' : β → Option β} (h : Stacks hd next place l) (hb : place b = some i)
    (hhd : hd' i = ((l i).erase b).head?) (hhds : ∀ j ≠ i, hd' j = hd j) (hl : Follows next' ((l i).erase b))
    (hnext : ∀ a j, j ≠ i → place a = some j → next a = next' a) :
    Stacks hd' next' (Function.update place b none) (Function.update l i ((l i).erase b)) := by
  refine h.update hhd hhds hl ((h.nodup i).erase b) hnext (fun a => ?_) fun a j hj => ?_
  · rw [(h.nodup i).mem_erase_iff]
    by_cases ha : a = b <;> simp [ha, h.mem]
  · by_cases ha : a = b
    case pos => simp [ha, hb, hj.symm]
    case neg => rw [Function.update_of_ne ha]

theorem cut {m l' : List β} (h : Stacks hd next place l) (hl : l i = m ++ b :: l') :
    Stacks (if m.getLast? = none then Function.update hd i (next b) else hd) (updateAt next m.getLast? (next b))
      (Function.update place b none) (Function.update l i ((l i).erase b)) := by
  have hnodup := hl ▸ h.nodup i
  have hnot : b ∉ m := fun hb => (List.disjoint_of_nodup_append hnodup) hb List.mem_cons_self
  have herase : (l i).erase b = m ++ l' := by
    rw [hl, List.erase_append_right _ hnot, List.erase_cons_head]
  have hb : place b = some i := h.mem.mp (by rw [hl]; simp)
  refine h.remove hb ?_ (fun j hj => ?_) ?_ fun a j hj ha => ?_
  · rw [herase]
    cases m with
    | nil      => simpa using (hl ▸ h.next i).left
    | cons c m => simp [h.hd, hl]
  · split
    case isTrue  => exact Function.update_of_ne hj ..
    case isFalse => rfl
  · rw [herase]
    exact (hl ▸ h.next i).remove hnodup
  · rw [updateAt_of_ne]
    intro hm
    have hmem : a ∈ l i := hl ▸ List.mem_append_left _ (List.mem_of_getLast? hm)
    exact hj <| Option.some.inj (ha.symm.trans (h.mem.mp hmem))

-- Only the links of the nodes that are on lists matter.
omit [DecidableEq β] [DecidableEq ι] in
theorem congr {n : β → Option β} (h : Stacks hd next place l) (hn : ∀ a, place a ≠ none → next a = n a) :
    Stacks hd n place l :=
  { h with next := fun i => (h.next i).congr fun a ha => hn a (by simp [h.mem.mp ha]) }

theorem pop (h : Stacks hd next place l) (hb : hd i = some b) :
    Stacks (Function.update hd i (next b)) (Function.update next b none) (Function.update place b none)
      (Function.update l i ((l i).erase b)) := by
  obtain ⟨m, hm⟩ : ∃ m, l i = b :: m := by
    rw [h.hd, List.head?_eq_some_iff] at hb
    exact hb
  have hplace : place b = some i := h.mem.mp (hm ▸ List.mem_cons_self ..)
  have hfollows := hm ▸ h.next i
  have hnot : b ∉ m := (List.nodup_cons.mp (hm ▸ h.nodup i)).left
  refine h.remove hplace ?_ (fun j hj => Function.update_of_ne hj ..) ?_ fun a j hj ha => ?_
  · rw [hm, List.erase_cons_head, Function.update_self, hfollows.left]
  · rw [hm, List.erase_cons_head]
    exact hfollows.right.congr fun a ha => (Function.update_of_ne (ne_of_mem_of_not_mem ha hnot) ..).symm
  · have hne : a ≠ b := fun he => hj <| Option.some.inj (ha.symm.trans (he ▸ hplace))
    exact (Function.update_of_ne hne ..).symm

theorem unlink (h : Stacks hd next place l) (ha : place a = some i) (hab : next a = some b) :
    Stacks hd (Function.update (Function.update next a (next b)) b none) (Function.update place b none)
      (Function.update l i ((l i).erase b)) := by
  obtain ⟨pre, m, hm⟩ := List.append_of_mem (h.mem.mpr ha)
  have hfollows := hm ▸ h.next i
  have hhead := hfollows.apply_mid
  rw [hab, eq_comm, List.head?_eq_some_iff] at hhead
  obtain ⟨post, rfl⟩ := hhead
  have heq : pre ++ a :: b :: post = (pre ++ [a]) ++ b :: post := by simp
  rw [heq] at hm hfollows
  have hnodup := hm ▸ h.nodup i
  have hnot : b ∉ pre ++ [a] := by
    rw [List.nodup_middle, List.nodup_cons, List.mem_append] at hnodup
    exact fun hb => hnodup.left (.inl hb)
  have herase : (l i).erase b = (pre ++ [a]) ++ post := by
    rw [hm, List.erase_append_right _ hnot, List.erase_cons_head]
  have hb : place b = some i := h.mem.mp (by rw [hm]; simp)
  refine h.remove hb ?_ (fun _ _ => rfl) ?_ fun c j hj hc => ?_
  · rw [herase, h.hd, hm]
    cases pre <;> rfl
  · have := hfollows.erase hnodup
    rw [List.getLast?_concat] at this
    exact herase ▸ this
  · have hca : c ≠ a := fun he => hj <| Option.some.inj (hc.symm.trans (he ▸ ha))
    have hcb : c ≠ b := fun he => hj <| Option.some.inj (hc.symm.trans (he ▸ hb))
    rw [Function.update_of_ne hcb, Function.update_of_ne hca]

end Stacks
