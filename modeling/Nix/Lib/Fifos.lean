import Nix.Lib.DList

-- The nodes that are found from one on along the links, and no more than `k` of them.
def walk {β : Type*} (next : β → Option β) : Nat → Option β → List β
  | 0, _ => []
  | _, none => []
  | k + 1, some b => b :: walk next k (next b)

-- The first node along the links where it is to stop, and the one before it. It gets nowhere where there are more than
-- `k` nodes before that one, or where it cannot tell.
def search {β : Type*} (next : β → Option β) (stop : β → Option Bool) :
    Nat → Option β → Option β → Option (Option β × Option β)
  | _, l, none => some (l, none)
  | 0, _, some _ => none
  | k + 1, l, some b => (stop b).bind fun found =>
    if found then some (l, some b) else search next stop k (some b) (next b)

-- All nodes from one on along the links. There is no such list where there are more than `k` of them.
def listed {β : Type*} (next : β → Option β) : Nat → Option β → Option (List β)
  | _, none       => some []
  | 0, some _     => none
  | k + 1, some b => (listed next k (next b)).map (b :: ·)

section
variable {β : Type*} {next : β → Option β} {stop : β → Option Bool} {l : List β}

theorem Follows.listed_head? (h : Follows next l) (hk : l.length ≤ k) : listed next k l.head? = some l := by
  induction l generalizing k
  case nil => cases k <;> rfl
  case cons a l ih =>
    cases k
    case zero => exact absurd hk (Nat.not_succ_le_zero _)
    case succ k =>
      change (listed next k (next a)).map (a :: ·) = some (a :: l)
      rw [h.left, ih h.right (Nat.le_of_succ_le_succ hk), Option.map_some]

theorem Follows.walk_head? (h : Follows next l) (hk : l.length ≤ k) : walk next k l.head? = l := by
  induction l generalizing k with
  | nil => cases k <;> rfl
  | cons a l ih =>
    cases k with
    | zero   => exact absurd hk (Nat.not_succ_le_zero _)
    | succ k => simpa [walk, h.left] using ih h.right (Nat.le_of_succ_le_succ hk)

-- The nodes before and after the place that was found. None of those before is one to stop at.
theorem Follows.search_head? {o : Option β} (h : Follows next l)
    (hs : search next stop k o l.head? = some (a, b)) :
    ∃ m l', l = m ++ l' ∧ a = m.getLast?.or o ∧ b = l'.head? ∧ (∀ c ∈ b, stop c = some true) ∧ ∀ c ∈ m, stop c = some false := by
  induction l generalizing k o with
  | nil =>
    have ⟨ha, hb⟩ : o = a ∧ none = b := by cases k <;> simpa [search] using hs
    exact ⟨[], [], rfl, by simp [ha], hb.symm, by simp [← hb], nofun⟩
  | cons c l ih =>
    cases k with
    | zero   => contradiction
    | succ k =>
      obtain ⟨t, ht, hs⟩ := Option.bind_eq_some_iff.mp hs
      cases t with
      | true =>
        have ⟨ha, hb⟩ : o = a ∧ some c = b := by simpa using hs
        exact ⟨[], c :: l, rfl, by simp [ha], hb.symm, by simpa [← hb] using ht, nofun⟩
      | false =>
        obtain ⟨m, l', rfl, rfl, rfl, hb, hm⟩ := ih h.right (h.left ▸ hs)
        refine ⟨c :: m, l', rfl, ?_, rfl, hb, List.forall_mem_cons.mpr ⟨ht, hm⟩⟩
        cases m <;> simp [List.getLast?_cons]

theorem Follows.isSome_search_head? {o : Option β} (h : Follows next l) (hk : l.length ≤ k)
    (ht : ∀ a ∈ l, (stop a).isSome) : (search next stop k o l.head?).isSome := by
  induction l generalizing k o with
  | nil => cases k <;> rfl
  | cons a l ih =>
    cases k with
    | zero   => exact absurd hk (Nat.not_succ_le_zero _)
    | succ k =>
      rw [List.forall_mem_cons] at ht
      obtain ⟨t, hst⟩ := Option.isSome_iff_exists.mp ht.left
      cases t with
      | true  => simp [search, hst]
      | false => simpa [search, hst, h.left] using ih h.right (Nat.le_of_succ_le_succ hk) ht.right

end

-- Lists that are linked one way and are entered at their tails. Several lists share one set of links.
structure Fifos {β ι : Type*} (hd tl : ι → Option β) (next : β → Option β) (l : ι → List β) : Prop where
  hd       : ∀ i, hd i = (l i).head?
  tl       : ∀ i, tl i = (l i).getLast?
  next     : ∀ i, Follows next (l i)
  nodup    : ∀ i, (l i).Nodup
  disjoint : ∀ {b i j}, b ∈ l i → b ∈ l j → i = j

namespace Fifos

variable {β ι : Type*} [DecidableEq β] [DecidableEq ι] {hd tl : ι → Option β} {next : β → Option β}
variable {l : ι → List β} {b : β} {i : ι}

-- Of an empty list neither the head nor the tail is there.
omit [DecidableEq β] [DecidableEq ι] in
theorem hd_eq_none (h : Fifos hd tl next l) : hd i = none ↔ l i = [] := by
  rw [h.hd, List.head?_eq_none_iff]

-- A list is replaced, and the links of no other list with it.
omit [DecidableEq β] in
theorem update {next' : β → Option β} {l' : List β} (h : Fifos hd tl next l) (hl : Follows next' l') (hn : l'.Nodup)
    (hnext : ∀ a j, j ≠ i → a ∈ l j → next a = next' a) (hdis : ∀ a ∈ l', ∀ j ≠ i, a ∉ l j) :
    Fifos (Function.update hd i l'.head?) (Function.update tl i l'.getLast?) next' (Function.update l i l') where
  hd j := by
    by_cases hj : j = i
    case pos => rw [hj, Function.update_self, Function.update_self]
    case neg => rw [Function.update_of_ne hj, Function.update_of_ne hj, h.hd]
  tl j := by
    by_cases hj : j = i
    case pos => rw [hj, Function.update_self, Function.update_self]
    case neg => rw [Function.update_of_ne hj, Function.update_of_ne hj, h.tl]
  next j := by
    by_cases hj : j = i
    case pos => rwa [hj, Function.update_self]
    case neg =>
      rw [Function.update_of_ne hj]
      exact (h.next j).congr fun a ha => hnext a j hj ha
  nodup j := by
    by_cases hj : j = i
    case pos => rwa [hj, Function.update_self]
    case neg => rw [Function.update_of_ne hj]; exact h.nodup j
  disjoint {a j k} hj hk := by
    by_cases hji : j = i <;> by_cases hki : k = i
    · exact hji.trans hki.symm
    · exact absurd (by simpa [hki] using hk) (hdis a (by simpa [hji] using hj) k hki)
    · exact absurd (by simpa [hji] using hj) (hdis a (by simpa [hki] using hk) j hji)
    · exact h.disjoint (by simpa [hji] using hj) (by simpa [hki] using hk)

theorem insert {m l' : List β} (h : Fifos hd tl next l) (hl : l i = m ++ l') (hb : ∀ j, b ∉ l j) :
    Fifos (if m.getLast? = none then Function.update hd i (some b) else hd)
      (if l'.head? = none then Function.update tl i (some b) else tl)
      (updateAt (Function.update next b l'.head?) m.getLast? (some b)) (Function.update l i (m ++ b :: l')) := by
  have hnodup := hl ▸ h.nodup i
  have hnew : b ∉ m ++ l' := hl ▸ hb i
  have hhd : (if m.getLast? = none then Function.update hd i (some b) else hd) =
      Function.update hd i (m ++ b :: l').head? := by
    cases m with
    | nil      => simp
    | cons a m => simp [h.hd, hl]
  have htl : (if l'.head? = none then Function.update tl i (some b) else tl) =
      Function.update tl i (m ++ b :: l').getLast? := by
    cases l' with
    | nil      => simp
    | cons a t => simp [h.tl, hl]
  rw [hhd, htl]
  refine h.update ?_ ?_ (fun a j hj ha => ?_) fun a ha j hj => ?_
  · exact (hl ▸ h.next i).insert hnodup hnew
  · rw [List.nodup_middle, List.nodup_cons]
    exact ⟨hnew, hnodup⟩
  · rw [updateAt_of_ne, Function.update_of_ne (ne_of_mem_of_not_mem ha (hb j))]
    exact fun hm => hj (h.disjoint ha (hl ▸ List.mem_append_left _ (List.mem_of_getLast? hm)))
  · rcases List.mem_cons.mp (List.perm_middle.mem_iff.mp ha) with rfl | ha
    · exact hb j
    · exact fun haj => hj (h.disjoint haj (hl ▸ ha))

theorem push (h : Fifos hd tl next l) (hb : ∀ j, b ∉ l j) :
    Fifos (Function.update hd i (if tl i = none then some b else hd i)) (Function.update tl i (some b))
      (Function.update (updateAt next (tl i) (some b)) b none) (Function.update l i (l i ++ [b])) := by
  have hins := h.insert (List.append_nil (l i)).symm hb
  have hhd : (if tl i = none then Function.update hd i (some b) else hd) =
      Function.update hd i (if tl i = none then some b else hd i) := by
    split <;> simp
  have hnext : updateAt (Function.update next b none) (tl i) (some b) =
      Function.update (updateAt next (tl i) (some b)) b none := by
    cases hlast : tl i with
    | none   => rfl
    | some c =>
      rw [h.tl] at hlast
      exact Function.update_comm (ne_of_mem_of_not_mem (List.mem_of_getLast? hlast) (hb i)).symm ..
  rwa [← h.tl, List.head?_nil, if_pos rfl, hhd, hnext] at hins

theorem remove {m l' : List β} (h : Fifos hd tl next l) (hl : l i = m ++ b :: l') :
    Fifos (if m.getLast? = none then Function.update hd i (next b) else hd)
      (if next b = none then Function.update tl i m.getLast? else tl)
      (updateAt next m.getLast? (next b)) (Function.update l i (m ++ l')) := by
  have hnodup := hl ▸ h.nodup i
  have hnext := (hl ▸ h.next i).apply_mid
  have hhd : (if m.getLast? = none then Function.update hd i (next b) else hd) =
      Function.update hd i (m ++ l').head? := by
    cases m with
    | nil      => simp [hnext]
    | cons a m => simp [h.hd, hl]
  have htl : (if next b = none then Function.update tl i m.getLast? else tl) =
      Function.update tl i (m ++ l').getLast? := by
    cases l' with
    | nil      => simp [hnext]
    | cons a t => simp [h.tl, hl, hnext]
  rw [hhd, htl]
  refine h.update ((hl ▸ h.next i).remove hnodup) ?_ (fun a j hj ha => ?_) fun a ha j hj haj => ?_
  · exact hnodup.sublist (List.Sublist.append_left (List.sublist_cons_self b l') m)
  · rw [updateAt_of_ne]
    exact fun hm => hj (h.disjoint ha (hl ▸ List.mem_append_left _ (List.mem_of_getLast? hm)))
  · refine hj (h.disjoint haj (hl ▸ ?_))
    exact (List.Sublist.append_left (List.sublist_cons_self b l') m).subset ha

-- The first ones of a list go.
omit [DecidableEq β] in
theorem drop {m l' : List β} (h : Fifos hd tl next l) (hl : l i = m ++ l') :
    Fifos (Function.update hd i l'.head?) (Function.update tl i (if l' = [] then none else tl i)) next
      (Function.update l i l') := by
  have htl : (if l' = [] then none else tl i) = l'.getLast? := by
    rw [h.tl, hl]
    cases l' with
    | nil      => rfl
    | cons a t => rw [if_neg (List.cons_ne_nil a t), List.getLast?_append, List.getLast?_cons, Option.some_or]
  rw [htl]
  refine h.update ?_ ?_ (fun _ _ _ _ => rfl) fun a ha j hj haj => ?_
  · have hlinks := hl ▸ h.next i
    clear hl
    induction m with
    | nil         => exact hlinks
    | cons a m ih => exact ih hlinks.right
  · exact (List.nodup_append.mp (hl ▸ h.nodup i)).right.left
  · exact hj (h.disjoint haj (hl ▸ List.mem_append_right _ ha))

omit [DecidableEq β] in
theorem pop (h : Fifos hd tl next l) (hb : hd i = some b) : ∃ l', l i = b :: l' ∧ next b = l'.head? ∧
    Fifos (Function.update hd i (next b)) (Function.update tl i (if next b = none then none else tl i)) next
      (Function.update l i l') := by
  rw [h.hd, List.head?_eq_some_iff] at hb
  obtain ⟨l', hl⟩ := hb
  have hnext : next b = l'.head? := (hl ▸ h.next i).left
  have hdrop := h.drop (m := [b]) hl
  refine ⟨l', hl, hnext, ?_⟩
  simp only [hnext, List.head?_eq_none_iff]
  exact hdrop

section Mem

variable {a : β} {j : ι} {m l' : List β}

omit [DecidableEq β] in
theorem mem_push : a ∈ Function.update l i (l i ++ [b]) j ↔ a ∈ l j ∨ j = i ∧ a = b := by
  by_cases hj : j = i
  case pos => subst hj; simp
  case neg => simp [hj]

omit [DecidableEq β] in
theorem mem_of_drop (hl : l i = m ++ l') (ha : a ∈ Function.update l i l' j) : a ∈ l j := by
  by_cases hj : j = i
  case pos =>
    subst hj
    rw [Function.update_self] at ha
    exact hl ▸ List.mem_append_right _ ha
  case neg => rwa [Function.update_of_ne hj] at ha

omit [DecidableEq β] in
theorem mem_of_not_drop (hl : l i = m ++ l') (ha : a ∈ l j) (hm : a ∉ m) : a ∈ Function.update l i l' j := by
  by_cases hj : j = i
  case pos =>
    subst hj
    rw [hl, List.mem_append] at ha
    rw [Function.update_self]
    exact ha.resolve_left hm
  case neg => rwa [Function.update_of_ne hj]

-- Those that are taken off a list are on no list any more.
omit [DecidableEq β] in
theorem not_mem_of_drop (h : Fifos hd tl next l) (hl : l i = m ++ l') (ha : a ∈ m) (j : ι) :
    a ∉ Function.update l i l' j := by
  have hai : a ∈ l i := hl ▸ List.mem_append_left _ ha
  intro haj
  by_cases hj : j = i
  case pos =>
    subst hj
    rw [Function.update_self] at haj
    exact (List.nodup_append.mp (hl ▸ h.nodup j)).right.right a ha a haj rfl
  case neg =>
    rw [Function.update_of_ne hj] at haj
    exact hj (h.disjoint haj hai)

omit [DecidableEq β] in
theorem mem_insert (hl : l i = m ++ l') : a ∈ Function.update l i (m ++ b :: l') j ↔ a ∈ l j ∨ j = i ∧ a = b := by
  by_cases hj : j = i
  case pos => subst hj; simp [hl]; tauto
  case neg => simp [hj]

omit [DecidableEq β] in
theorem mem_of_not_remove (hl : l i = m ++ b :: l') (ha : a ∈ l j) (hab : a ≠ b) :
    a ∈ Function.update l i (m ++ l') j := by
  by_cases hj : j = i
  case pos => subst hj; simpa [hl, hab] using ha
  case neg => rwa [Function.update_of_ne hj]

omit [DecidableEq β] in
theorem not_mem_of_remove (h : Fifos hd tl next l) (hl : l i = m ++ b :: l') (j : ι) :
    b ∉ Function.update l i (m ++ l') j := by
  intro hb
  by_cases hj : j = i
  case pos =>
    subst hj
    rw [Function.update_self] at hb
    exact (List.nodup_cons.mp (List.nodup_middle.mp (hl ▸ h.nodup j))).left hb
  case neg =>
    rw [Function.update_of_ne hj] at hb
    exact hj (h.disjoint hb (hl ▸ by simp))

end Mem

end Fifos
