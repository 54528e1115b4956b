import Nix.Lib.Fifos

section

-- The chains of a hash table: they share one set of links and are entered at their heads only.
def Buckets {β ι : Type*} (hd : ι → Option β) (next : β → Option β) (l : ι → List β) : Prop :=
  Fifos hd (fun i => (l i).getLast?) next l

variable {β ι : Type*} [DecidableEq β] [DecidableEq ι] {hd : ι → Option β} {tl : ι → Option β}
variable {next : β → Option β} {l : ι → List β} {m l' : List β} {i : ι} {b : β}

omit [DecidableEq β] [DecidableEq ι] in
theorem Fifos.buckets (h : Fifos hd tl next l) : Buckets hd next l where
  hd       := h.hd
  tl _     := rfl
  next     := h.next
  nodup    := h.nodup
  disjoint := h.disjoint

namespace Buckets

omit [DecidableEq β] [DecidableEq ι] in
theorem congr {next' : β → Option β} (h : Buckets hd next l) (hn : ∀ i, ∀ a ∈ l i, next' a = next a) :
    Buckets hd next' l where
  hd       := h.hd
  tl       := h.tl
  next i   := (h.next i).congr fun a ha => (hn i a ha).symm
  nodup    := h.nodup
  disjoint := h.disjoint

omit [DecidableEq β] [DecidableEq ι] in
theorem head (h : Buckets hd next l) (i : ι) : hd i = (l i).head? :=
  h.hd i

omit [DecidableEq β] [DecidableEq ι] in
-- Where a search along a chain stops.
theorem of_search {stop : β → Option Bool} {a c : Option β} (h : Buckets hd next l)
    (hs : search next stop k none (hd i) = some (a, c)) :
    ∃ m l', l i = m ++ l' ∧ a = m.getLast? ∧ c = l'.head? ∧ (∀ b ∈ c, stop b = some true) ∧
      ∀ b ∈ m, stop b = some false := by
  rw [h.hd] at hs
  obtain ⟨m, l', hl, ha, hc, hb, hm⟩ := (h.next i).search_head? hs
  exact ⟨m, l', hl, ha.trans (Option.or_none ..), hc, hb, hm⟩

omit [DecidableEq β] [DecidableEq ι] in
theorem isSome_search {stop : β → Option Bool} (h : Buckets hd next l) (hk : (l i).length ≤ k)
    (ht : ∀ b, (stop b).isSome) : (search next stop k none (hd i)).isSome :=
  h.hd i ▸ (h.next i).isSome_search_head? hk fun b _ => ht b

theorem remove (h : Buckets hd next l) (hl : l i = m ++ b :: l') :
    Buckets (if m.getLast? = none then Function.update hd i (next b) else hd) (updateAt next m.getLast? (next b))
      (Function.update l i (m ++ l')) :=
  (Fifos.remove h hl).buckets

theorem append (h : Buckets hd next l) (hb : ∀ j, b ∉ l j) (hn : next b = none) :
    Buckets (if (l i).getLast? = none then Function.update hd i (some b) else hd)
      (updateAt next (l i).getLast? (some b)) (Function.update l i (l i ++ [b])) := by
  have := (Fifos.insert h (List.append_nil (l i)).symm hb).buckets
  have hu : Function.update next b none = next := by rw [← hn, Function.update_eq_self]
  rwa [List.head?_nil, hu] at this

section Edit

-- A node is looked for and is taken out where it is found, by putting its link in place of what leads to it.
def unlink (hd : ι → Option β) (next : β → Option β) (i : ι) (b : β) (k : Nat) :
    Option ((ι → Option β) × (β → Option β)) :=
  (search next (fun a => some (a = b)) k none (hd i)).map fun
  | (a, some _) => (if a = none then Function.update hd i (next b) else hd, updateAt next a (next b))
  | (_, none)   => (hd, next)

-- The end is looked for, and a node is put there.
def atend (hd : ι → Option β) (next : β → Option β) (i : ι) (b : β) (k : Nat) :
    Option ((ι → Option β) × (β → Option β)) :=
  (search next (fun _ => some false) k none (hd i)).map fun (a, _) =>
    (if a = none then Function.update hd i (some b) else hd, Function.update (updateAt next a (some b)) b none)

theorem unlink_eq (h : Buckets hd next l) (hk : (l i).length ≤ k) (b : β) :
    ∃ hd' next', unlink hd next i b k = some (hd', next') ∧ Buckets hd' next' (Function.update l i ((l i).erase b)) := by
  have hsome : (search next (fun a => some (decide (a = b))) k none (hd i)).isSome := h.isSome_search hk fun _ => rfl
  obtain ⟨⟨a, c⟩, hs⟩ := Option.isSome_iff_exists.mp hsome
  obtain ⟨m, l', hl, rfl, rfl, hc, hm⟩ := h.of_search hs
  have hbm : b ∉ m := fun hb => by simpa using hm b hb
  refine ⟨_, _, by rw [unlink, hs, Option.map_some], ?_⟩
  cases l'
  case nil =>
    have hb : b ∉ l i := by rwa [hl, List.append_nil]
    rw [List.erase_of_not_mem hb, Function.update_eq_self]
    exact h
  case cons d l' =>
    obtain rfl : d = b := by simpa using hc d rfl
    rw [hl, List.erase_append_right _ hbm, List.erase_cons_head]
    exact h.remove hl

theorem atend_eq (h : Buckets hd next l) (hk : (l i).length ≤ k) (hb : ∀ j, b ∉ l j) :
    ∃ hd' next', atend hd next i b k = some (hd', next') ∧ Buckets hd' next' (Function.update l i (l i ++ [b])) := by
  have hsome : (search next (fun _ => some false) k none (hd i)).isSome := h.isSome_search hk fun _ => rfl
  obtain ⟨⟨a, c⟩, hs⟩ := Option.isSome_iff_exists.mp hsome
  obtain ⟨m, l', hl, rfl, rfl, hc, -⟩ := h.of_search hs
  obtain rfl : l' = [] := by
    cases l'
    case nil => rfl
    case cons d l' => simpa using hc d rfl
  rw [List.append_nil] at hl
  refine ⟨_, _, by rw [atend, hs, Option.map_some], ?_⟩
  rw [← hl]
  have hpush := (Fifos.push (i := i) h hb).buckets
  split at hpush
  case isTrue hnil => rwa [if_pos hnil]
  case isFalse hne => rwa [if_neg hne, Function.update_eq_self] at *

omit [DecidableEq β] in
theorem mem_remove {a : β} {j : ι} (hl : l i = m ++ b :: l') (hab : a ≠ b) :
    a ∈ Function.update l i (m ++ l') j ↔ a ∈ l j := by
  by_cases hj : j = i
  case pos => subst hj; simp [hl, hab]
  case neg => rw [Function.update_of_ne hj]

theorem mem_erase {a : β} {j : ι} (hab : a ≠ b) : a ∈ Function.update l i ((l i).erase b) j ↔ a ∈ l j := by
  by_cases hj : j = i
  case pos => rw [hj, Function.update_self, List.mem_erase_of_ne hab]
  case neg => rw [Function.update_of_ne hj]

theorem not_mem_erase (h : Buckets hd next l) (hb : b ∈ l i) (j : ι) : b ∉ Function.update l i ((l i).erase b) j := by
  by_cases hj : j = i
  case pos =>
    rw [hj, Function.update_self]
    exact (h.nodup i).not_mem_erase
  case neg =>
    rw [Function.update_of_ne hj]
    exact fun hbj => hj (h.disjoint hbj hb)

omit [DecidableEq β] in
theorem mem_push {a : β} {j : ι} : a ∈ Function.update l i (b :: l i) j ↔ a ∈ l j ∨ j = i ∧ a = b := by
  by_cases hj : j = i
  case pos => subst hj; simp; tauto
  case neg => simp [hj]

theorem push (h : Buckets hd next l) (hb : ∀ j, b ∉ l j) :
    Buckets (Function.update hd i (some b)) (Function.update next b (hd i)) (Function.update l i (b :: l i)) := by
  have := (Fifos.insert h (List.nil_append (l i)).symm hb).buckets
  rwa [← h.head] at this

omit [DecidableEq β] in
theorem clear (h : Buckets hd next l) (i : ι) : Buckets (Function.update hd i none) next (Function.update l i []) :=
  (Fifos.drop h (List.append_nil (l i)).symm).buckets

theorem move {j : ι} (h : Buckets hd next l) (hij : i ≠ j) :
    Buckets (Function.update (Function.update hd i none) j (l j ++ l i).head?) (updateAt next (l j).getLast? (l i).head?)
      (Function.update (Function.update l i []) j (l j ++ l i)) := by
  have hdis {a : β} (hj : a ∈ l j) (hi : a ∈ l i) : False := hij <| h.disjoint hi hj
  have hn : (l j ++ l i).Nodup :=
    List.nodup_append.mpr ⟨h.nodup j, h.nodup i, fun a ha b hb he => hdis ha (he ▸ hb)⟩
  refine (Fifos.update (h.clear i) ((h.next j).append (h.next i) hn) hn (fun a k hk ha => ?_) fun a ha k hk hak => ?_).buckets
  · refine (updateAt_of_ne fun hlast => hk ?_).symm
    have hal : a ∈ l k := Fifos.mem_of_drop (List.append_nil (l i)).symm ha
    exact h.disjoint hal <| List.mem_of_getLast? hlast
  · by_cases hki : k = i
    case pos =>
      subst hki
      rw [Function.update_self] at hak
      contradiction
    case neg =>
      rw [Function.update_of_ne hki] at hak
      rcases List.mem_append.mp ha with ha | ha
      · exact hk <| h.disjoint hak ha
      · exact hki <| h.disjoint hak ha

end Edit

end Buckets

end

-- Things that are on several lists, each of them on one at most. `place` tells on which one.
structure Shelves {β ι : Type*} (place : β → Option ι) (l : ι → List β) : Prop where
  nodup : ∀ i, (l i).Nodup
  mem   : ∀ {b i}, b ∈ l i ↔ place b = some i

namespace Shelves

variable {β ι : Type*} [DecidableEq β] [DecidableEq ι] {place : β → Option ι} {l : ι → List β} {m : List β} {b : β} {i j : ι}

theorem pop (h : Shelves place l) (hl : l i = b :: m) :
    Shelves (Function.update place b none) (Function.update l i m) where
  nodup j := by
    by_cases hj : j = i
    case pos =>
      rw [hj, Function.update_self]
      exact (hl ▸ h.nodup i).of_cons
    case neg =>
      rw [Function.update_of_ne hj]
      exact h.nodup j
  mem {a j} := by
    have hb : place b = some i := h.mem.mp <| hl ▸ List.mem_cons_self
    have hnot : b ∉ m := (List.nodup_cons.mp <| hl ▸ h.nodup i).left
    by_cases hj : j = i <;> by_cases ha : a = b
    · simp [hj, ha, hnot]
    · rw [hj, Function.update_self, Function.update_of_ne ha, ← h.mem, hl, List.mem_cons, or_iff_right ha]
    · rw [ha, Function.update_self, Function.update_of_ne hj, h.mem, hb]
      exact iff_of_false (fun he => hj (Option.some.inj he).symm) nofun
    · rw [Function.update_of_ne hj, Function.update_of_ne ha, h.mem]

theorem push (h : Shelves place l) (hb : place b = none) :
    Shelves (Function.update place b (some i)) (Function.update l i (b :: l i)) where
  nodup j := by
    by_cases hj : j = i
    case pos =>
      rw [hj, Function.update_self]
      refine List.nodup_cons.mpr ⟨fun hmem => ?_, h.nodup i⟩
      rw [h.mem, hb] at hmem
      contradiction
    case neg =>
      rw [Function.update_of_ne hj]
      exact h.nodup j
  mem {a j} := by
    by_cases hj : j = i <;> by_cases ha : a = b
    · simp [hj, ha]
    · rw [hj, Function.update_self, Function.update_of_ne ha, List.mem_cons, or_iff_right ha, h.mem]
    · rw [ha, Function.update_self, Function.update_of_ne hj, h.mem, hb]
      exact iff_of_false nofun fun he => hj (Option.some.inj he).symm
    · rw [Function.update_of_ne hj, Function.update_of_ne ha, h.mem]

omit [DecidableEq β] in
theorem pour (h : Shelves place l) (hij : i ≠ j) (hm : m.Perm (l i)) :
    Shelves (fun b => if place b = some i then some j else place b)
      (Function.update (Function.update l i []) j (m ++ l j)) where
  nodup k := by
    by_cases hk : k = j
    case pos =>
      rw [hk, Function.update_self]
      refine List.nodup_append.mpr ⟨hm.nodup_iff.mpr <| h.nodup i, h.nodup j, fun a ha b hb he => hij ?_⟩
      subst he
      exact Option.some.inj <| (h.mem.mp <| hm.mem_iff.mp ha).symm.trans <| h.mem.mp hb
    case neg =>
      rw [Function.update_of_ne hk]
      by_cases hki : k = i
      · rw [hki, Function.update_self]
        exact List.nodup_nil
      · rw [Function.update_of_ne hki]
        exact h.nodup k
  mem {a k} := by
    by_cases hk : k = j
    case pos =>
      rw [hk, Function.update_self, List.mem_append, hm.mem_iff, h.mem, h.mem]
      by_cases ha : place a = some i <;> simp [ha]
    case neg =>
      rw [Function.update_of_ne hk]
      by_cases hki : k = i
      case pos =>
        rw [hki, Function.update_self]
        by_cases ha : place a = some i
        · simp [ha, hij.symm]
        · simp [ha]
      case neg =>
        rw [Function.update_of_ne hki, h.mem]
        by_cases ha : place a = some i
        · rw [if_pos ha, ha]
          exact iff_of_false (fun he => hki (Option.some.inj he).symm) fun he => hk (Option.some.inj he).symm
        · rw [if_neg ha]

end Shelves
