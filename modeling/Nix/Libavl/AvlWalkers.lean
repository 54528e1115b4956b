import Nix.Libavl.Avlwalk

namespace Libavl

open Comparison

-- Where a walker is: it has not started, it is at a node or where that was before it was deleted, or it has come
-- past an end.
inductive Pos (A : Type*)
  | start
  | at (k : A)
  | past (i : Bool)
deriving DecidableEq

section
variable {A : Type*} {cmp : A → A → Int} {i : Bool} {a k x y : A} {t : Avl A}

def Beyond (cmp : A → A → Int) (i : Bool) (k x : A) : Prop :=
  if i then cmp k x < 0 else 0 < cmp k x

instance : Decidable (Beyond cmp i k x) := by
  unfold Beyond
  infer_instance

-- The next node in a direction.
def Pos.expect (cmp : A → A → Int) (t : Avl A) (i : Bool) : Pos A → Option A
  | .start  => (t.inorder i).head?
  | .at k   => (t.inorder i).find? (Beyond cmp i k ·)
  | .past j => if j = i then none else (t.inorder i).head?

theorem Beyond.trans (h : Comparison cmp) (hx : Beyond cmp i k x) (hy : Beyond cmp i x y) : Beyond cmp i k y := by
  cases i
  · exact h.swap.mp <| h.lt_trans (h.swap.mpr hy) (h.swap.mpr hx)
  · exact h.lt_trans hx hy

theorem Beyond.irrefl (h : Comparison cmp) : ¬Beyond cmp i k k := by
  have := h.refl (x := k)
  cases i <;> simp [Beyond, this]

theorem Beyond.asymm (h : Comparison cmp) (hx : Beyond cmp i k x) : ¬Beyond cmp i x k :=
  fun hk => Beyond.irrefl h (hx.trans h hk)

theorem inorder_pairwise (h : Comparison cmp) (hs : Sorted cmp t.toList) : (t.inorder i).Pairwise (Beyond cmp i) := by
  cases i
  · rw [Avl.inorder_false, List.pairwise_reverse]
    exact hs.imp h.swap.mp
  · rw [Avl.inorder_true]
    exact hs

theorem sorted_nodup (h : Comparison cmp) (hs : Sorted cmp t.toList) : t.toList.Nodup :=
  hs.imp fun hlt he => by
    rw [he, h.refl] at hlt
    contradiction

theorem sorted_inj (h : Comparison cmp) (hs : Sorted cmp t.toList) (hx : x ∈ t.toList) (hy : y ∈ t.toList)
    (h0 : cmp x y = 0) : x = y := by
  have hlt : t.toList.Pairwise fun x y => cmp x y = 0 → x = y := hs.imp fun hlt h0 => by omega
  have hgt : t.toList.Pairwise (flip fun x y => cmp x y = 0 → x = y) := hs.imp fun hlt h0 => by
    have := h.swap.mp hlt
    omega
  exact hlt.forall_of_forall_of_flip (fun _ _ _ => rfl) hgt hx hy h0

theorem expect_mem {pos : Pos A} (h : pos.expect cmp t i = some a) : a ∈ t.toList := by
  rw [← Avl.mem_inorder (i := i)]
  cases pos
  case start => exact List.mem_of_head? h
  case «at» => exact List.mem_of_find?_eq_some h
  case past j =>
    by_cases hj : j = i
    · simp [Pos.expect, hj] at h
    · rw [Pos.expect, if_neg hj] at h
      exact List.mem_of_head? h

variable [DecidableEq A]

theorem expect_at (h : Comparison cmp) (hs : Sorted cmp t.toList) (ha : a ∈ t.toList) :
    (Pos.at a).expect cmp t i = (t.inorder i).follower a :=
  (List.follower_eq_find? (inorder_pairwise h hs) (Beyond.irrefl h) (fun _ hx => hx.asymm h)
    (Avl.mem_inorder.mpr ha)).symm

end

section
variable {A : Type*} (cmp : A → A → Int) (t : Avl A) (i : Bool) (w : Avlwalk A) (pos : Pos A)

-- What is known of a walker, by where it is.
def Tracks : Pos A → Prop
  | .start  => w.started = false ∧ w.moved = false ∧ w.node = none
  | .at k   => w.started = true ∧ w.node = some k ∨
    w.moved = true ∧ w.started = w.node.isSome ∧ ∀ a ∈ w.node, cmp a k < 0
  | .past _ => w.started = true ∧ w.node = none

-- The walker can go on in a direction: its node is in the tree, and no other node is between that and where it is.
def Ahead : Prop :=
  match w.started, w.node with
  | false, _     => ∀ k, pos = .at k → ∀ x ∈ t.toList, Beyond cmp i k x
  | true, none   => False
  | true, some a => a ∈ t.toList ∧ ∀ k, pos = .at k → ∀ x ∈ t.toList, Beyond cmp i a x → Beyond cmp i k x

-- The node that the walker was moved to is the one before where it is.
def Behind : Prop :=
  match w.node with
  | none   => pos = .past true → t.toList = []
  | some a => a ∈ t.toList ∧ ∀ k, pos = .at k → cmp a k < 0 ∧ ∀ x ∈ t.toList, cmp a x < 0 → cmp k x ≤ 0

def NextRight : Prop :=
  Ahead cmp t true w pos

def PrevRight : Prop :=
  if w.started ∧ w.moved then Behind cmp t w pos else Ahead cmp t false w pos

end

section
variable {A W : Type*} [DecidableEq A] {cmp : A → A → Int} {i : Bool} {w : Avlwalk A}
  {pos : Pos A} {s : Walked A W}

theorem go_right (h : Comparison cmp) (hb : s.root.Balanced none) (hs : Sorted cmp s.root.toList)
    (ht : Tracks cmp w pos) (hi : i = true ∨ ¬(w.started = true ∧ w.moved = true)) :
    (∃ u, s.go i w = some u ∧ u.node = pos.expect cmp s.root i) ↔ Ahead cmp s.root i w pos := by
  have hord := inorder_pairwise (i := i) h hs
  obtain ⟨started, moved, node⟩ := w
  cases started
  case false =>
    simp only [Walked.go, Ahead, Bool.not_false, if_true, Option.some.injEq, exists_eq_left', Avl.outermost_eq]
    cases pos
    case start => simp [Pos.expect]
    case past => simp [Tracks] at ht
    case «at» k =>
      have hhead : (s.root.inorder i).head? = (s.root.inorder i).find? fun _ => true := by
        cases s.root.inorder i <;> rfl
      rw [Pos.expect, hhead, List.find?_eq_find?_iff hord (fun x y hxy hx => ?_) fun _ _ _ => rfl]
      · simp [Avl.mem_inorder]
      · exact decide_eq_true ((of_decide_eq_true hx).trans h hxy)
  case true =>
    cases node
    case none => simp [Walked.go, Ahead]
    case some a =>
      have hgo : ∀ c, s.root.neighbor i a = some c → s.go i ⟨true, moved, some a⟩ = some ⟨true, moved, c⟩ := by
        intro c hc
        simp [Walked.go, hc]
      by_cases ha : a ∈ s.root.toList
      case neg => simp [Walked.go, Ahead, ha, Avl.neighbor_eq_none]
      case pos =>
        rw [hgo _ (Avl.neighbor_eq (sorted_nodup h hs) hb.measured ha)]
        simp only [Ahead, ha, true_and, Option.some.injEq, exists_eq_left', ← expect_at h hs ha]
        cases pos
        case start => simp [Tracks] at ht
        case past => simp [Tracks] at ht
        case «at» k =>
          have hback : ∀ x ∈ s.root.inorder i, decide (Beyond cmp i k x) = true → decide (Beyond cmp i a x) = true := by
            intro x _ hx
            refine decide_eq_true ?_
            have hx := of_decide_eq_true hx
            rcases ht with ⟨-, hk⟩ | ⟨hm, -, hk⟩
            · exact Option.some.inj hk ▸ hx
            · obtain rfl : i = true := hi.resolve_right fun hn => hn ⟨rfl, hm⟩
              exact Beyond.trans h (hk a rfl) hx
          rw [Pos.expect, Pos.expect, List.find?_eq_find?_iff hord (fun x y hxy hx => ?_) hback]
          · simp [Avl.mem_inorder]
          · exact decide_eq_true ((of_decide_eq_true hx).trans h hxy)

theorem next_right (h : Comparison cmp) (hb : s.root.Balanced none) (hs : Sorted cmp s.root.toList)
    (ht : Tracks cmp w pos) :
    (∃ u, s.next w = some u ∧ u.node = pos.expect cmp s.root true) ↔ NextRight cmp s.root w pos :=
  go_right h hb hs ht (.inl rfl)

theorem prev_right (h : Comparison cmp) (hb : s.root.Balanced none) (hs : Sorted cmp s.root.toList)
    (ht : Tracks cmp w pos) :
    (∃ u, s.prev w = some u ∧ u.node = pos.expect cmp s.root false) ↔ PrevRight cmp s.root w pos := by
  rw [Walked.prev, PrevRight]
  split
  case isFalse hm => exact go_right h hb hs ht (.inr hm)
  case isTrue hm =>
    have hord := inorder_pairwise (i := false) h hs
    obtain ⟨started, moved, node⟩ := w
    obtain ⟨rfl, rfl⟩ := hm
    simp only [Option.some.injEq, exists_eq_left']
    cases node
    case none =>
      cases pos
      case start => simp [Tracks] at ht
      case «at» k => simp [Tracks] at ht
      case past j =>
        cases j
        · simp [Pos.expect, Behind]
        · rw [Pos.expect, if_neg (by decide), eq_comm, List.head?_eq_none_iff, Avl.inorder_false,
            List.reverse_eq_nil_iff]
          simp [Behind]
    case some a =>
      cases pos
      case start => simp [Tracks] at ht
      case past => simp [Tracks] at ht
      case «at» k =>
        rw [eq_comm, Pos.expect, List.find?_eq_some_iff_of_pairwise hord fun _ _ hx => hx.asymm h]
        simp only [Behind, Avl.mem_inorder, Beyond, Bool.false_eq_true, if_false, decide_eq_true_eq, Pos.at.injEq,
          forall_eq']
        refine and_congr_right fun ha => and_congr h.swap.symm <| forall₂_congr fun x hx => ?_
        have hsame : cmp a x = 0 → x = a := fun h0 => (sorted_inj h hs ha hx h0).symm
        have hself : cmp a a = 0 := h.refl
        constructor
        · intro hgt hlt
          by_contra! hk
          rcases hgt hk with rfl | hgt <;> omega
        · intro hle hk
          by_contra! hne
          exact hne.left (hsame (by omega))

end

-- Where a call of `avlnext` or `avlprev` has brought the walker.
def Pos.reached {A : Type*} (i : Bool) : Option A → Pos A
  | some a => .at a
  | none   => .past i

theorem tracks_reached {A : Type*} {cmp : A → A → Int} {u : Avlwalk A} {i : Bool} (h : u.started = true) : Tracks cmp u (.reached i u.node) := by
  cases hu : u.node
  case none => exact ⟨h, hu⟩
  case some => exact .inl ⟨h, hu⟩

section
variable {A W : Type*} [DecidableEq A] {s : Walked A W}

theorem go_started {i : Bool} {x u : Avlwalk A} (h : s.go i x = some u) : u.started = true := by
  rw [Walked.go] at h
  split at h
  case isTrue => rw [← Option.some.inj h]
  case isFalse hs =>
    obtain ⟨a, -, h⟩ := Option.bind_eq_some_iff.mp h
    obtain ⟨b, -, h⟩ := Option.bind_eq_some_iff.mp h
    rw [← Option.some.inj h]
    simpa using hs

theorem prev_started {x u : Avlwalk A} (h : s.prev x = some u) : u.started = true := by
  rw [Walked.prev] at h
  split at h
  case isTrue hs => exact Option.some.inj h ▸ hs.left
  case isFalse => exact go_started h

end

section
variable {A W : Type*} [DecidableEq A] [DecidableEq W] {cmp : A → A → Int} {w : W} {s t : Walked A W}
  {pos : W → Pos A} {c : Call A W}

def follow (cmp : A → A → Int) (s : Walked A W) : Call A W → (W → Pos A) → W → Pos A
  | .avlwalk w, pos => Function.update pos w .start
  | .avlnext w, pos => Function.update pos w (.reached true ((s.step cmp (.avlnext w)).bind Walked.ret))
  | .avlprev w, pos => Function.update pos w (.reached false ((s.step cmp (.avlprev w)).bind Walked.ret))
  | _, pos          => pos

def followed (W : Type*) [DecidableEq W] (cmp : A → A → Int) : Machine (Walked A W × (W → Pos A)) (Call A W) :=
  (walkers W cmp).track (W → Pos A) (fun _ _ => .start) (follow cmp)

structure Walking (cmp : A → A → Int) (s : Walked A W) (pos : W → Pos A) : Prop where
  balanced : s.root.Balanced none
  sorted   : Sorted cmp s.root.toList
  tracks   : ∀ w ∈ s.walks, Tracks cmp (s.walk w) (pos w)

namespace Walking

omit [DecidableEq A] in
theorem setwalk {u : Avlwalk A} {i : Bool} (hi : Walking cmp s pos) (hu : u.started = true) :
    Walking cmp (s.setwalk w u) (Function.update pos w (.reached i u.node)) where
  balanced := hi.balanced
  sorted   := hi.sorted
  tracks v hv := by
    by_cases hvw : v = w
    · subst hvw
      simp only [Walked.setwalk, Function.update_self]
      exact tracks_reached hu
    · simp only [Walked.setwalk, Function.update_of_ne hvw]
      exact hi.tracks v hv

theorem walkdel {a : A} (h : Comparison cmp) (hi : Walking cmp s pos) (ha : a ∈ s.root.toList) :
    ∃ u, s.walkdel a = some u ∧ u.root = s.root ∧ u.walks = s.walks ∧ Walking cmp u pos := by
  have hp := Avl.neighbor_eq (i := false) (sorted_nodup h hi.sorted) hi.balanced.measured ha
  rw [← expect_at h hi.sorted ha] at hp
  refine ⟨_, Option.map_eq_some_iff.mpr ⟨_, hp, rfl⟩, rfl, rfl, hi.balanced, hi.sorted, fun w hw => ?_⟩
  have hlt : ∀ b ∈ (Pos.at a).expect cmp s.root false, cmp b a < 0 := fun b hb => by
    have hbeyond := List.find?_some hb
    exact h.swap.mpr (of_decide_eq_true hbeyond)
  have ht := hi.tracks w hw
  dsimp only
  split
  case isFalse => exact ht
  case isTrue hnode =>
    cases hpos : pos w
    case start => simp [hpos, Tracks, hnode.right] at ht
    case past => simp [hpos, Tracks, hnode.right] at ht
    case «at» k =>
      rw [hpos] at ht
      refine .inr ⟨rfl, ?_, fun b hb => ?_⟩
      · have hstarted : (s.walk w).started = true := by
          rcases ht with ht | ht
          · exact ht.left
          · rw [ht.right.left, hnode.right]; rfl
        cases (Pos.at a).expect cmp s.root false <;> simp [hstarted]
      · rcases ht with ht | ht
        · rw [hnode.right, Option.some.injEq] at ht
          exact ht.right ▸ hlt b hb
        · exact h.lt_trans (hlt b hb) (ht.right.right a hnode.right)

theorem step (h : Comparison cmp) (hi : Walking cmp s pos) (hs : s.step cmp c = some t) :
    Walking cmp t (follow cmp s c pos) := by
  cases c
  case insertavl new =>
    obtain ⟨u, _, old, left, right, hu, hb, hl, hcut, -⟩ := Avl.insertavl_spec (r := new) h hi.balanced hi.sorted
    obtain ⟨_, hv, rfl⟩ := Option.map_eq_some_iff.mp hs
    obtain rfl := Option.some.inj (hu.symm.trans hv)
    exact ⟨hb, hl ▸ hcut.sorted_insert h hi.sorted, hi.tracks⟩
  case deleteavl key =>
    obtain ⟨u, _, old, left, right, hu, hb, hl, hcut, -⟩ := Avl.deleteavl_spec (r := key) h hi.balanced hi.sorted
    have hsorted : Sorted cmp u.toList := hl ▸ hcut.sorted_append hi.sorted
    obtain ⟨_, hv, hs⟩ := Option.bind_eq_some_iff.mp hs
    obtain rfl := Option.some.inj (hu.symm.trans hv)
    cases old
    case none => exact Option.some.inj hs ▸ ⟨hb, hsorted, hi.tracks⟩
    case some a =>
      obtain ⟨v, hv, rfl⟩ := Option.map_eq_some_iff.mp hs
      obtain ⟨v', hv', -, -, hi'⟩ := hi.walkdel h (hcut.old_iff.mp rfl).left
      obtain rfl := Option.some.inj (hv.symm.trans hv')
      exact ⟨hb, hsorted, hi'.tracks⟩
  case avlwalk w =>
    obtain ⟨hw, hs⟩ := Option.ite_none_left_eq_some.mp hs
    obtain rfl := Option.some.inj hs
    refine ⟨hi.balanced, hi.sorted, fun v hv => ?_⟩
    by_cases hvw : v = w
    · subst hvw
      simp only [follow, Function.update_self]
      exact ⟨rfl, rfl, rfl⟩
    · simp only [follow, Function.update_of_ne hvw]
      exact hi.tracks v ((List.mem_cons.mp hv).resolve_left hvw)
  case avlnext w =>
    have hret : follow cmp s (.avlnext w) pos = Function.update pos w (.reached true t.ret) := by rw [follow, hs]; rfl
    obtain ⟨u, hu, rfl⟩ := Option.map_eq_some_iff.mp (Option.ite_none_right_eq_some.mp hs).right
    exact hret ▸ hi.setwalk (go_started hu)
  case avlprev w =>
    have hret : follow cmp s (.avlprev w) pos = Function.update pos w (.reached false t.ret) := by rw [follow, hs]; rfl
    obtain ⟨u, hu, rfl⟩ := Option.map_eq_some_iff.mp (Option.ite_none_right_eq_some.mp hs).right
    exact hret ▸ hi.setwalk (prev_started hu)
  case endwalk w =>
    obtain ⟨hw, hs⟩ := Option.ite_none_right_eq_some.mp hs
    obtain rfl := Option.some.inj hs
    exact ⟨hi.balanced, hi.sorted, fun v hv => hi.tracks v (List.mem_of_mem_erase hv)⟩

end Walking

theorem walking (h : Comparison cmp) :
    (followed W cmp).Invariant (fun _ _ => True) fun x => Walking cmp x.fst x.snd where
  init := by
    rintro ⟨s, pos⟩ ⟨⟨hroot, hwalks, -⟩, -⟩
    dsimp only at hroot hwalks
    exact ⟨hroot ▸ .nil, hroot ▸ .nil, by simp [hwalks]⟩
  step := by
    rintro ⟨s, pos⟩ c ⟨t, pos'⟩ hi - hs
    obtain ⟨hs, hpos⟩ := Machine.track_step_eq.mp hs
    dsimp only at hs hpos hi ⊢
    exact hpos ▸ hi.step h hs

-- What calls of `avlnext` in a row return.
def Walked.visits (cmp : A → A → Int) (s : Walked A W) (w : W) : Nat → Option (List (Option A))
  | 0     => some []
  | n + 1 => (s.step cmp (.avlnext w)).bind fun t => (Walked.visits cmp t w n).map (t.ret :: ·)

theorem follower_middle {a : A} {x y : List A} (h : (x ++ a :: y).Nodup) : (x ++ a :: y).follower a = y.head? := by
  have ha : a ∉ x := fun hm => (List.nodup_append.mp h).right.right a hm a List.mem_cons_self rfl
  rw [List.follower_append_right ha, List.follower_cons_self]

theorem step_avlnext {u : Avlwalk A} (hw : w ∈ s.walks) (hu : s.next (s.walk w) = some u) :
    s.step cmp (.avlnext w) = some (s.setwalk w u) := by
  rw [Walked.step, if_pos hw, hu]
  rfl

omit [DecidableEq W] in
theorem next_middle {a : A} {x y : List A} {v : Avlwalk A} (h : Comparison cmp) (hb : s.root.Balanced none)
    (hs : Sorted cmp s.root.toList) (hstarted : v.started = true) (hnode : v.node = some a)
    (hl : s.root.toList = x ++ a :: y) : s.next v = some { v with node := y.head? } := by
  have ha : a ∈ s.root.toList := hl ▸ List.mem_append_right x List.mem_cons_self
  have hn := Avl.neighbor_eq (i := true) (sorted_nodup h hs) hb.measured ha
  rw [Avl.inorder_true, hl, follower_middle (hl ▸ sorted_nodup h hs)] at hn
  rw [Walked.next, Walked.go, if_neg (by simp [hstarted]), hnode]
  simp only [Option.bind_eq_bind, Option.bind_some, hn]
  rfl

theorem visits_after {a : A} {x y : List A} (h : Comparison cmp) (hb : s.root.Balanced none)
    (hs : Sorted cmp s.root.toList) (hw : w ∈ s.walks) (hstarted : (s.walk w).started = true)
    (hnode : (s.walk w).node = some a) (hl : s.root.toList = x ++ a :: y) :
    s.visits cmp w (y.length + 1) = some (y.map some ++ [none]) := by
  induction y generalizing s a x
  case nil =>
    rw [List.length_nil, Walked.visits, step_avlnext hw (next_middle h hb hs hstarted hnode hl)]
    rfl
  case cons b y ih =>
    rw [List.length_cons, Walked.visits, step_avlnext hw (next_middle h hb hs hstarted hnode hl), Option.bind_some,
      ih (a := b) (x := x ++ [a])]
    · rfl
    · exact hb
    · exact hs
    · exact hw
    · simp [Walked.setwalk, hstarted]
    · simp [Walked.setwalk]
    · simp [Walked.setwalk, hl]

theorem visits_all (h : Comparison cmp) (hb : s.root.Balanced none) (hs : Sorted cmp s.root.toList)
    (hw : w ∈ s.walks) (hfresh : (s.walk w).started = false) :
    s.visits cmp w (s.root.toList.length + 1) = some (s.root.toList.map some ++ [none]) := by
  have hnext : s.next (s.walk w) = some { s.walk w with node := s.root.toList.head?, started := true } := by
    rw [Walked.next, Walked.go, if_pos (by simp [hfresh]), Avl.outermost_eq, Avl.inorder_true]
  rw [Walked.visits, step_avlnext hw hnext, Option.bind_some]
  cases hl : s.root.toList
  case nil =>
    simp [Walked.visits, Walked.setwalk]
  case cons a y =>
    rw [List.length_cons, visits_after (a := a) (x := []) (y := y) h]
    · rfl
    · exact hb
    · exact hs
    · exact hw
    · simp [Walked.setwalk]
    · simp [Walked.setwalk]
    · exact hl

theorem expect_undo {a b : A} {root : Avl A} (h : Comparison cmp) (hs : Sorted cmp root.toList) (ha : a ∈ root.toList)
    (hb : (Pos.at a).expect cmp root true = some b) : (Pos.at b).expect cmp root false = some a := by
  have hmem : b ∈ root.toList := expect_mem hb
  rw [expect_at h hs ha, Avl.inorder_true] at hb
  rw [expect_at h hs hmem, Avl.inorder_false]
  have hnodup := sorted_nodup h hs
  obtain ⟨x, y, hl⟩ := List.append_of_mem ha
  rw [hl] at hb hnodup ⊢
  rw [follower_middle hnodup] at hb
  obtain ⟨y, rfl⟩ := List.head?_eq_some_iff.mp hb
  have hrev : (x ++ a :: b :: y).reverse = y.reverse ++ b :: a :: x.reverse := by simp
  rw [← List.nodup_reverse, hrev] at hnodup
  rw [hrev, follower_middle hnodup]
  rfl

-- A call returns what is expected when and only when the walker is ahead of, or behind, where it is.
theorem walkers_right (h : Comparison cmp) (hr : (followed W cmp).Reachable (fun _ _ => True) (s, pos))
    (hw : w ∈ s.walks) :
    ((∃ t, s.step cmp (.avlnext w) = some t ∧ t.ret = (pos w).expect cmp s.root true) ↔
      NextRight cmp s.root (s.walk w) (pos w)) ∧
    ((∃ t, s.step cmp (.avlprev w) = some t ∧ t.ret = (pos w).expect cmp s.root false) ↔
      PrevRight cmp s.root (s.walk w) (pos w)) ∧
    (∀ i, ∀ a ∈ (pos w).expect cmp s.root i, a ∈ s.root.toList) ∧
    (∀ a ∈ s.root.toList, ∀ b ∈ (Pos.at a).expect cmp s.root true, (Pos.at b).expect cmp s.root false = some a) ∧
    (pos w = .start → s.visits cmp w (s.root.toList.length + 1) = some (s.root.toList.map some ++ [none])) := by
  have hi : Walking cmp s pos := (walking h).holds hr
  have ht := hi.tracks w hw
  refine ⟨?_, ?_, fun i a ha => expect_mem ha, fun a ha b hb => expect_undo h hi.sorted ha hb, fun hp => ?_⟩
  · rw [← next_right h hi.balanced hi.sorted ht, Walked.step, if_pos hw]
    simp [Walked.setwalk]
  · rw [← prev_right h hi.balanced hi.sorted ht, Walked.step, if_pos hw]
    simp [Walked.setwalk]
  · rw [hp] at ht
    exact visits_all h hi.balanced hi.sorted hw ht.left

end

def empty : Walked Int Unit where
  root   := .nil
  walks  := []
  walk _ := { started := false, moved := false, node := none }
  ret    := none

def three : List (Call Int Unit) :=
  [.insertavl 1, .insertavl 2, .insertavl 3, .avlwalk ()]

theorem empty_init : (walkers Unit fun x y : Int => x - y).init empty :=
  ⟨rfl, rfl, rfl⟩

theorem visits_three : ∃ s : Walked Int Unit, s.root.toList = [1, 2, 3] ∧
    s.visits (fun x y => x - y) () 4 = some [some 1, some 2, some 3, none] := by
  have hrun : ((followed Unit fun x y : Int => x - y).exec (empty, fun _ => .start) three).map
      (fun s => (s.fst.root.toList, s.fst.walks, decide (s.snd () = .start))) = some ([1, 2, 3], [()], true) := by
    decide +kernel
  obtain ⟨⟨s, pos⟩, hs, he⟩ := Option.map_eq_some_iff.mp hrun
  simp only [Prod.mk.injEq, decide_eq_true_eq] at he
  have hreach : (followed Unit fun x y : Int => x - y).Reachable (fun _ _ => True) (s, pos) :=
    .exec (.init ⟨empty_init, rfl⟩) (fun _ _ _ => trivial) hs
  have hright := walkers_right comparison_sub (w := ()) hreach (by simp [he.right.left])
  refine ⟨s, he.left, ?_⟩
  have hvisits := hright.right.right.right.right he.right.right
  rwa [he.left] at hvisits

-- The node after the one that was deleted is returned again.
theorem avlprev_repeats : ∃ (s : Walked Int Unit) (pos : Unit → Pos Int),
    (followed Unit fun x y => x - y).Reachable (fun _ _ => True) (s, pos) ∧
      (s.step (fun x y => x - y) (.avlprev ())).bind Walked.ret = some 3 ∧
      (pos ()).expect (fun x y => x - y) s.root false = some 1 := by
  have hrun : ((followed Unit fun x y : Int => x - y).exec (empty, fun _ => .start)
      (three ++ [.avlnext (), .avlnext (), .deleteavl 2, .avlnext ()])).map
      (fun s => ((s.fst.step (fun x y => x - y) (.avlprev ())).bind Walked.ret,
        (s.snd ()).expect (fun x y => x - y) s.fst.root false)) = some (some 3, some 1) := by
    decide +kernel
  obtain ⟨⟨s, pos⟩, hs, he⟩ := Option.map_eq_some_iff.mp hrun
  obtain ⟨hret, hexp⟩ := Prod.mk.inj he
  exact ⟨s, pos, .exec (.init ⟨empty_init, rfl⟩) (fun _ _ _ => trivial) hs, hret, hexp⟩

end Libavl
