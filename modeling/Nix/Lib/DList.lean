import Mathlib.Data.List.Nodup
import Mathlib.Algebra.Order.Ring.Int

-- Doubly linked lists whose links are kept in their nodes. Several lists share one set of links.
variable {β ι : Type*} [DecidableEq β] [DecidableEq ι]

-- `f` leads from each element to the one that comes next, and ends at the last one.
def Follows (f : β → Option β) : List β → Prop
  | []     => True
  | a :: l => f a = l.head? ∧ Follows f l

def updateAt {γ : Type*} (f : β → γ) : Option β → γ → β → γ
  | none,   _ => f
  | some a, v => Function.update f a v

theorem updateAt_of_ne {γ : Type*} {f : β → γ} {v : γ} (h : o ≠ some a) : updateAt f o v a = f a := by
  cases o with
  | none => rfl
  | some b => exact Function.update_of_ne (fun he => h (congrArg some he.symm)) ..

namespace Follows

variable {f g : β → Option β} {l m : List β}

omit [DecidableEq β] in
theorem congr (h : Follows f l) (hfg : ∀ a ∈ l, f a = g a) : Follows g l := by
  induction l with
  | nil => trivial
  | cons a l ih =>
    rw [List.forall_mem_cons] at hfg
    exact ⟨hfg.left ▸ h.left, ih h.right hfg.right⟩

omit [DecidableEq β] in
theorem apply_mid (h : Follows f (l ++ b :: m)) : f b = m.head? := by
  induction l with
  | nil => exact h.left
  | cons a l ih => exact ih h.right

omit [DecidableEq β] in
theorem mem_of_apply (h : Follows f l) (hb : b ∈ l) (hc : f b = some c) : c ∈ l := by
  obtain ⟨l, m, rfl⟩ := List.append_of_mem hb
  rw [h.apply_mid] at hc
  exact List.mem_append_right _ <| List.mem_cons_of_mem _ <| List.mem_of_mem_head? hc

theorem cons (h : Follows f l) (hb : b ∉ l) : Follows (Function.update f b l.head?) (b :: l) := by
  refine ⟨Function.update_self .., h.congr fun a ha => ?_⟩
  rw [Function.update_of_ne (ne_of_mem_of_not_mem ha hb)]

-- What follows a part of a list is replaced, and the last element of that part gets a link to it.
theorem splice {x : List β} (h : Follows f (l ++ m)) (hx : Follows g x) (hfg : ∀ a ∈ l, f a = g a)
    (hn : (l ++ x).Nodup) : Follows (updateAt g l.getLast? x.head?) (l ++ x) := by
  induction l with
  | nil => exact hx
  | cons a l ih =>
    rw [List.cons_append, List.nodup_cons] at hn
    have ha : a ∉ l ∧ a ∉ x := by simpa using hn.left
    rw [List.forall_mem_cons] at hfg
    cases l with
    | nil =>
      refine ⟨Function.update_self .., hx.congr fun b hb => ?_⟩
      exact (Function.update_of_ne (ne_of_mem_of_not_mem hb ha.right) ..).symm
    | cons c l =>
      rw [List.getLast?_cons_cons]
      refine ⟨?_, ih h.right hfg.right hn.right⟩
      have hlast : (c :: l).getLast? ≠ some a := fun he => ha.left (List.mem_of_getLast? he)
      rw [updateAt_of_ne hlast, ← hfg.left, h.left]
      rfl

theorem append (h : Follows f l) (hm : Follows f m) (hn : (l ++ m).Nodup) :
    Follows (updateAt f l.getLast? m.head?) (l ++ m) :=
  splice (m := []) (by rwa [List.append_nil]) hm (fun _ _ => rfl) hn

theorem concat (h : Follows f l) (hn : (l ++ [b]).Nodup) (hb : f b = none) :
    Follows (updateAt f l.getLast? (some b)) (l ++ [b]) :=
  h.append (m := [b]) ⟨hb, trivial⟩ hn

omit [DecidableEq β] in
theorem of_append (h : Follows f (l ++ m)) : Follows f m := by
  induction l with
  | nil => exact h
  | cons a l ih => exact ih h.right

theorem remove (h : Follows f (l ++ b :: m)) (hn : (l ++ b :: m).Nodup) :
    Follows (updateAt f l.getLast? (f b)) (l ++ m) := by
  rw [h.apply_mid]
  refine h.splice h.of_append.right (fun _ _ => rfl) (hn.sublist ?_)
  exact List.Sublist.append_left (List.sublist_cons_self b m) l

theorem erase (h : Follows f (l ++ b :: m)) (hn : (l ++ b :: m).Nodup) :
    Follows (Function.update (updateAt f l.getLast? (f b)) b none) (l ++ m) := by
  refine (h.remove hn).congr fun a ha => ?_
  rw [List.nodup_middle, List.nodup_cons] at hn
  rw [Function.update_of_ne (ne_of_mem_of_not_mem ha hn.left)]

theorem cut (h : Follows f (l ++ b :: m)) (hn : (l ++ b :: m).Nodup) :
    Follows (Function.update f b none) (l ++ [b]) := by
  induction l with
  | nil => exact ⟨Function.update_self .., trivial⟩
  | cons a l ih =>
    rw [List.cons_append, List.nodup_cons] at hn
    have hne : a ≠ b := fun he => hn.left <| he ▸ by simp
    refine ⟨?_, ih h.right hn.right⟩
    rw [Function.update_of_ne hne, h.left]
    cases l <;> rfl

theorem insert (h : Follows f (l ++ m)) (hn : (l ++ m).Nodup) (hb : b ∉ l ++ m) :
    Follows (updateAt (Function.update f b m.head?) l.getLast? (some b)) (l ++ b :: m) := by
  rw [List.mem_append, not_or] at hb
  refine h.splice (h.of_append.cons hb.right) (fun a ha => ?_) ?_
  · rw [Function.update_of_ne (ne_of_mem_of_not_mem ha hb.left)]
  · rw [List.nodup_middle, List.nodup_cons, List.mem_append]
    exact ⟨not_or.mpr hb, hn⟩

end Follows

structure Links (β : Type*) where
  next : β → Option β
  prev : β → Option β

structure Ends (β : Type*) where
  hd : Option β
  tl : Option β
  n  : Int

namespace Links

variable (k : Links β) (e : Ends β) (b : β)

def unlink : Links β where
  next := Function.update (updateAt k.next (k.prev b) (k.next b)) b none
  prev := Function.update (updateAt k.prev (k.next b) (k.prev b)) b none

def link : Links β where
  next := Function.update k.next b e.hd
  prev := updateAt k.prev e.hd (some b)

def linklast : Links β where
  next := updateAt k.next e.tl (some b)
  prev := Function.update k.prev b e.tl

end Links

namespace Ends

variable (e : Ends β) (k : Links β) (b : β)

omit [DecidableEq β]

def unlink : Ends β where
  hd := if k.prev b = none then k.next b else e.hd
  tl := if k.next b = none then k.prev b else e.tl
  n  := e.n - 1

def link : Ends β where
  hd := some b
  tl := if e.hd = none then some b else e.tl
  n  := e.n + 1

def linklast : Ends β where
  hd := if e.tl = none then some b else e.hd
  tl := some b
  n  := e.n + 1

end Ends

-- `l` is the list that is found between two ends.
structure DList (k : Links β) (e : Ends β) (l : List β) : Prop where
  hd    : e.hd = l.head?
  tl    : e.tl = l.getLast?
  n     : e.n = l.length
  nodup : l.Nodup
  next  : Follows k.next l
  prev  : Follows k.prev l.reverse

namespace DList

variable {k k' : Links β} {e : Ends β} {l m : List β} {a b : β}

omit [DecidableEq β] in
theorem congr (h : DList k e l) (hk : ∀ a ∈ l, k.next a = k'.next a ∧ k.prev a = k'.prev a) :
    DList k' e l :=
  { h with
    next := h.next.congr fun a ha => (hk a ha).left
    prev := h.prev.congr fun a ha => (hk a (List.mem_reverse.mp ha)).right }

omit [DecidableEq β] in
theorem next_mid (h : DList k e (l ++ b :: m)) : k.next b = m.head? :=
  h.next.apply_mid

omit [DecidableEq β] in
theorem reverse_mid (l m : List β) (b : β) : (l ++ b :: m).reverse = m.reverse ++ b :: l.reverse := by
  simp

omit [DecidableEq β] in
theorem prev_mid (h : DList k e (l ++ b :: m)) : k.prev b = l.getLast? := by
  have hp := h.prev
  rw [reverse_mid] at hp
  rw [hp.apply_mid, List.head?_reverse]

omit [DecidableEq β] in
theorem hd_mem (h : DList k e l) (hb : e.hd = some b) : b ∈ l :=
  List.mem_of_head? <| h.hd.symm.trans hb

omit [DecidableEq β] in
theorem tl_mem (h : DList k e l) (hb : e.tl = some b) : b ∈ l :=
  List.mem_of_getLast? <| h.tl.symm.trans hb

omit [DecidableEq β] in
theorem next_mem (h : DList k e l) (hb : b ∈ l) (ha : k.next b = some a) : a ∈ l :=
  h.next.mem_of_apply hb ha

omit [DecidableEq β] in
theorem prev_mem (h : DList k e l) (hb : b ∈ l) (ha : k.prev b = some a) : a ∈ l :=
  List.mem_reverse.mp <| h.prev.mem_of_apply (List.mem_reverse.mpr hb) ha

omit [DecidableEq β] in
theorem not_mem_of_mid (h : DList k e (l ++ b :: m)) : b ∉ l ∧ b ∉ m := by
  have hn := h.nodup
  rw [List.nodup_middle, List.nodup_cons, List.mem_append] at hn
  exact not_or.mp hn.left

omit [DecidableEq β] in
theorem next_ne (h : DList k e l) (hb : b ∈ l) : k.next b ≠ some b := by
  have ⟨l₁, l₂, hl⟩ := List.append_of_mem hb
  rw [hl] at h
  exact h.next_mid ▸ fun he => h.not_mem_of_mid.right (List.mem_of_mem_head? he)

omit [DecidableEq β] in
theorem prev_ne (h : DList k e l) (hb : b ∈ l) : k.prev b ≠ some b := by
  have ⟨l₁, l₂, hl⟩ := List.append_of_mem hb
  rw [hl] at h
  exact h.prev_mid ▸ fun he => h.not_mem_of_mid.left (List.mem_of_getLast? he)

theorem unlink (h : DList k e (l ++ b :: m)) : DList (k.unlink b) (e.unlink k b) (l ++ m) where
  hd := by
    rw [Ends.unlink, h.prev_mid, h.next_mid]
    cases l <;> simp [h.hd]
  tl := by
    rw [Ends.unlink, h.prev_mid, h.next_mid]
    cases m with
    | nil => simp
    | cons c m => simp [h.tl, List.getLast?_append, List.getLast?_cons]
  n := by
    simp only [Ends.unlink, h.n, List.length_append, List.length_cons]
    omega
  nodup := h.nodup.sublist <| (List.sublist_cons_self b m).append_left l
  next := by
    rw [Links.unlink, h.prev_mid]
    exact h.next.erase h.nodup
  prev := by
    have hp := h.prev
    have hn := List.nodup_reverse.mpr h.nodup
    rw [reverse_mid] at hp hn
    rw [Links.unlink, h.next_mid, List.reverse_append, ← List.getLast?_reverse]
    exact hp.erase hn

theorem link (h : DList k e l) (hb : b ∉ l) (hp : k.prev b = none) :
    DList (k.link e b) (e.link b) (b :: l) where
  hd := rfl
  tl := by
    rw [Ends.link, h.hd, h.tl]
    cases l <;> simp
  n     := by simp [Ends.link, h.n]
  nodup := h.nodup.cons hb
  next  := by
    rw [Links.link, h.hd]
    exact h.next.cons hb
  prev := by
    have hn : (l.reverse ++ [b]).Nodup := by
      rw [← List.reverse_cons, List.nodup_reverse]
      exact h.nodup.cons hb
    rw [Links.link, h.hd, List.reverse_cons, ← List.getLast?_reverse]
    exact h.prev.concat hn hp

theorem linklast (h : DList k e l) (hb : b ∉ l) (hn : k.next b = none) :
    DList (k.linklast e b) (e.linklast b) (l ++ [b]) where
  hd := by
    rw [Ends.linklast, h.hd, h.tl]
    cases l <;> simp
  tl := by simp [Ends.linklast]
  n  := by simp [Ends.linklast, h.n]
  nodup := by simpa [List.nodup_append] using ⟨h.nodup, fun a ha he => hb (he ▸ ha)⟩
  next := by
    rw [Links.linklast, h.tl]
    exact h.next.concat (by simpa [List.nodup_append] using ⟨h.nodup, fun a ha he => hb (he ▸ ha)⟩) hn
  prev := by
    rw [Links.linklast, h.tl, List.reverse_append, ← List.head?_reverse]
    exact h.prev.cons (by simpa using hb)

end DList

-- The lists between the ends in `e`, which have no node in common. A node is on the list that
-- `place` tells, if any.
structure Listing (k : Links β) (e : ι → Ends β) (place : β → Option ι) (l : ι → List β) : Prop where
  list : ∀ i, DList k (e i) (l i)
  mem  : ∀ {b i}, b ∈ l i ↔ place b = some i
  off  : ∀ {b}, place b = none → k.next b = none ∧ k.prev b = none

namespace Listing

variable {k : Links β} {e : ι → Ends β} {place : β → Option ι} {l : ι → List β} {a b : β} {i j : ι}

section

omit [DecidableEq β] [DecidableEq ι]

theorem hd_place (h : Listing k e place l) (hb : (e i).hd = some b) : place b = some i :=
  h.mem.mp <| (h.list i).hd_mem hb

theorem tl_place (h : Listing k e place l) (hb : (e i).tl = some b) : place b = some i :=
  h.mem.mp <| (h.list i).tl_mem hb

theorem next_place (h : Listing k e place l) (hb : place b = some i) (ha : k.next b = some a) :
    a ≠ b ∧ place a = some i := by
  have hmem := h.mem.mpr hb
  refine ⟨fun he => (h.list i).next_ne hmem (he ▸ ha), h.mem.mp <| (h.list i).next_mem hmem ha⟩

theorem prev_place (h : Listing k e place l) (hb : place b = some i) (ha : k.prev b = some a) :
    a ≠ b ∧ place a = some i := by
  have hmem := h.mem.mpr hb
  refine ⟨fun he => (h.list i).prev_ne hmem (he ▸ ha), h.mem.mp <| (h.list i).prev_mem hmem ha⟩

theorem ne_of_mem (h : Listing k e place l) (ha : a ∈ l j) (hb : place b ≠ some j) : a ≠ b :=
  fun he => hb <| h.mem.mp (he ▸ ha)

end

theorem update {k' : Links β} {l' : List β} {e' : Ends β} {o : Option ι} (h : Listing k e place l)
    (hl : DList k' e' l') (hb : place b = some i ∨ place b = none) (ho : o = some i ∨ o = none)
    (hmem : ∀ a, a ∈ l' ↔ if a = b then o = some i else a ∈ l i)
    (hsame : ∀ a, a ≠ b → place a ≠ some i → k.next a = k'.next a ∧ k.prev a = k'.prev a)
    (hoff : o = none → k'.next b = none ∧ k'.prev b = none) :
    Listing k' (Function.update e i e') (Function.update place b o) (Function.update l i l') where
  list j := by
    by_cases hj : j = i
    case pos => subst hj; simpa using hl
    case neg =>
      rw [Function.update_of_ne hj, Function.update_of_ne hj]
      refine (h.list j).congr fun a ha => hsame a (h.ne_of_mem ha ?_) ?_
      · rcases hb with hb | hb <;> simp [hb, Ne.symm hj]
      · simp [h.mem.mp ha, hj]
  mem {a j} := by
    by_cases hj : j = i
    case pos =>
      subst hj
      rw [Function.update_self, hmem]
      by_cases ha : a = b
      case pos => simp [ha]
      case neg => rw [if_neg ha, Function.update_of_ne ha, h.mem]
    case neg =>
      rw [Function.update_of_ne hj, h.mem]
      by_cases ha : a = b
      case pos =>
        subst ha
        rcases hb with hb | hb <;> rcases ho with ho | ho <;> simp [hb, ho, Ne.symm hj]
      case neg => rw [Function.update_of_ne ha]
  off {a} := by
    by_cases ha : a = b
    case pos =>
      subst ha
      simpa using hoff
    case neg =>
      rw [Function.update_of_ne ha]
      intro hp
      have ⟨hn, hv⟩ := hsame a ha (by simp [hp])
      exact hn ▸ hv ▸ h.off hp

theorem unlink (h : Listing k e place l) (hb : place b = some i) :
    Listing (k.unlink b) (Function.update e i ((e i).unlink k b)) (Function.update place b none)
      (Function.update l i ((l i).erase b)) := by
  have ⟨l₁, l₂, hl⟩ := List.append_of_mem (h.mem.mpr hb)
  have hlist := h.list i
  have hn := hlist.nodup
  have hb₁ : b ∉ l₁ := (hl ▸ hlist).not_mem_of_mid.left
  have herase : (l i).erase b = l₁ ++ l₂ := by
    rw [hl, List.erase_append_right _ hb₁, List.erase_cons_head]
  refine h.update ?_ (.inl hb) (.inr rfl) (fun a => ?_) (fun a ha hp => ?_) fun _ => ?_
  · rw [herase]
    exact (hl ▸ hlist).unlink
  · rw [hn.mem_erase_iff]
    by_cases ha : a = b <;> simp [ha]
  · have hprev : k.prev b ≠ some a := fun he => hp (h.prev_place hb he).right
    have hnext : k.next b ≠ some a := fun he => hp (h.next_place hb he).right
    simp only [Links.unlink, Function.update_of_ne ha, updateAt_of_ne hprev, updateAt_of_ne hnext,
      and_self]
  · simp [Links.unlink]

theorem link (h : Listing k e place l) (hb : place b = none) (i : ι) :
    Listing (k.link (e i) b) (Function.update e i ((e i).link b))
      (Function.update place b (some i)) (Function.update l i (b :: l i)) := by
  have hmem : b ∉ l i := by simp [h.mem, hb]
  refine h.update ((h.list i).link hmem (h.off hb).right) (.inr hb) (.inl rfl) (fun a => ?_)
    (fun a ha hp => ?_) nofun
  · by_cases ha : a = b <;> simp [ha]
  · have hhd : (e i).hd ≠ some a := fun he => hp <| h.hd_place he
    simp only [Links.link, Function.update_of_ne ha, updateAt_of_ne hhd, and_self]

theorem linklast (h : Listing k e place l) (hb : place b = none) (i : ι) :
    Listing (k.linklast (e i) b) (Function.update e i ((e i).linklast b))
      (Function.update place b (some i)) (Function.update l i (l i ++ [b])) := by
  have hmem : b ∉ l i := by simp [h.mem, hb]
  refine h.update ((h.list i).linklast hmem (h.off hb).left) (.inr hb) (.inl rfl) (fun a => ?_)
    (fun a ha hp => ?_) nofun
  · by_cases ha : a = b <;> simp [ha]
  · have htl : (e i).tl ≠ some a := fun he => hp <| h.tl_place he
    simp only [Links.linklast, Function.update_of_ne ha, updateAt_of_ne htl, and_self]

end Listing
