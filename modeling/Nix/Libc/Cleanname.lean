import Nix.Lib.Slashes

-- The shortest name that is the same as another by its text alone.
namespace Libc

open Slashes

def slash : UInt8 := '/'.toUInt8
def dot : UInt8 := '.'.toUInt8
def hash : UInt8 := '#'.toUInt8

def SEP (x : UInt8) : Prop :=
  x = slash ∨ x = 0

instance : DecidablePred SEP :=
  fun _ => inferInstanceAs (Decidable (_ ∨ _))

-- The name is rewritten in place, and what is written stays behind what is still to be read. So `p` has the bytes from
-- there on, and `q` those from the start of the name to there, with the last one first.
structure Clean where
  p            : List UInt8
  q            : List UInt8
  dotdot       : Nat
  erasedprefix : Bool

def backtrack (dotdot : Nat) : List UInt8 → List UInt8
  | []     => []
  | c :: q => if dotdot < q.length ∧ c ≠ slash then backtrack dotdot q else q

namespace Clean

-- The byte at some distance from `p`, where the name is ended by 0.
def byte (t : Clean) (i : Nat) : UInt8 :=
  t.p.getD i 0

-- The element `..` is gone over.
def dotdotelem (rooted : Nat) (t : Clean) : Clean :=
  let t := { t with p := t.p.drop 2 }
  let t :=
    if t.dotdot < t.q.length then { t with q := backtrack t.dotdot t.q }
    else if rooted = 0 then
      let q := dot :: dot :: if t.q = [] then [] else slash :: t.q
      { t with q := q, dotdot := q.length }
    else t
  { t with erasedprefix := t.erasedprefix || t.q = [] }

def realelem (rooted : Nat) (t : Clean) : Clean :=
  let q := if t.q.length ≠ rooted then slash :: t.q else t.q
  { t with p := t.p.dropWhile (· ≠ slash), q := (t.p.takeWhile (· ≠ slash)).reverse ++ q }

def round (name : List UInt8) (rooted : Nat) (t : Clean) : Clean :=
  if t.byte 0 = slash then
    { t with p := t.p.drop 1 }
  else if t.byte 0 = dot ∧ SEP (t.byte 1) then
    { t with p := t.p.drop 1, erasedprefix := t.erasedprefix || t.p.length = name.length }
  else if t.byte 0 = dot ∧ t.byte 1 = dot ∧ SEP (t.byte 2) then
    t.dotdotelem rooted
  else
    t.realelem rooted

def rounds (name : List UInt8) (rooted : Nat) : Nat → Clean → Clean
  | 0, t     => t
  | n + 1, t => if t.p = [] then t else rounds name rooted n (round name rooted t)

end Clean

-- A round gets past a byte or more, so no more of them are needed than there are bytes.
def cleanname (name : List UInt8) : List UInt8 :=
  let rooted := if name.head? = some slash then 1 else 0
  let t := Clean.rounds name rooted name.length ⟨name.drop rooted, name.take rooted, rooted, false⟩
  let s := if t.q = [] then [dot] else t.q.reverse
  if t.erasedprefix ∧ s.head? = some hash then dot :: slash :: s else s

-- The bytes of an element of a name.
structure Elem (e : List UInt8) : Prop where
  slash : slash ∉ e
  nul   : 0 ∉ e

section

variable {es fs : List (List UInt8)} {e u v name : List UInt8} {n : Nat}

theorem backtrack_elem (hu : u ≠ []) (h : slash ∉ u) :
    backtrack 1 (u ++ slash :: v) = if v = [] then [slash] else v := by
  induction u
  case nil => contradiction
  case cons c u ih =>
    rw [List.mem_cons, not_or] at h
    rw [List.cons_append, backtrack]
    cases u
    case nil =>
      cases v
      case nil => exact if_neg fun hlt => absurd hlt.left (Nat.lt_irrefl 1)
      case cons b v =>
        have hlt : 1 < ([] ++ slash :: b :: v).length := by simp
        rw [if_pos ⟨hlt, Ne.symm h.left⟩, List.nil_append, backtrack, if_neg fun hc => hc.right rfl]
        rfl
    case cons d u =>
      have hlt : 1 < (d :: u ++ slash :: v).length := by
        rw [List.length_append, List.length_cons, List.length_cons]
        omega
      rw [if_pos ⟨hlt, Ne.symm h.left⟩]
      exact ih (List.cons_ne_nil d u) h.right

theorem backtrack_rooted (hes : es ≠ []) (h : ∀ e ∈ es, Plain slash dot e) :
    backtrack 1 (rooted slash es).reverse = (rooted slash es.dropLast).reverse := by
  obtain ⟨fs, e, rfl⟩ := (List.eq_nil_or_concat' es).resolve_left hes
  have he : Plain slash dot e := h e (List.mem_append_right fs (List.mem_singleton_self e))
  have hslash : slash ∉ e.reverse := fun hm => he.sep (List.mem_reverse.mp hm)
  rw [rooted_concat, List.dropLast_concat, List.reverse_append, List.reverse_cons, List.append_assoc]
  rw [List.singleton_append, backtrack_elem (mt List.reverse_eq_nil_iff.mp he.nonempty) hslash]
  cases fs
  case nil => rfl
  case cons f fs =>
    have hne : (slashed slash (f :: fs)).reverse ≠ [] := by simp [slashed_cons]
    rw [if_neg hne, rooted_of_ne (List.cons_ne_nil f fs)]

theorem one_lt_rooted (h : ∀ e ∈ es, Plain slash dot e) : 1 < (rooted slash es).length ↔ es ≠ [] := by
  cases es
  case nil => exact iff_of_false (Nat.lt_irrefl 1) fun hn => hn rfl
  case cons e es =>
    have hpos := List.length_pos_iff.mpr (h e List.mem_cons_self).nonempty
    refine iff_of_true ?_ (List.cons_ne_nil e es)
    rw [rooted_of_ne (List.cons_ne_nil e es), slashed_cons, List.cons_append, List.length_cons, List.length_append]
    omega

theorem sep_slashed : SEP ((slashed slash es).getD 0 0) := by
  cases es
  case nil => exact .inr rfl
  case cons => exact .inl rfl

theorem not_sep {c : UInt8} (he : Elem e) (h : c ∈ e) : ¬SEP c := by
  rintro (rfl | rfl)
  · exact he.slash h
  · exact he.nul h

theorem takeWhile_elem (es : List (List UInt8)) (he : slash ∉ e) :
    (e ++ slashed slash es).takeWhile (· ≠ slash) = e ∧ (e ++ slashed slash es).dropWhile (· ≠ slash) = slashed slash es := by
  have hpos : ∀ c ∈ e, decide (c ≠ slash) = true := fun c hc => decide_eq_true fun h => he (h ▸ hc)
  rw [List.takeWhile_append_of_pos hpos, List.dropWhile_append_of_pos hpos]
  cases es
  case nil => exact ⟨List.append_nil e, rfl⟩
  case cons => exact ⟨List.append_nil e, rfl⟩

-- What there is when `fs` has been gone through, below the root.
def Clean.below (p : List UInt8) (fs : List (List UInt8)) : Clean :=
  ⟨p, (rooted slash fs).reverse, 1, false⟩

theorem round_slash (name p : List UInt8) (fs : List (List UInt8)) :
    Clean.round name 1 (.below (slash :: p) fs) = .below p fs :=
  if_pos rfl

theorem realelem_below (hfs : ∀ f ∈ fs, Plain slash dot f) (he : slash ∉ e) :
    Clean.realelem 1 (.below (e ++ slashed slash es) fs) = .below (slashed slash es) (fs ++ [e]) := by
  have ⟨htake, hdrop⟩ := takeWhile_elem es he
  have hq : (if (rooted slash fs).reverse.length ≠ 1 then slash :: (rooted slash fs).reverse
      else (rooted slash fs).reverse) = slash :: (slashed slash fs).reverse := by
    rw [List.length_reverse]
    by_cases hnil : fs = []
    case pos =>
      subst hnil
      rfl
    case neg =>
      have hlt := (one_lt_rooted hfs).mpr hnil
      rw [if_pos (by omega), rooted_of_ne hnil]
  have hrev : (rooted slash (fs ++ [e])).reverse = e.reverse ++ slash :: (slashed slash fs).reverse := by
    rw [rooted_concat, List.reverse_append, List.reverse_cons, List.append_assoc, List.singleton_append]
  rw [Clean.below, Clean.below, Clean.realelem, hq, htake, hdrop, hrev]

theorem rooted_ne_nil : (rooted slash es).reverse ≠ [] := by
  rw [Ne, List.reverse_eq_nil_iff, rooted]
  split
  case isTrue => exact List.cons_ne_nil slash []
  case isFalse h =>
    obtain ⟨e, es, rfl⟩ := List.exists_cons_of_ne_nil h
    rw [slashed_cons]
    exact List.cons_ne_nil slash _

theorem dotdotelem_below (hfs : ∀ f ∈ fs, Plain slash dot f) (p : List UInt8) :
    Clean.dotdotelem 1 (.below (dot :: dot :: p) fs) = .below p fs.dropLast := by
  by_cases hnil : fs = []
  case pos =>
    subst hnil
    rfl
  case neg =>
    have hlt : 1 < (rooted slash fs).reverse.length := by
      rw [List.length_reverse]
      exact (one_lt_rooted hfs).mpr hnil
    simp only [Clean.dotdotelem, Clean.below, if_pos hlt, backtrack_rooted hnil hfs]
    exact congrArg (Clean.mk _ _ _) (decide_eq_false rooted_ne_nil)

-- The name is not back at its start, because the separator of the root comes before.
theorem round_elem (hfs : ∀ f ∈ fs, Plain slash dot f) (he : Elem e) (hne : e ≠ [])
    (hlen : (e ++ slashed slash es).length ≠ name.length) :
    Clean.round name 1 (.below (e ++ slashed slash es) fs) = .below (slashed slash es) (visit dot fs e) := by
  have hvisit (hself : e ≠ [dot]) (hparent : e ≠ [dot, dot]) : visit dot fs e = fs ++ [e] :=
    visit_plain ⟨hne, he.slash, hself, hparent⟩
  obtain ⟨c, e, rfl⟩ := List.exists_cons_of_ne_nil hne
  have hc : (Clean.below (c :: e ++ slashed slash es) fs).byte 0 ≠ slash := fun h => he.slash (h ▸ List.mem_cons_self)
  rw [Clean.round, if_neg hc]
  cases e
  case nil =>
    by_cases hdot : c = dot
    case pos =>
      subst hdot
      have hvisit : visit dot fs [dot] = fs := if_pos (.inr rfl)
      have hbyte : (Clean.below ([dot] ++ slashed slash es) fs).byte 0 = dot ∧
        SEP ((Clean.below ([dot] ++ slashed slash es) fs).byte 1) := ⟨rfl, sep_slashed⟩
      rw [if_pos hbyte, hvisit]
      exact congrArg (Clean.mk _ _ _) (decide_eq_false hlen)
    case neg =>
      have hself : [c] ≠ [dot] := fun h => hdot (List.cons.inj h).left
      rw [if_neg fun h => hdot h.left, if_neg fun h => hdot h.left, hvisit hself nofun]
      exact realelem_below hfs he.slash
  case cons d e =>
    have hd : ¬SEP d := not_sep he (List.mem_cons_of_mem c List.mem_cons_self)
    rw [if_neg fun h => hd h.right]
    by_cases hdots : c = dot ∧ d = dot ∧ e = []
    case pos =>
      obtain ⟨rfl, rfl, rfl⟩ := hdots
      have hbyte : (Clean.below ([dot, dot] ++ slashed slash es) fs).byte 0 = dot ∧
          (Clean.below ([dot, dot] ++ slashed slash es) fs).byte 1 = dot ∧
          SEP ((Clean.below ([dot, dot] ++ slashed slash es) fs).byte 2) := ⟨rfl, rfl, sep_slashed⟩
      rw [if_pos hbyte, visit_parent]
      exact dotdotelem_below hfs _
    case neg =>
      have hparent : c :: d :: e ≠ [dot, dot] := by
        intro h
        injection h with hc h
        injection h with hd he
        exact hdots ⟨hc, hd, he⟩
      have hbyte : ¬((Clean.below (c :: d :: e ++ slashed slash es) fs).byte 0 = dot ∧
          (Clean.below (c :: d :: e ++ slashed slash es) fs).byte 1 = dot ∧
          SEP ((Clean.below (c :: d :: e ++ slashed slash es) fs).byte 2)) := by
        intro h
        cases e
        case nil => exact hdots ⟨h.left, h.right.left, rfl⟩
        case cons g e =>
          have hg : g ∈ c :: d :: g :: e := by simp
          exact not_sep he hg h.right.right
      rw [if_neg hbyte, hvisit nofun hparent]
      exact realelem_below hfs he.slash

-- What the elements still to be read do is what they do one after another.
theorem rounds_below (hes : ∀ e ∈ es, Elem e) (hfs : ∀ f ∈ fs, Plain slash dot f) (hn : (slashed slash es).length ≤ n)
    (hlen : (slashed slash es).length ≤ name.length) :
    Clean.rounds name 1 n (.below (slashed slash es) fs) = .below [] (es.foldl (visit dot) fs) := by
  induction es generalizing fs n
  case nil =>
    cases n
    case zero => rfl
    case succ => exact if_pos rfl
  case cons e es ih =>
    obtain ⟨he, hrest⟩ := List.forall_mem_cons.mp hes
    rw [slashed_cons, List.cons_append, List.length_cons, List.length_append] at hn hlen
    obtain ⟨n, rfl⟩ : ∃ k, n = k + 1 := ⟨n - 1, by omega⟩
    have hcons : (Clean.below (slash :: (e ++ slashed slash es)) fs).p ≠ [] := List.cons_ne_nil slash _
    rw [slashed_cons, List.cons_append, Clean.rounds, if_neg hcons, round_slash, List.foldl_cons]
    by_cases hnil : e = []
    case pos =>
      subst hnil
      exact ih hrest hfs (by omega) (by omega)
    case neg =>
      have hpos := List.length_pos_iff.mpr hnil
      obtain ⟨n, rfl⟩ : ∃ k, n = k + 1 := ⟨n - 1, by omega⟩
      have hne : (Clean.below (e ++ slashed slash es) fs).p ≠ [] := by
        rw [Clean.below, Ne, List.append_eq_nil_iff]
        exact fun h => hnil h.left
      have hshort : (e ++ slashed slash es).length ≠ name.length := by
        rw [List.length_append]
        omega
      rw [Clean.rounds, if_neg hne, round_elem hfs he hnil hshort]
      exact ih hrest (plain_visit hfs he.slash) (by omega) (by omega)

theorem cleanname_slashed (hne : es ≠ []) (hes : ∀ e ∈ es, Elem e) :
    cleanname (slashed slash es) = rooted slash (clean dot es) := by
  obtain ⟨e, es, rfl⟩ := List.exists_cons_of_ne_nil hne
  -- one round more, from the separator that the root is
  have hbelow : Clean.rounds (slashed slash (e :: es)) 1 ((slashed slash (e :: es)).length + 1)
      (.below (slashed slash (e :: es)) []) = .below [] ((e :: es).foldl (visit dot) []) :=
    rounds_below hes nofun (Nat.le_succ _) (Nat.le_refl _)
  have hcons : (Clean.below (slash :: (e ++ slashed slash es)) []).p ≠ [] := List.cons_ne_nil slash _
  rw [slashed_cons, List.cons_append, Clean.rounds, if_neg hcons, round_slash] at hbelow
  have hstart : Clean.mk ((slash :: (e ++ slashed slash es)).drop 1) ((slash :: (e ++ slashed slash es)).take 1) 1 false =
      .below (e ++ slashed slash es) [] := rfl
  have hhead : (if (slash :: (e ++ slashed slash es)).head? = some slash then 1 else 0) = 1 := if_pos rfl
  rw [slashed_cons, List.cons_append, cleanname, hhead, hstart, hbelow]
  simp only [Clean.below, if_neg rooted_ne_nil, List.reverse_reverse, Bool.false_eq_true, false_and, if_false]
  rfl

end

end Libc
