import Mathlib.Data.List.Basic
import Mathlib.Algebra.Order.Ring.Int

-- Names whose elements each follow a separator.
namespace Slashes

variable {α : Type*} (sep dot : α)

def slashed (es : List (List α)) : List α :=
  es.flatMap (sep :: ·)

-- What stands for an element of its own. The others are nothing, the directory itself, or the one above it.
structure Plain (e : List α) : Prop where
  nonempty : e ≠ []
  sep      : sep ∉ e
  self     : e ≠ [dot]
  parent   : e ≠ [dot, dot]

-- The name with these elements below a root, which is a separator itself.
def rooted (es : List (List α)) : List α :=
  if es = [] then [sep] else slashed sep es

section

variable [DecidableEq α]

-- What is left of the elements before `e` once that is gone through.
def visit (es : List (List α)) (e : List α) : List (List α) :=
  if e = [] ∨ e = [dot] then es
  else if e = [dot, dot] then es.dropLast
  else es ++ [e]

def clean (es : List (List α)) : List (List α) :=
  es.foldl (visit dot) []

end

variable {sep dot} {es : List (List α)} {e : List α}

theorem slashed_nil : slashed sep [] = [] :=
  rfl

theorem slashed_cons : slashed sep (e :: es) = sep :: e ++ slashed sep es := by
  rw [slashed, List.flatMap_cons, slashed]

theorem slashed_append (es fs : List (List α)) : slashed sep (es ++ fs) = slashed sep es ++ slashed sep fs :=
  List.flatMap_append

theorem slashed_concat : slashed sep (es ++ [e]) = slashed sep es ++ sep :: e := by
  rw [slashed_append, slashed_cons, slashed_nil, List.append_nil]

theorem rooted_nil : rooted sep [] = [sep] :=
  rfl

theorem rooted_of_ne (h : es ≠ []) : rooted sep es = slashed sep es :=
  if_neg h

theorem rooted_concat : rooted sep (es ++ [e]) = slashed sep es ++ sep :: e := by
  rw [rooted_of_ne (List.concat_ne_nil e es), slashed_concat]

variable [DecidableEq α]

theorem visit_plain (h : Plain sep dot e) : visit dot es e = es ++ [e] := by
  rw [visit, if_neg (not_or.mpr ⟨h.nonempty, h.self⟩), if_neg h.parent]

theorem visit_parent : visit dot es [dot, dot] = es.dropLast := by
  simp [visit]

theorem foldl_visit (fs : List (List α)) (h : ∀ e ∈ es, Plain sep dot e) :
    es.foldl (visit dot) fs = fs ++ es := by
  induction es generalizing fs
  case nil => exact (List.append_nil fs).symm
  case cons e es ih =>
    obtain ⟨he, hes⟩ := List.forall_mem_cons.mp h
    rw [List.foldl_cons, visit_plain he, ih _ hes, List.append_assoc, List.singleton_append]

theorem plain_visit {fs : List (List α)} (hfs : ∀ e ∈ fs, Plain sep dot e) (he : sep ∉ e) :
    ∀ f ∈ visit dot fs e, Plain sep dot f := by
  intro f hf
  rw [visit] at hf
  split at hf
  case isTrue => exact hfs f hf
  case isFalse hself =>
    rw [not_or] at hself
    split at hf
    case isTrue => exact hfs f (List.dropLast_subset fs hf)
    case isFalse hparent =>
      rcases List.mem_append.mp hf with hf | hf
      · exact hfs f hf
      · rw [List.mem_singleton.mp hf]
        exact ⟨hself.left, he, hself.right, hparent⟩

end Slashes
