import Mathlib.Data.List.Perm.Basic
import Mathlib.Data.List.Nodup
import Mathlib.Data.List.Count
import Mathlib.Algebra.Order.Ring.Int

-- Records of what is acquired and what is released, with the last entry first.
inductive Entry (β : Type*)
  | acquire (b : β)
  | release (b : β)
deriving DecidableEq

variable {β : Type*} [DecidableEq β]

-- What has been acquired and has not been released since. There is no such list if something is acquired twice, or is
-- released when it is not there.
def owned : List (Entry β) → Option (List β)
  | []              => some []
  | .acquire b :: t => (owned t).bind fun o => if b ∈ o then none else some (b :: o)
  | .release b :: t => (owned t).bind fun o => if b ∈ o then some (o.erase b) else none

def Owns (t : List (Entry β)) (o : List β) : Prop :=
  ∃ o', owned t = some o' ∧ o'.Perm o

namespace Owns

variable {t : List (Entry β)} {o o' : List β} {b : β}

theorem nil : Owns ([] : List (Entry β)) [] :=
  ⟨[], rfl, .nil⟩

theorem perm (h : Owns t o) (ho : o.Perm o') : Owns t o' :=
  have ⟨l, hl, hp⟩ := h
  ⟨l, hl, hp.trans ho⟩

theorem acquire (h : Owns t o) (hb : b ∉ o) : Owns (.acquire b :: t) (b :: o) := by
  obtain ⟨l, hl, hp⟩ := h
  exact ⟨b :: l, by simp [owned, hl, hp.mem_iff, hb], hp.cons b⟩

theorem release (h : Owns t (b :: o)) : Owns (.release b :: t) o := by
  obtain ⟨l, hl, hp⟩ := h
  have hp' := hp.erase b
  rw [List.erase_cons_head] at hp'
  exact ⟨l.erase b, by simp [owned, hl, hp.mem_iff], hp'⟩

theorem nodup (h : Owns t o) : o.Nodup := by
  obtain ⟨l, hl, hp⟩ := h
  rw [← hp.nodup_iff]
  clear hp
  induction t generalizing l with
  | nil => exact Option.some.inj hl ▸ List.nodup_nil
  | cons e t ih =>
    cases e with
    | acquire b =>
      obtain ⟨l', hl', hl⟩ := Option.bind_eq_some_iff.mp hl
      obtain ⟨hb, hl⟩ := Option.ite_none_left_eq_some.mp hl
      exact Option.some.inj hl ▸ (ih l' hl').cons hb
    | release b =>
      obtain ⟨l', hl', hl⟩ := Option.bind_eq_some_iff.mp hl
      obtain ⟨-, hl⟩ := Option.ite_none_right_eq_some.mp hl
      exact Option.some.inj hl ▸ (ih l' hl').erase b

-- It has been released as often as it has been acquired, other than where it is still there.
theorem count (h : Owns t o) : t.count (.acquire b) = t.count (.release b) + o.count b := by
  obtain ⟨l, hl, hp⟩ := h
  rw [← hp.count_eq]
  clear hp
  induction t generalizing l with
  | nil => simp [← Option.some.inj hl]
  | cons e t ih =>
    cases e with
    | acquire c =>
      obtain ⟨l', hl', hl⟩ := Option.bind_eq_some_iff.mp hl
      obtain ⟨-, hl⟩ := Option.ite_none_left_eq_some.mp hl
      obtain rfl := Option.some.inj hl
      have := ih l' hl'
      simp only [List.count_cons, beq_iff_eq, Entry.acquire.injEq, reduceCtorEq, if_false]
      omega
    | release c =>
      obtain ⟨l', hl', hl⟩ := Option.bind_eq_some_iff.mp hl
      obtain ⟨hc, hl⟩ := Option.ite_none_right_eq_some.mp hl
      obtain rfl := Option.some.inj hl
      have := ih l' hl'
      have hpos := List.count_pos_iff.mpr hc
      by_cases hbc : c = b
      · subst hbc
        simp only [List.count_cons, beq_iff_eq, reduceCtorEq, if_false, if_true, List.count_erase_self]
        omega
      · simp only [List.count_cons, beq_iff_eq, Entry.release.injEq, reduceCtorEq, if_false, hbc]
        rw [List.count_erase_of_ne (Ne.symm hbc)]
        omega

end Owns
