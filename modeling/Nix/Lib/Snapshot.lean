import Mathlib.Algebra.Order.Ring.Int

-- A store, the frozen version of it that is being saved, if any, and the version that was saved
-- last. A crash leaves no more than the latter.
structure Snapshot (σ : Type*) where
  now    : σ
  frozen : Option σ
  saved  : Option σ

namespace Snapshot

variable {a : Snapshot σ} {P : σ → Prop}

def update (a : Snapshot σ) (f : σ → σ) : Snapshot σ :=
  { a with now := f a.now }

@[simp]
theorem update_now (f : σ → σ) : (a.update f).now = f a.now := rfl

@[simp]
theorem update_frozen (f : σ → σ) : (a.update f).frozen = a.frozen := rfl

@[simp]
theorem update_saved (f : σ → σ) : (a.update f).saved = a.saved := rfl

def freeze (a : Snapshot σ) : Snapshot σ :=
  { a with frozen := some a.now }

def save (a : Snapshot σ) : Snapshot σ :=
  { a with frozen := none, saved := a.frozen }

def crash (a : Snapshot σ) : Snapshot σ :=
  { a with now := a.saved.getD a.now, frozen := none }

-- `P` holds of the versions that were frozen.
structure Past (P : σ → Prop) (a : Snapshot σ) : Prop where
  frozen : ∀ i ∈ a.frozen, P i
  saved  : ∀ i ∈ a.saved, P i

namespace Past

theorem update (h : a.Past P) (f : σ → σ) : (a.update f).Past P where
  frozen := h.frozen
  saved  := h.saved

theorem freeze (h : a.Past P) (hn : P a.now) : a.freeze.Past P where
  frozen := fun _ hi => Option.some.inj hi ▸ hn
  saved  := h.saved

theorem save (h : a.Past P) : a.save.Past P where
  frozen := nofun
  saved  := h.frozen

theorem crash (h : a.Past P) : a.crash.Past P where
  frozen := nofun
  saved  := h.saved

end Past

theorem Past.now_crash (h : a.Past P) (hs : a.saved = some i) : P a.crash.now := by
  rw [Snapshot.crash, hs]
  exact h.saved i hs

end Snapshot
