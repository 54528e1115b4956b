import Nix.K10.Physalloc
import Nix.Lib.Stacks

namespace K10

-- The place in `blocks` that a link tells.
def Sys.node (sys : Sys) (i : Nat) : Option Nat :=
  if i = 0 then none else some (sys.block i)

namespace Sys

variable (sys : Sys)

theorem index_pos : 0 < index sys.pmstart := by
  have hle : 2 ^ 22 ≤ sys.pmstart := Nat.le_of_dvd sys.pos sys.mult
  exact Nat.div_pos (Nat.le_trans (Nat.pow_le_pow_right (by decide) (by decide)) hle) (Nat.two_pow_pos _)

theorem node_add (r : Nat) : sys.node (r + index sys.pmstart) = some r := by
  have := sys.index_pos
  rw [Sys.node, if_neg (by omega), block, Nat.add_sub_cancel]

theorem node_zero : sys.node 0 = none :=
  if_pos rfl

end Sys

namespace State

variable (sys : Sys) (s : State)

def head (k : Nat) : Option Nat :=
  sys.node (s.avail k)

def succ (r : Nat) : Option Nat :=
  sys.node (s.blocks r).next

-- The list that a block is on.
def place (r : Nat) : Option Nat :=
  if (s.blocks r).tag = .avail then some (s.blocks r).kval else none

variable {sys : Sys} {s : State}

theorem place_eq_some : s.place r = some k ↔ (s.blocks r).tag = .avail ∧ (s.blocks r).kval = k := by
  rw [place]
  split <;> simp [*]

theorem blocks_upd (r : Nat) (f : Buddy → Buddy) (r' : Nat) :
    (s.upd r f).blocks r' = if r' = r then f (s.blocks r) else s.blocks r' := by
  by_cases h : r' = r
  case pos => simp [upd, h]
  case neg => simp [upd, h]

-- What the lists depend on is left as it is.
structure Same (s s' : State) : Prop where
  avail : s'.avail = s.avail
  block : ∀ r, (s'.blocks r).tag = (s.blocks r).tag ∧ (s'.blocks r).kval = (s.blocks r).kval ∧
    (s'.blocks r).next = (s.blocks r).next

theorem Same.upd (hf : ∀ b, (f b).tag = b.tag ∧ (f b).kval = b.kval ∧ (f b).next = b.next) : Same s (s.upd r f) where
  avail    := rfl
  block r' := by
    rw [blocks_upd]
    split
    case isTrue h => exact h ▸ hf _
    case isFalse => exact ⟨rfl, rfl, rfl⟩

variable (sys) in
theorem Same.eq {s' : State} (h : Same s s') : s'.head sys = s.head sys ∧ s'.succ sys = s.succ sys ∧ s'.place = s.place :=
  ⟨funext fun _ => by rw [head, head, h.avail], funext fun r => by rw [succ, succ, (h.block r).right.right],
    funext fun r => by rw [place, place, (h.block r).left, (h.block r).right.left]⟩

theorem upd_lists {L : Nat → List Nat} (h : Stacks (s.head sys) (s.succ sys) s.place L) (hr : s.place r = none)
    (hf : ∀ b, (f b).tag = b.tag ∧ (f b).next = b.next) :
    Stacks ((s.upd r f).head sys) ((s.upd r f).succ sys) (s.upd r f).place L := by
  have hhead : (s.upd r f).head sys = s.head sys := rfl
  have hsucc : (s.upd r f).succ sys = s.succ sys := by
    funext r'
    rw [succ, blocks_upd]
    split
    case isTrue h => rw [(hf _).right, ← h, succ]
    case isFalse => rfl
  have hplace : (s.upd r f).place = s.place := by
    funext r'
    rw [place, blocks_upd]
    split
    case isTrue h =>
      have htag : (s.blocks r).tag ≠ .avail := fun htag => by simp [place, htag] at hr
      rw [(hf _).left, if_neg htag, h, hr]
    case isFalse => rfl
  rwa [hhead, hsucc, hplace]

-- A list gets a new head.
structure Linked (sys : Sys) (l k : Nat) (s s' : State) : Prop where
  avail : s'.avail = Function.update s.avail k (l + index sys.pmstart)
  self  : (s'.blocks l).tag = .avail ∧ (s'.blocks l).kval = k ∧ (s'.blocks l).next = s.avail k
  other : ∀ r ≠ l, (s'.blocks r).tag = (s.blocks r).tag ∧ (s'.blocks r).kval = (s.blocks r).kval ∧
    (s'.blocks r).next = (s.blocks r).next

variable (sys s) in
theorem linked (l k : Nat) : Linked sys l k s (s.link sys l k) := by
  let f (b : Buddy) : Buddy := { b with tag := .avail, kval := k, next := s.avail k, prev := 0 }
  have hsame : Same (s.upd l f) { s.link sys l k with avail := s.avail } := by
    rw [link]
    dsimp only
    split
    case isTrue =>
      have h := Same.upd (s := s.upd l f) (r := sys.block ((s.upd l f).blocks l).next)
        (f := fun b => { b with prev := l + index sys.pmstart }) fun _ => ⟨rfl, rfl, rfl⟩
      exact ⟨rfl, h.block⟩
    case isFalse => exact ⟨rfl, fun _ => ⟨rfl, rfl, rfl⟩⟩
  refine ⟨?_, ?_, fun r hr => ?_⟩
  · rw [link]
    dsimp only
    split <;> rfl
  · have := hsame.block l
    rwa [blocks_upd, if_pos rfl] at this
  · have := hsame.block r
    rwa [blocks_upd, if_neg hr] at this

theorem link_eq (l k : Nat) :
    s.link sys l k = { s with blocks := (s.link sys l k).blocks, avail := (s.link sys l k).avail } := by
  rw [link]
  dsimp only
  split <;> rfl

variable (sys s) in
theorem link_rest (l k : Nat) : (s.link sys l k).added = s.added ∧ (s.link sys l k).live = s.live ∧
    (s.link sys l k).plops = s.plops ∧ (s.link sys l k).nfree = s.nfree := by
  rw [link_eq]
  exact ⟨rfl, rfl, rfl, rfl⟩

theorem Linked.eq {s' : State} (h : Linked sys l k s s') :
    s'.head sys = Function.update (s.head sys) k (some l) ∧ s'.succ sys = Function.update (s.succ sys) l (s.head sys k) ∧
      s'.place = Function.update s.place l (some k) := by
  refine ⟨funext fun j => ?_, funext fun r => ?_, funext fun r => ?_⟩
  · rw [head, h.avail]
    by_cases hj : j = k
    · rw [hj, Function.update_self, Function.update_self, sys.node_add]
    · rw [Function.update_of_ne hj, Function.update_of_ne hj, head]
  · by_cases hr : r = l
    · rw [hr, Function.update_self, succ, h.self.right.right, head]
    · rw [Function.update_of_ne hr, succ, (h.other r hr).right.right, succ]
  · by_cases hr : r = l
    · rw [hr, Function.update_self, place_eq_some]
      exact ⟨h.self.left, h.self.right.left⟩
    · rw [Function.update_of_ne hr, place, (h.other r hr).left, (h.other r hr).right.left, place]

variable (sys s) in
theorem unlinknext_block (p r : Nat) :
    ((s.unlinknext sys p).blocks r).tag = (s.blocks r).tag ∧ ((s.unlinknext sys p).blocks r).kval = (s.blocks r).kval ∧
      ((s.unlinknext sys p).blocks r).next = if r = p then 0 else (s.blocks r).next := by
  rw [unlinknext]
  split
  case isTrue =>
    have h := (Same.upd (s := s) (r := sys.block (s.blocks p).next) (f := fun b => { b with prev := (s.blocks p).prev })
      fun _ => ⟨rfl, rfl, rfl⟩).block
    rw [blocks_upd]
    split
    case isTrue hr => exact ⟨hr ▸ (h p).left, hr ▸ (h p).right.left, rfl⟩
    case isFalse => exact h r
  case isFalse hn =>
    refine ⟨rfl, rfl, ?_⟩
    split
    case isTrue hr => rw [hr, not_not.mp hn]
    case isFalse => rfl

variable (sys s) in
theorem unlinkprev_block (p r : Nat) :
    ((s.unlinkprev sys p).blocks r).tag = (s.blocks r).tag ∧ ((s.unlinkprev sys p).blocks r).kval = (s.blocks r).kval ∧
      ((s.unlinkprev sys p).blocks r).next =
        if (s.blocks p).prev ≠ 0 ∧ r = sys.block (s.blocks p).prev then (s.blocks p).next else (s.blocks r).next := by
  rw [unlinkprev]
  split
  case isTrue hp =>
    have h := (Same.upd (s := s.upd (sys.block (s.blocks p).prev) fun q => { q with next := (s.blocks p).next }) (r := p)
      (f := fun b => { b with prev := 0 }) fun _ => ⟨rfl, rfl, rfl⟩).block r
    rw [h.left, h.right.left, h.right.right, blocks_upd]
    by_cases hr : r = sys.block (s.blocks p).prev
    case pos => rw [if_pos hr, if_pos ⟨hp, hr⟩, hr]; exact ⟨rfl, rfl, rfl⟩
    case neg => rw [if_neg hr, if_neg fun h => hr h.right]; exact ⟨rfl, rfl, rfl⟩
  case isFalse hp => rw [if_neg fun h => hp h.left]; exact ⟨rfl, rfl, rfl⟩

variable (sys s) in
theorem unlink_block (p r : Nat) :
    ((s.unlink sys p).blocks r).tag = (if r = p then .used else (s.blocks r).tag) ∧
    ((s.unlink sys p).blocks r).kval = (s.blocks r).kval ∧
    ((s.unlink sys p).blocks r).next = if r = p then 0 else
      if (s.blocks p).prev ≠ 0 ∧ r = sys.block (s.blocks p).prev then (s.blocks p).next else (s.blocks r).next := by
  have hnext := unlinknext_block sys (s.unlinkprev sys p) p r
  have hprev := unlinkprev_block sys s p r
  rw [hprev.left, hprev.right.left, hprev.right.right] at hnext
  rw [unlink, blocks_upd]
  split
  case isTrue hr =>
    subst hr
    rw [if_pos rfl] at hnext
    exact ⟨rfl, hnext.right⟩
  case isFalse hr =>
    rw [if_neg hr] at hnext
    exact hnext

theorem unlink_eq (p : Nat) :
    s.unlink sys p = { s with blocks := (s.unlink sys p).blocks, avail := (s.unlink sys p).avail } := by
  rw [unlink, unlinknext, unlinkprev]
  split <;> split <;> rfl

variable (sys s) in
theorem unlink_rest (p : Nat) : (s.unlink sys p).added = s.added ∧ (s.unlink sys p).live = s.live ∧
    (s.unlink sys p).plops = s.plops ∧ (s.unlink sys p).nfree = s.nfree := by
  rw [unlink_eq]
  exact ⟨rfl, rfl, rfl, rfl⟩

theorem unlink_avail (p : Nat) : (s.unlink sys p).avail =
    if (s.blocks p).prev ≠ 0 then s.avail else Function.update s.avail (s.blocks p).kval 0 := by
  have hnext (s : State) : (s.unlinknext sys p).avail = s.avail := by rw [unlinknext]; split <;> rfl
  refine (hnext _).trans ?_
  rw [unlinkprev]
  split <;> rfl

-- That the removal of a block that is to be merged leaves the list without the block, and nothing else.
def Unlinks (sys : Sys) (s : State) (p : Nat) : Prop :=
  if (s.blocks p).prev = 0 then s.avail (s.blocks p).kval = p + index sys.pmstart ∧ (s.blocks p).next = 0
  else
    let q := s.blocks (sys.block (s.blocks p).prev)
    q.tag = .avail ∧ q.kval = (s.blocks p).kval ∧ q.next = p + index sys.pmstart

theorem unlink_place (p : Nat) : (s.unlink sys p).place = Function.update s.place p none := by
  funext r
  have h := unlink_block sys s p r
  rw [place, h.left, h.right.left]
  by_cases hr : r = p
  case pos => rw [if_pos hr, hr, Function.update_self]; rfl
  case neg => rw [if_neg hr, Function.update_of_ne hr, place]

theorem unlink_lists {L : Nat → List Nat} (h : Stacks (s.head sys) (s.succ sys) s.place L) (hp : s.place p = some k)
    (hu : Unlinks sys s p) : Stacks ((s.unlink sys p).head sys) ((s.unlink sys p).succ sys) (s.unlink sys p).place
      (Function.update L k ((L k).erase p)) := by
  have hk := (place_eq_some.mp hp).right
  have hblock := unlink_block sys s p
  rw [unlink_place]
  rw [Unlinks] at hu
  split at hu
  case isTrue hprev =>
    have hhead : s.head sys k = some p := by rw [head, ← hk, hu.left, sys.node_add]
    have hnil : s.succ sys p = none := by rw [succ, hu.right, sys.node_zero]
    have := h.pop hhead
    rw [hnil] at this
    convert this using 1
    · funext j
      rw [head, unlink_avail, if_neg (not_not.mpr hprev), hk]
      by_cases hj : j = k
      case pos => rw [hj, Function.update_self, Function.update_self, sys.node_zero]
      case neg => rw [Function.update_of_ne hj, Function.update_of_ne hj, head]
    · funext r
      rw [succ, (hblock r).right.right]
      by_cases hr : r = p
      case pos => rw [if_pos hr, hr, Function.update_self, sys.node_zero]
      case neg => rw [if_neg hr, if_neg fun h => h.left hprev, Function.update_of_ne hr, succ]
  case isFalse hprev =>
    have hplace : s.place (sys.block (s.blocks p).prev) = some k := place_eq_some.mpr ⟨hu.left, hk ▸ hu.right.left⟩
    have hnext : s.succ sys (sys.block (s.blocks p).prev) = some p := by rw [succ, hu.right.right, sys.node_add]
    have := h.unlink hplace hnext
    convert this using 1
    · funext j
      rw [head, unlink_avail, if_pos hprev, head]
    · funext r
      rw [succ, (hblock r).right.right]
      by_cases hr : r = p
      case pos => rw [if_pos hr, hr, Function.update_self, sys.node_zero]
      case neg =>
        rw [if_neg hr, Function.update_of_ne hr]
        by_cases hq : r = sys.block (s.blocks p).prev
        case pos => rw [if_pos ⟨hprev, hq⟩, hq, Function.update_self, succ]
        case neg => rw [if_neg fun h => hq h.right, Function.update_of_ne hq, succ]

variable (sys s) in
theorem take_block (j k r : Nat) : ((s.take sys j k).blocks r).tag =
      (if r = sys.block (s.avail j) then .used else (s.blocks r).tag) ∧
    ((s.take sys j k).blocks r).kval = (if r = sys.block (s.avail j) then k else (s.blocks r).kval) ∧
    ((s.take sys j k).blocks r).next = if r = sys.block (s.avail j) then 0 else (s.blocks r).next := by
  rw [take]
  dsimp only
  rw [blocks_upd]
  split
  case isTrue => exact ⟨rfl, rfl, rfl⟩
  case isFalse hr => exact (Same.upd (f := fun b => { b with prev := 0 }) fun _ => ⟨rfl, rfl, rfl⟩).block r

theorem take_place (j k : Nat) : (s.take sys j k).place = Function.update s.place (sys.block (s.avail j)) none := by
  funext r
  have h := take_block sys s j k r
  rw [place, h.left, h.right.left]
  by_cases hr : r = sys.block (s.avail j)
  case pos => rw [if_pos hr, hr, Function.update_self]; rfl
  case neg => rw [if_neg hr, if_neg hr, Function.update_of_ne hr, place]

theorem take_lists {L : Nat → List Nat} (h : Stacks (s.head sys) (s.succ sys) s.place L) (hj : s.avail j ≠ 0) :
    Stacks ((s.take sys j k).head sys) ((s.take sys j k).succ sys) (s.take sys j k).place
      (Function.update L j ((L j).erase (sys.block (s.avail j)))) := by
  have hhead : s.head sys j = some (sys.block (s.avail j)) := if_neg hj
  have hblock := take_block sys s j k
  rw [take_place]
  convert h.pop hhead using 1
  · funext j'
    rw [head]
    change sys.node (Function.update s.avail j _ j') = _
    by_cases hj' : j' = j
    case pos => rw [hj', Function.update_self, Function.update_self, succ]
    case neg => rw [Function.update_of_ne hj', Function.update_of_ne hj', head]
  · funext r
    rw [succ, (hblock r).right.right]
    by_cases hr : r = sys.block (s.avail j)
    case pos => rw [if_pos hr, hr, Function.update_self, sys.node_zero]
    case neg => rw [if_neg hr, Function.update_of_ne hr, succ]

theorem link_lists {L : Nat → List Nat} (h : Stacks (s.head sys) (s.succ sys) s.place L) (hl : s.place l = none) :
    Stacks ((s.link sys l k).head sys) ((s.link sys l k).succ sys) (s.link sys l k).place
      (Function.update L k (l :: L k)) := by
  obtain ⟨hhead, hsucc, hplace⟩ := (linked sys s l k).eq
  rw [hhead, hsucc, hplace]
  exact h.push hl

end State

end K10
