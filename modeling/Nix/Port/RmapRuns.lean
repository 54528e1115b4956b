import Mathlib.Data.List.TakeWhile
import Nix.Port.Rmap

namespace Port.Rmap

open Span

variable {rmap rmap' : RMap} {es es' xs ys z : List Map} {mp x y e : Map} {addr : BitVec 64} {size align : BitVec 32}

theorem uintptr_toNat (n : BitVec 32) : (uintptr n).toNat = n.toNat :=
  BitVec.toNat_setWidth_of_le (by decide)

theorem ulong_toNat {a : BitVec 64} (h : a.toNat < 2 ^ 32) : (ulong a).toNat = a.toNat := by
  rw [ulong, BitVec.toNat_setWidth, Nat.mod_eq_of_lt h]

theorem uintptr_ulong {a : BitVec 64} (h : a.toNat < 2 ^ 32) : uintptr (ulong a) = a :=
  BitVec.eq_of_toNat_eq <| (uintptr_toNat _).trans (ulong_toNat h)

theorem size_ne_zero : mp.size ≠ 0 ↔ 0 < (span mp).size := by
  rw [Nat.pos_iff_ne_zero, ne_eq, ne_eq, not_iff_not, ← BitVec.toNat_inj]
  rfl

-- The end of the entries.
structure Ends (z : List Map) : Prop where
  ne_nil : z ≠ []
  zero   : ∀ mp ∈ z, mp.size = 0

-- The entries, and the rest of the map.
structure Holds (rmap : RMap) (es z : List Map) : Prop where
  eq   : rmap = es ++ z
  ends : Ends z
  laid : Laid (es.map span)

theorem takeWhile_append {p : Map → Bool} (hxs : ∀ x ∈ xs, p x = true) (hys : ∀ y ∈ ys.head?, p y = false) :
    (xs ++ ys).takeWhile p = xs ∧ (xs ++ ys).dropWhile p = ys := by
  rw [List.takeWhile_append_of_pos hxs, List.dropWhile_append_of_pos hxs]
  cases ys
  case nil      => exact ⟨List.append_nil xs, rfl⟩
  case cons y _ => simp [hys y rfl]

namespace Holds

theorem entries_eq (h : Holds rmap es z) : entries rmap = es.map span := by
  obtain ⟨w, z, rfl⟩ := List.exists_cons_of_ne_nil h.ends.ne_nil
  have hw := h.ends.zero w List.mem_cons_self
  rw [entries, h.eq, (takeWhile_append (p := used) (fun e he => ?_) fun y hy => ?_).left]
  · exact decide_eq_true <| size_ne_zero.mpr <| h.laid.pos _ <| List.mem_map_of_mem he
  · obtain rfl := Option.some.inj hy
    simp [used, hw]

theorem length_eq (h : Holds rmap es z) : rmap.length = (entries rmap).length + z.length := by
  rw [h.entries_eq, h.eq, List.length_append, List.length_map]

end Holds

theorem moveup_eq (hys : ∀ y ∈ ys, y.size ≠ 0 ∧ y.addr.toNat < 2 ^ 32) {w w' : Map} (hw : w.size = 0) :
    moveup addr size (ys ++ w :: w' :: z) = (⟨addr, size⟩ :: (ys ++ w' :: z), none) := by
  induction ys generalizing addr size
  case nil =>
    rw [List.nil_append, moveup, if_pos hw]
    rfl
  case cons y ys ih =>
    obtain ⟨⟨hsize, haddr⟩, hys⟩ := List.forall_mem_cons.mp hys
    obtain ⟨v, vs, hv⟩ : ∃ v vs, ys ++ w :: w' :: z = v :: vs := by
      cases ys
      case nil       => exact ⟨_, _, rfl⟩
      case cons y ys => exact ⟨_, _, rfl⟩
    have hmove := @ih y.addr y.size hys
    rw [List.cons_append, hv] at *
    rw [moveup, if_neg hsize, uintptr_ulong haddr, hmove]
    rfl

theorem movedown_eq (hys : ∀ y ∈ ys, y.size ≠ 0) {w : Map} (hw : w.size = 0) (hy : y.size ≠ 0) :
    movedown (y :: (ys ++ w :: z)) = ys ++ w :: w :: z := by
  induction ys generalizing y
  case nil =>
    rw [List.nil_append, movedown, if_neg hy]
    cases z
    case nil    => rfl
    case cons v => rw [movedown, if_pos hw]; rfl
  case cons x ys ih =>
    obtain ⟨hx, hys⟩ := List.forall_mem_cons.mp hys
    rw [List.cons_append, movedown, if_neg hy, ih hys hx]
    rfl

theorem movedown_ends (h : Ends z) : movedown z = z := by
  obtain ⟨w, z, rfl⟩ := List.exists_cons_of_ne_nil h.ne_nil
  cases z
  case nil    => rfl
  case cons v => rw [movedown, if_pos (h.zero w List.mem_cons_self)]

theorem Holds.split (h : Holds rmap es z) (addr : BitVec 64) : ∃ xs ys, es = xs ++ ys ∧
    rmap.takeWhile (fun mp => mp.addr ≤ addr ∧ mp.size ≠ 0) = xs ∧
    rmap.dropWhile (fun mp => mp.addr ≤ addr ∧ mp.size ≠ 0) = ys ++ z ∧
    (∀ x ∈ xs, (span x).addr ≤ addr.toNat) ∧ ∀ y ∈ ys, addr.toNat < (span y).addr := by
  have hne (e : Map) (he : e ∈ es) : e.size ≠ 0 := size_ne_zero.mpr <| h.laid.pos _ <| List.mem_map_of_mem he
  refine ⟨es.takeWhile (·.addr ≤ addr), es.dropWhile (·.addr ≤ addr), List.takeWhile_append_dropWhile.symm, ?_⟩
  have hxs (x : Map) (hx : x ∈ es.takeWhile (·.addr ≤ addr)) : x.addr ≤ addr := by
    simpa using List.mem_takeWhile_imp hx
  have hys (y : Map) (hy : y ∈ es.dropWhile (·.addr ≤ addr)) : addr < y.addr := by
    obtain ⟨v, vs, hv⟩ := List.exists_cons_of_ne_nil (List.ne_nil_of_mem hy)
    have hhead : addr < v.addr := by
      have := List.head_dropWhile_not (fun e : Map => decide (e.addr ≤ addr)) (l := es) (by rw [hv]; simp)
      simpa [hv] using this
    have hlaid := h.laid
    rw [← List.takeWhile_append_dropWhile (p := fun e : Map => e.addr ≤ addr) (l := es), hv, List.map_append,
      List.map_cons] at hlaid
    obtain ⟨-, hlaid, -⟩ := laid_append.mp hlaid
    obtain ⟨-, hbefore, -⟩ := laid_cons.mp hlaid
    rw [hv] at hy
    rcases List.mem_cons.mp hy with rfl | hy
    · exact hhead
    · have hle := (hbefore _ (List.mem_map_of_mem hy)).top_le
      have : v.addr.toNat ≤ y.addr.toNat := (Nat.le_add_right _ _).trans hle
      exact lt_of_lt_of_le hhead this
  have hsplit := @takeWhile_append (es.takeWhile (·.addr ≤ addr)) (es.dropWhile (·.addr ≤ addr) ++ z)
    (fun mp => mp.addr ≤ addr ∧ mp.size ≠ 0)
    (fun x hx => decide_eq_true ⟨hxs x hx, hne x (List.takeWhile_subset _ hx)⟩) ?_
  · rw [← List.append_assoc, List.takeWhile_append_dropWhile, ← h.eq] at hsplit
    exact ⟨hsplit.left, hsplit.right, fun x hx => hxs x hx, fun y hy => hys y hy⟩
  · intro y hy
    cases hd : es.dropWhile (·.addr ≤ addr)
    case nil =>
      rw [hd, List.nil_append] at hy
      exact decide_eq_false fun hp => hp.right (h.ends.zero y (List.mem_of_mem_head? hy))
    case cons v vs =>
      rw [hd, List.cons_append] at hy
      obtain rfl := Option.some.inj hy
      exact decide_eq_false fun hp => BitVec.not_le.mpr (hys v (hd ▸ List.mem_cons_self)) hp.left

-- The range that is freed.
def range (addr : BitVec 64) (size : BitVec 32) : Span Unit :=
  ⟨addr.toNat, size.toNat, ()⟩

theorem add_toNat {a : BitVec 64} {n : BitVec 32} (h : a.toNat + n.toNat < 2 ^ 64) :
    (a + uintptr n).toNat = a.toNat + n.toNat := by
  rw [BitVec.toNat_add, uintptr_toNat, Nat.mod_eq_of_lt h]

theorem add_eq_iff {a b : BitVec 64} {n : BitVec 32} (h : a.toNat + n.toNat ≤ b.toNat) :
    a + uintptr n = b ↔ a.toNat + n.toNat = b.toNat := by
  rw [← BitVec.toNat_inj, add_toNat (h.trans_lt b.isLt)]

theorem before_of_lt {e f : Span Unit} (h : e.top < f.addr) : e.Before f :=
  .inl h

theorem span_add {a : BitVec 64} {m n : BitVec 32} (h : m.toNat + n.toNat < 2 ^ 32) :
    span ⟨a, m + n⟩ = ⟨a.toNat, m.toNat + n.toNat, ()⟩ := by
  rw [span, BitVec.toNat_add, Nat.mod_eq_of_lt h]

theorem Holds.insert (h : Holds rmap (xs ++ ys) z) (hsize : size ≠ 0)
    (hxs : ∀ x ∈ xs, (span x).top < addr.toNat) (hys : ∀ y ∈ ys, (range addr size).top ≤ (span y).addr)
    (hroom : Touches (range addr size) ((xs ++ ys).map span) ∨ 2 ≤ z.length)
    (hsmall : Small (range addr size) ((xs ++ ys).map span)) :
    ∃ es' z', insert addr size xs (ys ++ z) = (es' ++ z', none) ∧ Ends z' ∧
      Added (range addr size) ((xs ++ ys).map span) (es'.map span) := by
  have hlaid := h.laid
  have hne (e : Map) (he : e ∈ xs ++ ys) : e.size ≠ 0 := size_ne_zero.mpr <| hlaid.pos _ <| List.mem_map_of_mem he
  have hpos : 0 < (range addr size).size := (@size_ne_zero ⟨addr, size⟩).mp hsize
  have hbefore : ∀ x ∈ xs.map span, x.Before (range addr size) := by
    simpa using fun x hx => before_of_lt (f := range addr size) (hxs x hx)
  by_cases htouch : ∃ y ys', ys = y :: ys' ∧ (range addr size).top = (span y).addr
  case pos =>
    obtain ⟨y, ys, rfl, hy⟩ := htouch
    have hmem : span y ∈ (xs ++ y :: ys).map span := List.mem_map_of_mem (by simp)
    have hfit := hsmall.right.left _ hmem hy
    have hadd : addr + uintptr size = y.addr := (add_eq_iff hy.le).mpr hy
    have haddr : (y.addr - uintptr size).toNat = addr.toNat := by
      rw [← hadd, BitVec.add_sub_cancel]
    refine ⟨xs ++ ⟨y.addr - uintptr size, y.size + size⟩ :: ys, z, ?_, h.ends, ?_⟩
    · rw [List.cons_append, Rmap.insert]
      dsimp only
      rw [if_pos ⟨hadd, hne y (by simp)⟩, List.append_assoc]
      rfl
    · rw [List.map_append, List.map_cons] at hlaid
      rw [List.map_append, List.map_append, List.map_cons, List.map_cons, span_add ((add_comm _ _).trans_lt hfit), haddr]
      exact Added.right hlaid rfl hy hbefore
  case neg =>
    have hlt (y : Map) (hy : y ∈ ys) : (range addr size).top < (span y).addr := by
      obtain ⟨v, vs, rfl⟩ := List.exists_cons_of_ne_nil (List.ne_nil_of_mem hy)
      have hv : (range addr size).top < (span v).addr :=
        lt_of_le_of_ne (hys v List.mem_cons_self) fun hv => htouch ⟨v, vs, rfl, hv⟩
      rw [List.map_append, List.map_cons] at hlaid
      rcases List.mem_cons.mp hy with rfl | hy
      · exact hv
      · have hle := ((laid_cons.mp (laid_append.mp hlaid).right.left).right.left _ (List.mem_map_of_mem hy)).top_le
        exact hv.trans_le ((Nat.le_add_right _ _).trans hle)
    have hapart : ¬Touches (range addr size) ((xs ++ ys).map span) := by
      rintro ⟨e, he, htouch⟩
      obtain ⟨e, hmem, rfl⟩ := List.mem_map.mp he
      rcases List.mem_append.mp hmem with he | he
      · have hx := hxs e he
        rcases htouch with htouch | htouch
        · exact hx.ne htouch
        · unfold top range at *
          dsimp only at *
          omega
      · have hy := hlt e he
        rcases htouch with htouch | htouch
        · unfold top range at *
          dsimp only at *
          omega
        · exact hy.ne htouch
    obtain ⟨w, v, rfl⟩ := List.exists_cons_of_ne_nil h.ends.ne_nil
    obtain ⟨w', z, rfl⟩ : ∃ w' z', v = w' :: z' := by
      have := hroom.resolve_left hapart
      exact List.exists_cons_of_length_pos (by simpa [Nat.succ_le_iff] using this)
    have hw := h.ends.zero w List.mem_cons_self
    have hshort (y : Map) (hy : y ∈ ys) : y.size ≠ 0 ∧ y.addr.toNat < 2 ^ 32 := by
      have hmem : y ∈ xs ++ ys := List.mem_append_right _ hy
      refine ⟨hne y hmem, hsmall.right.right.right hapart _ (List.mem_map_of_mem hmem) ?_⟩
      exact (Nat.le_add_right _ _).trans_lt (hlt y hy)
    refine ⟨xs ++ ⟨addr, size⟩ :: ys, w' :: z, ?_, ⟨by simp, fun e he => h.ends.zero e (List.mem_cons_of_mem _ he)⟩, ?_⟩
    · have hmove := @moveup_eq ys z addr size hshort w w' hw
      cases ys
      case nil =>
        rw [List.nil_append] at hmove ⊢
        rw [Rmap.insert]
        dsimp only
        rw [if_neg fun h => h.right hw, hmove, List.append_assoc]
        rfl
      case cons y ys =>
        have hy := hlt y List.mem_cons_self
        rw [List.cons_append] at hmove ⊢
        rw [Rmap.insert]
        dsimp only
        rw [if_neg fun h => hy.ne ((add_eq_iff hy.le).mp h.left), hmove, List.append_assoc]
        rfl
    · rw [List.map_append, List.map_append, List.map_cons]
      refine Added.new hpos hbefore ?_
      simpa using fun y hy => before_of_lt (e := range addr size) (hlt y hy)

theorem Holds.rmapfree (h : Holds rmap es z) (hsize : size ≠ 0)
    (hapart : Apart (range addr size) (es.map span)) (hroom : Touches (range addr size) (es.map span) ∨ 2 ≤ z.length)
    (hsmall : Small (range addr size) (es.map span)) :
    ∃ es' z', rmapfree rmap addr size = (es' ++ z', none) ∧ Ends z' ∧
      Added (range addr size) (es.map span) (es'.map span) := by
  obtain ⟨xs, ys, rfl, htake, hdrop, hxs, hys⟩ := h.split addr
  have hpos : 0 < (range addr size).size := (@size_ne_zero ⟨addr, size⟩).mp hsize
  have hxtop (x : Map) (hx : x ∈ xs) : (span x).top ≤ addr.toNat := by
    have := hxs x hx
    have := hapart _ (List.mem_map_of_mem (List.mem_append_left ys hx))
    unfold top range at *
    dsimp only at *
    omega
  have hytop (y : Map) (hy : y ∈ ys) : (range addr size).top ≤ (span y).addr := by
    have := hys y hy
    have := hapart _ (List.mem_map_of_mem (List.mem_append_right xs hy))
    unfold top range at *
    dsimp only at *
    omega
  rw [Rmap.rmapfree, if_neg hsize, htake, hdrop]
  rcases List.eq_nil_or_concat xs with rfl | ⟨xs, p, rfl⟩
  · exact h.insert hsize (by simp) hytop hroom hsmall
  rw [List.concat_eq_append] at *
  have hp := hxtop p (by simp)
  dsimp only
  rw [List.getLast?_concat]
  dsimp only
  by_cases hleft : (span p).top = addr.toNat
  case neg =>
    rw [if_neg fun heq => hleft ((add_eq_iff hp).mp heq)]
    refine h.insert hsize (fun x hx => ?_) hytop hroom hsmall
    rcases List.mem_append.mp hx with hx | hx
    · have hlaid := h.laid
      rw [List.append_assoc, List.map_append] at hlaid
      have hxp := (laid_append.mp hlaid).right.right _ (List.mem_map_of_mem hx) (span p) (by simp)
      exact (hxp.top_le.trans (Nat.le_add_right _ _)).trans_lt (lt_of_le_of_ne hp hleft)
    · rw [List.mem_singleton.mp hx]
      exact lt_of_le_of_ne hp hleft
  case pos =>
    have hmem : span p ∈ (xs ++ [p] ++ ys).map span := List.mem_map_of_mem (by simp)
    have hfit := hsmall.left _ hmem hleft
    have hlaid := h.laid
    rw [if_pos ((add_eq_iff hp).mpr hleft), List.dropLast_concat]
    rw [List.append_assoc, List.singleton_append, List.map_append, List.map_cons] at hlaid ⊢
    cases ys
    case nil =>
      obtain ⟨w, z, rfl⟩ := List.exists_cons_of_ne_nil h.ends.ne_nil
      have hw := h.ends.zero w List.mem_cons_self
      have hadd := Added.left (e := range addr size) hlaid rfl hleft (by simp)
      refine ⟨xs ++ [⟨p.addr, p.size + size⟩], w :: z, ?_, h.ends, ?_⟩
      · rw [List.nil_append]
        dsimp only
        have hzero : p.size + size + 0 = p.size + size := BitVec.add_zero _
        rw [movedown_ends h.ends, hw, hzero, ite_self, List.append_assoc]
        rfl
      · rw [List.map_append, List.map_singleton, span_add hfit]
        exact hadd
    case cons y ys =>
      have hy := hytop y List.mem_cons_self
      rw [List.cons_append]
      dsimp only
      by_cases hright : (range addr size).top = (span y).addr
      case pos =>
        have hall := hsmall.right.right.left _ hmem hleft (span y) (List.mem_map_of_mem (by simp)) hright
        obtain ⟨w, z, rfl⟩ := List.exists_cons_of_ne_nil h.ends.ne_nil
        have hw := h.ends.zero w List.mem_cons_self
        have hne (e : Map) (he : e ∈ y :: ys) : e.size ≠ 0 :=
          size_ne_zero.mpr <| h.laid.pos _ <| List.mem_map_of_mem <| List.mem_append_right _ he
        refine ⟨xs ++ ⟨p.addr, p.size + size + y.size⟩ :: ys, w :: w :: z, ?_, ⟨by simp, ?_⟩, ?_⟩
        · rw [if_pos ((add_eq_iff hy).mpr hright),
            movedown_eq (fun v hv => hne v (List.mem_cons_of_mem _ hv)) hw (hne y List.mem_cons_self), List.append_assoc]
          rfl
        · exact List.forall_mem_cons.mpr ⟨hw, h.ends.zero⟩
        · have hsum : (p.size + size).toNat = p.size.toNat + size.toNat :=
            (BitVec.toNat_add _ _).trans (Nat.mod_eq_of_lt hfit)
          rw [List.map_append, List.map_cons, List.map_cons, span_add (by rw [hsum]; exact hall), hsum]
          exact Added.both hlaid rfl hleft rfl hright
      case neg =>
        rw [if_neg fun heq => hright ((add_eq_iff hy).mp heq)]
        refine ⟨xs ++ ⟨p.addr, p.size + size⟩ :: y :: ys, z, by rw [List.append_assoc]; rfl, h.ends, ?_⟩
        rw [List.map_append, List.map_cons, List.map_cons, span_add hfit]
        refine Added.left hlaid rfl hleft ?_
        have hlt : (range addr size).Before (span y) := before_of_lt (lt_of_le_of_ne hy hright)
        have hbefore := (laid_cons.mp (laid_cons.mp (laid_append.mp hlaid).right.left).right.right).right.left
        refine List.forall_mem_cons.mpr ⟨hlt, fun v hv => before_of_lt ?_⟩
        exact (lt_of_le_of_ne hy hright).trans_le ((Nat.le_add_right _ _).trans (hbefore v hv).top_le)

theorem padding_eq (h : (0#32).slt align = true) : padding align = align.toNat ∧ 0 < align.toNat := by
  have h0 : 0 < align.toInt := by simpa [BitVec.slt] using h
  rw [padding]
  rw [BitVec.toInt_eq_toNat_cond] at h0 ⊢
  split at h0 <;> omega

theorem padding_eq_zero (h : (0#32).slt align = false) : padding align = 0 := by
  have h0 : align.toInt ≤ 0 := by simpa [BitVec.slt] using h
  rw [padding]
  omega

theorem round_toNat (maddr : BitVec 32) (h : 0 < align.toNat) : ((maddr + align - 1) / align * align).toNat =
    if maddr.toNat + align.toNat ≤ 2 ^ 32 then roundup maddr.toNat align.toNat else 0 := by
  have hm := maddr.isLt
  have ha := align.isLt
  have hsub : (maddr + align - 1).toNat = (maddr.toNat + align.toNat + (2 ^ 32 - 1)) % 2 ^ 32 := by
    rw [BitVec.toNat_sub, BitVec.toNat_add]
    change (2 ^ 32 - 1 + _) % 2 ^ 32 = _
    omega
  rw [BitVec.toNat_mul, BitVec.toNat_udiv, hsub]
  split
  case isTrue hle =>
    have hval : (maddr.toNat + align.toNat + (2 ^ 32 - 1)) % 2 ^ 32 = maddr.toNat + align.toNat - 1 := by omega
    have hmul := Nat.div_mul_le_self (maddr.toNat + align.toNat - 1) align.toNat
    rw [hval, roundup, Nat.mod_eq_of_lt (by omega)]
  case isFalse hgt =>
    have hval : (maddr.toNat + align.toNat + (2 ^ 32 - 1)) % 2 ^ 32 < align.toNat := by omega
    rw [Nat.div_eq_of_lt hval, Nat.zero_mul, Nat.zero_mod]

theorem left_toNat (haddr : e.addr.toNat < 2 ^ 32) (r : BitVec 32) :
    (e.addr + uintptr e.size - uintptr r).toNat =
      if r.toNat ≤ (span e).top then (span e).top - r.toNat else 2 ^ 64 + (span e).top - r.toNat := by
  have hr := r.isLt
  have hs := e.size.isLt
  have hadd : (e.addr + uintptr e.size).toNat = (span e).top := add_toNat (by omega)
  have htop : (span e).top < 2 ^ 33 := by
    change e.addr.toNat + e.size.toNat < 2 ^ 33
    omega
  rw [BitVec.toNat_sub, hadd, uintptr_toNat]
  split <;> omega

theorem fit_right {maddr : BitVec 32} (haddr : e.addr.toNat < 2 ^ 32)
    (hmaddr : maddr.toNat = start addr.toNat (span e)) (hmeets : Meets addr.toNat size.toNat () (span e))
    (hstray : ¬Astray addr.toNat size.toNat () (padding align) (span e) 32) :
    Scan.Right addr.toNat size.toNat () (padding align) BitVec.toNat (span e) (fit size align e maddr) := by
  have hstops : ¬Stops addr.toNat size.toNat () (span e) := fun h => h.right.right.right hmeets
  have hsize := size.isLt
  have hm := maddr.isLt
  have hstart : start addr.toNat (span e) ≤ (span e).top := by
    rw [start]
    split
    case isTrue     => exact Nat.le_add_right _ _
    case isFalse h0 => exact (hmeets.right.resolve_left h0).right.left
  have hor : addr.toNat = 0 ∨ (span e).addr ≤ addr.toNat := hmeets.right.imp_right And.left
  -- where the place is what it is to be, and not after the end
  have hplace (r : BitVec 32) (hr : r.toNat = place addr.toNat (padding align) (span e)) (hle : r.toNat ≤ (span e).top) :
      Scan.Right addr.toNat size.toNat () (padding align) BitVec.toNat (span e)
        (if e.addr + uintptr e.size - uintptr r < uintptr size then .next else .take r) := by
    have hlt : e.addr + uintptr e.size - uintptr r < uintptr size ↔ (span e).top - r.toNat < size.toNat := by
      rw [BitVec.lt_def, left_toNat haddr, if_pos hle, uintptr_toNat]
    split
    case isTrue hnext =>
      refine ⟨fun hroom => ?_, hstops⟩
      have := hlt.mp hnext
      have := hroom.right.right
      omega
    case isFalse htake =>
      have := mt hlt.mpr htake
      exact ⟨⟨rfl, hor, by omega⟩, hr⟩
  rw [fit]
  cases hslt : (0#32).slt align
  case false =>
    refine hplace maddr ?_ (hmaddr.trans_le hstart)
    rw [hmaddr, padding_eq_zero hslt]
    rfl
  case true =>
    obtain ⟨hpad, hpos⟩ := padding_eq hslt
    have hround := round_toNat maddr hpos
    rw [if_pos rfl]
    by_cases hle : maddr.toNat + align.toNat ≤ 2 ^ 32
    case pos =>
      rw [if_pos hle] at hround
      have hval : roundup maddr.toNat align.toNat = place addr.toNat (padding align) (span e) := by
        rw [place, hpad, if_neg hpos.ne', hmaddr]
      have hlt := ((maddr + align - 1) / align * align).isLt
      refine hplace _ (hround.trans hval) ?_
      by_contra hgt
      refine hstray ⟨by omega, hmeets, .inr ⟨by omega, .inl ⟨?_, ?_⟩⟩⟩ <;> rw [← hval, ← hround] <;> omega
    case neg =>
      rw [if_neg hle] at hround
      have hno : ¬size.toNat ≤ (span e).top := fun hfit => hstray ⟨by omega, hmeets, .inl ⟨by omega, hfit⟩⟩
      have hlt : e.addr + uintptr e.size - uintptr ((maddr + align - 1) / align * align) < uintptr size := by
        rw [BitVec.lt_def, left_toNat haddr, if_pos (by omega), uintptr_toNat]
        omega
      rw [if_pos hlt]
      refine ⟨fun hroom => ?_, hstops⟩
      have := hroom.right.right
      omega

theorem scan_right (hsize : e.size ≠ 0) (haddr : e.addr.toNat < 2 ^ 32)
    (hstart : Meets addr.toNat size.toNat () (span e) → start addr.toNat (span e) < 2 ^ 32)
    (hstray : ¬Astray addr.toNat size.toNat () (padding align) (span e) 32) :
    Scan.Right addr.toNat size.toNat () (padding align) BitVec.toNat (span e) (scan addr size align e) := by
  have hlow := ulong_toNat haddr
  have hs := e.size.isLt
  have hn := size.isLt
  rw [scan, if_neg hsize]
  by_cases h0 : addr = 0
  case pos =>
    have h0' : addr.toNat = 0 := congrArg BitVec.toNat h0
    have hmeets : Meets addr.toNat size.toNat () (span e) := ⟨rfl, .inl h0'⟩
    rw [if_neg (not_not_intro h0)]
    refine fit_right haddr ?_ hmeets hstray
    rw [hlow, start, if_pos h0']
    rfl
  case neg =>
    have h0' : addr.toNat ≠ 0 := fun h => h0 (BitVec.eq_of_toNat_eq h)
    rw [if_pos h0]
    by_cases hlt : addr < uintptr (ulong e.addr)
    case pos =>
      rw [if_pos hlt]
      have hlt : addr.toNat < e.addr.toNat := by rwa [BitVec.lt_def, uintptr_toNat, hlow] at hlt
      refine ⟨rfl, h0', hlt.le.trans (Nat.le_add_right _ _), fun hmeets => ?_⟩
      exact absurd hlt (hmeets.right.resolve_left h0').left.not_gt
    case neg =>
      rw [if_neg hlt]
      have hge : e.addr.toNat ≤ addr.toNat := by rwa [BitVec.lt_def, uintptr_toNat, hlow, not_lt] at hlt
      have hsub : (addr - uintptr (ulong e.addr)).toNat = addr.toNat - e.addr.toNat := by
        rw [BitVec.toNat_sub_of_le (by rwa [BitVec.le_def, uintptr_toNat, hlow]), uintptr_toNat, hlow]
      have hrest : (uintptr (e.size - size)).toNat =
          if size.toNat ≤ e.size.toNat then e.size.toNat - size.toNat
          else 2 ^ 32 + e.size.toNat - size.toNat := by
        rw [uintptr_toNat, BitVec.toNat_sub]
        split <;> omega
      simp only [BitVec.lt_def, hsub, uintptr_toNat e.size, hrest]
      have htop : (span e).top = e.addr.toNat + e.size.toNat := rfl
      have hmeets : Meets addr.toNat size.toNat () (span e) ↔ addr.toNat ≤ (span e).top ∧
          (addr.toNat + size.toNat ≤ (span e).top ∨ e.size.toNat < size.toNat) := by
        refine ⟨fun h => (h.right.resolve_left h0').right, fun h => ⟨rfl, .inr ⟨hge, h⟩⟩⟩
      by_cases hnext : e.size.toNat < addr.toNat - e.addr.toNat
      case pos =>
        rw [if_pos hnext]
        refine ⟨fun hroom => ?_, fun hstops => ?_⟩
        · have := (hmeets.mp hroom.meets).left
          omega
        · have := hstops.right.right.left
          omega
      case neg =>
        rw [if_neg hnext]
        by_cases hstop : (if size.toNat ≤ e.size.toNat then e.size.toNat - size.toNat
            else 2 ^ 32 + e.size.toNat - size.toNat) < addr.toNat - e.addr.toNat
        case pos =>
          rw [if_pos hstop]
          refine ⟨rfl, h0', by omega, fun h => ?_⟩
          have := (hmeets.mp h).right
          split at hstop <;> omega
        case neg =>
          rw [if_neg hstop]
          have hm := hmeets.mpr ⟨by omega, by split at hstop <;> omega⟩
          have hlt := hstart hm
          rw [start, if_neg h0'] at hlt
          refine fit_right haddr ?_ hm hstray
          rw [ulong_toNat hlt, start, if_neg h0']

theorem movedown_next (hys : ∀ y ∈ ys, y.size ≠ 0) {w : Map} (hw : Ends (w :: z)) :
    (ys ++ w :: z).head?.toList ++ movedown (ys ++ w :: z) = ys ++ w :: w :: z := by
  cases ys
  case nil =>
    rw [List.nil_append, movedown_ends hw]
    rfl
  case cons y ys =>
    obtain ⟨hy, hys⟩ := List.forall_mem_cons.mp hys
    rw [List.cons_append, movedown_eq hys (hw.zero w List.mem_cons_self) hy]
    rfl

variable {maddr : BitVec 32}

-- What is left of the entry that a range is taken from the beginning of, with the part before the range.
theorem Holds.cut (h : Holds rmap (xs ++ e :: ys) z) (haddr : e.addr.toNat < 2 ^ 32)
    (hle : e.addr.toNat ≤ maddr.toNat) (htop : maddr.toNat + size.toNat ≤ (span e).top)
    (hlt : maddr.toNat + size.toNat < 2 ^ 32 ∨ maddr.toNat + size.toNat = (span e).top) :
    let mp : Map := ⟨uintptr (maddr + size), e.size - (maddr - ulong e.addr + size)⟩
    ∃ mid z', Holds (xs ++ if mp.size = 0 then (ys ++ z).head?.toList ++ movedown (ys ++ z) else mp :: (ys ++ z))
      (xs ++ (mid ++ ys)) z' ∧ mid.map span = (span e).rest (maddr.toNat + size.toNat) ∧
      (maddr.toNat + size.toNat = (span e).top → 2 ≤ z'.length) ∧ z.length ≤ z'.length := by
  have hs := e.size.isLt
  have hsum : (span e).top = e.addr.toNat + e.size.toNat := rfl
  have hne (y : Map) (hy : y ∈ ys) : y.size ≠ 0 :=
    size_ne_zero.mpr <| h.laid.pos _ <| List.mem_map_of_mem (by simp [hy])
  have hcut : (maddr - ulong e.addr + size).toNat = maddr.toNat - e.addr.toNat + size.toNat := by
    rw [BitVec.toNat_add, BitVec.toNat_sub_of_le (by rwa [BitVec.le_def, ulong_toNat haddr]), ulong_toNat haddr,
      Nat.mod_eq_of_lt (by omega)]
  have hsize : (e.size - (maddr - ulong e.addr + size)).toNat = (span e).top - (maddr.toNat + size.toNat) := by
    rw [BitVec.toNat_sub_of_le (by rw [BitVec.le_def, hcut]; omega), hcut]
    omega
  have hlaid := h.laid
  rw [List.map_append, List.map_cons] at hlaid
  have hrest := laid_rest hlaid (hle.trans (Nat.le_add_right _ _)) htop
  dsimp only
  by_cases heq : maddr.toNat + size.toNat = (span e).top
  case pos =>
    obtain ⟨w, z, rfl⟩ := List.exists_cons_of_ne_nil h.ends.ne_nil
    rw [rest, if_pos heq] at hrest ⊢
    rw [if_pos (BitVec.eq_of_toNat_eq (hsize.trans (by rw [heq, Nat.sub_self]; rfl))), movedown_next hne h.ends,
      ← List.append_assoc]
    refine ⟨[], w :: w :: z, ⟨rfl, ⟨by simp, ?_⟩, ?_⟩, rfl, fun _ => by simp, by simp⟩
    · exact List.forall_mem_cons.mpr ⟨h.ends.zero w List.mem_cons_self, h.ends.zero⟩
    · rwa [List.nil_append, List.map_append]
  case neg =>
    have hnz : e.size - (maddr - ulong e.addr + size) ≠ 0 := fun h0 => by
      have : (e.size - (maddr - ulong e.addr + size)).toNat = 0 := congrArg BitVec.toNat h0
      omega
    have hspan : span ⟨uintptr (maddr + size), e.size - (maddr - ulong e.addr + size)⟩ =
        ⟨maddr.toNat + size.toNat, (span e).top - (maddr.toNat + size.toNat), ()⟩ := by
      rw [span, hsize, uintptr_toNat, BitVec.toNat_add, Nat.mod_eq_of_lt (hlt.resolve_right heq)]
    rw [rest, if_neg heq] at hrest ⊢
    rw [if_neg hnz]
    refine ⟨[⟨uintptr (maddr + size), e.size - (maddr - ulong e.addr + size)⟩], z, ⟨by simp, h.ends, ?_⟩, by rw [List.map_singleton, hspan], fun h => absurd h heq, le_rfl⟩
    rw [List.map_append, List.map_append, List.map_singleton, hspan]
    exact hrest

theorem Holds.front {mid : List Map} (h : Holds rmap (xs ++ e :: ys) z) {s : RMap} {z' : List Map}
    (hcut : Holds s (xs ++ (mid ++ ys)) z')
    (hmid : mid.map span = (span e).rest (maddr.toNat + size.toNat)) (haddr : e.addr.toNat < 2 ^ 32)
    (hle : e.addr.toNat < maddr.toNat) (htop : maddr.toNat + size.toNat ≤ (span e).top)
    (hlt : maddr.toNat + size.toNat < 2 ^ 32 ∨ maddr.toNat + size.toNat = (span e).top)
    (hys : size.toNat ≠ 0 ∨ maddr.toNat + size.toNat = (span e).top → ∀ y ∈ ys, y.addr.toNat < 2 ^ 32)
    (hroom : size.toNat ≠ 0 ∨ maddr.toNat + size.toNat = (span e).top → 2 ≤ z'.length) :
    ∃ es' z'', Rmap.rmapfree s (uintptr (ulong e.addr)) (maddr - ulong e.addr) = (es' ++ z'', none) ∧ Ends z'' ∧
      Added ⟨e.addr.toNat, maddr.toNat - e.addr.toNat, ()⟩ ((xs ++ (mid ++ ys)).map span) (es'.map span) := by
  have hs := e.size.isLt
  have hsum : (span e).top = e.addr.toNat + e.size.toNat := rfl
  have hsub : (maddr - ulong e.addr).toNat = maddr.toNat - e.addr.toNat := by
    rw [BitVec.toNat_sub_of_le (by rw [BitVec.le_def, ulong_toNat haddr]; exact hle.le), ulong_toNat haddr]
  have hrange : range (uintptr (ulong e.addr)) (maddr - ulong e.addr) =
      ⟨e.addr.toNat, maddr.toNat - e.addr.toNat, ()⟩ := by
    rw [range, hsub, uintptr_ulong haddr]
  have hrtop : (⟨e.addr.toNat, maddr.toNat - e.addr.toNat, ()⟩ : Span Unit).top = maddr.toNat :=
    Nat.add_sub_cancel' hle.le
  have hlaid := h.laid
  rw [List.map_append, List.map_cons] at hlaid
  obtain ⟨-, hrest, hxs⟩ := laid_append.mp hlaid
  obtain ⟨-, hafter, -⟩ := laid_cons.mp hrest
  -- where the entries are
  have hx (x : Map) (hx : x ∈ xs) : (span x).top < e.addr.toNat := by
    rcases hxs _ (List.mem_map_of_mem hx) (span e) List.mem_cons_self with hlt | ⟨-, hne⟩
    · exact hlt
    · exact absurd rfl hne
  have hm (m : Map) (hm : m ∈ mid) : (span m).addr = maddr.toNat + size.toNat ∧
      (span m).top = (span e).top ∧ maddr.toNat + size.toNat < (span e).top := by
    obtain ⟨haddr, hmtop, -, hlt⟩ := mem_rest (hmid ▸ List.mem_map_of_mem hm) htop
    exact ⟨haddr, hmtop, hlt⟩
  have hy (y : Map) (hy : y ∈ ys) : (span e).top < (span y).addr := by
    rcases hafter _ (List.mem_map_of_mem hy) with hlt | ⟨-, hne⟩
    · exact hlt
    · exact absurd rfl hne
  have hcases {P : Span Unit → Prop} (hPx : ∀ x ∈ xs, P (span x)) (hPm : ∀ m ∈ mid, P (span m))
      (hPy : ∀ y ∈ ys, P (span y)) : ∀ e ∈ (xs ++ (mid ++ ys)).map span, P e := by
    simpa only [List.forall_mem_map, List.forall_mem_append] using ⟨hPx, hPm, hPy⟩
  have hnone : ∀ x ∈ (xs ++ (mid ++ ys)).map span, x.top ≠ e.addr.toNat :=
    hcases (fun x hx' => (hx x hx').ne) (fun m hm' => by have := hm m hm'; omega) fun y hy' => by
      have := hy y hy'
      have : (span y).addr ≤ (span y).top := Nat.le_add_right _ _
      omega
  -- it is next to what is left of the entry, if the range is empty
  have htouch (h0 : size.toNat = 0) (hne : maddr.toNat + size.toNat ≠ (span e).top) :
      Touches ⟨e.addr.toNat, maddr.toNat - e.addr.toNat, ()⟩ ((xs ++ (mid ++ ys)).map span) := by
    rw [rest, if_neg hne] at hmid
    rw [List.map_append, List.map_append, hmid]
    exact ⟨_, List.mem_append_right _ (List.mem_append_left _ (List.mem_singleton_self _)), .inr (by rw [hrtop, h0]; rfl)⟩
  have hor : size.toNat ≠ 0 ∨ maddr.toNat + size.toNat = (span e).top ∨
      Touches ⟨e.addr.toNat, maddr.toNat - e.addr.toNat, ()⟩ ((xs ++ (mid ++ ys)).map span) := by
    by_cases h0 : size.toNat = 0
    · exact .inr (or_iff_not_imp_left.mpr (htouch h0))
    · exact .inl h0
  have hfree := @Holds.rmapfree _ _ _ (uintptr (ulong e.addr)) (maddr - ulong e.addr) hcut
  rw [hrange] at hfree
  refine hfree (fun h0 => ?_) ?_ ?_ ⟨?_, ?_, ?_, ?_⟩
  · have := congrArg BitVec.toNat h0
    rw [hsub] at this
    exact hle.not_ge (Nat.sub_eq_zero_iff_le.mp this)
  · refine hcases (fun x hx' => .inl (hx x hx').le) (fun m hm' => .inr ?_) fun y hy' => .inr ?_
    · rw [hrtop, (hm m hm').left]
      exact Nat.le_add_right _ _
    · rw [hrtop]
      have := hy y hy'
      omega
  · rcases hor with h0 | h0 | h0
    · exact .inr (hroom (.inl h0))
    · exact .inr (hroom (.inr h0))
    · exact .inl h0
  · exact fun x hx h => absurd h (hnone x hx)
  · rw [hrtop]
    refine hcases (fun x hx' h => ?_) (fun m hm' h => ?_) fun y hy' h => ?_
    · have := hx x hx'
      have : (span x).addr ≤ (span x).top := Nat.le_add_right _ _
      omega
    · obtain ⟨haddr, htop', -⟩ := hm m hm'
      have : (span m).top = (span m).addr + (span m).size := rfl
      dsimp only
      omega
    · have := hy y hy'
      omega
  · exact fun x hx h => absurd h (hnone x hx)
  · intro htouches
    refine hcases (fun x hx' h => ?_) (fun m hm' _ => ?_) fun y hy' _ => ?_
    · have := hx x hx'
      have : (span x).addr ≤ (span x).top := Nat.le_add_right _ _
      dsimp only at h
      omega
    · obtain ⟨haddr, -, hlt'⟩ := hm m hm'
      have := hlt.resolve_right hlt'.ne
      omega
    · rcases hor with h0 | h0 | h0
      · exact hys (.inl h0) y hy'
      · exact hys (.inr h0) y hy'
      · exact absurd h0 htouches

theorem find_some {p : Span Unit → Prop} [DecidablePred p] {xs ys : List (Span Unit)} {e : Span Unit}
    (hxs : ∀ x ∈ xs, ¬p x) (he : p e) : (xs ++ e :: ys).find? p = some e := by
  rw [List.find?_append, List.find?_eq_none.mpr (by simpa using hxs), List.find?_cons_of_pos (by simpa using he)]
  rfl

theorem Holds.rmapalloc (h : Holds rmap es z) (hroom : Asked rmap (.rmapalloc addr size align))
    (hfair : Fair rmap (.rmapalloc addr size align)) :
    (∃ es' z', Holds (rmapalloc rmap addr size align).snd.fst es' z') ∧
    Allocates addr.toNat size.toNat (padding align) rmap (rmapalloc rmap addr size align).snd.fst
      ((rmapalloc rmap addr size align).fst.map BitVec.toNat) := by
  rw [Fair, h.entries_eq] at hfair
  rw [Asked, h.entries_eq] at hroom
  have hne (e : Map) (he : e ∈ es) : e.size ≠ 0 := size_ne_zero.mpr <| h.laid.pos _ <| List.mem_map_of_mem he
  have hend : ∀ w ∈ z.head?, scan addr size align w = .stop := fun w hw => by
    rw [scan, if_pos (h.ends.zero w (List.mem_of_mem_head? hw))]
  have hfind := @Scan.find_append _ _ _ es _ hend
  rw [← h.eq] at hfind
  rcases @Scan.find_right _ _ _ _ _ _ BitVec.toNat _ _ _ _ _ h.laid hfair fun e he es hn =>
      scan_right (hne e he) hn.left hn.right.left hn.right.right.left with
    ⟨hnone, hno⟩ | ⟨xs, e, ys, maddr, hsome, rfl, hyes, hval, ⟨haddr, -, hstray, hcut⟩, hpre⟩
  case inl =>
    rw [hnone] at hfind
    have halloc : Rmap.rmapalloc rmap addr size align = (none, rmap, none) := by
      rw [Rmap.rmapalloc, hfind]
      rfl
    rw [halloc]
    refine ⟨⟨es, z, h⟩, rfl, fun e he a hsuits => ?_⟩
    rw [h.entries_eq] at he
    obtain ⟨e, hmem, rfl⟩ := List.mem_map.mp he
    exact hno e hmem (room_of_le rfl hsuits.left hsuits.right.left hsuits.right.right.left hsuits.right.right.right)
  case inr =>
    rw [hsome] at hfind
    obtain ⟨hlt, hys⟩ := hcut hyes
    have hle := hyes.addr_le
    have htop := hyes.right.right
    rw [← hval] at hle htop hlt hys
    have hsuits : Suits addr.toNat (padding align) size.toNat maddr.toNat (span e) := by
      refine ⟨fun hal => hval ▸ dvd_place hal, fun h0 => ?_, hle, htop⟩
      rw [hval] at htop ⊢
      by_cases hal : padding align = 0
      · rw [place, if_pos hal, start, if_neg h0]
      · by_contra hmove
        refine hstray ⟨hal, hyes.meets, ?_⟩
        by_cases hfit : start addr.toNat (span e) + padding align ≤ 2 ^ 32
        · exact .inr ⟨hfit, .inr ⟨h0, hmove, htop⟩⟩
        · exact .inl ⟨by omega, by omega⟩
    have hspare (hsplit : Splits addr.toNat size.toNat (padding align) (span e)) : 2 ≤ z.length := by
      have hspare : Spare rmap := by
        refine hroom.resolve_right fun hno => hno (span e) ?_ hsplit
        rw [List.map_append, List.map_cons]
        exact find_some (by simpa only [List.forall_mem_map] using hpre) hyes
      have := h.length_eq
      unfold Spare at hspare
      omega
    have hlaid := h.laid
    rw [List.map_append, List.map_cons] at hlaid
    have hmem : span e ∈ entries rmap := by
      rw [h.entries_eq]
      exact List.mem_map_of_mem (by simp)
    have hcovers (n : Nat) : Covers ((xs ++ e :: ys).map span) () n ↔ Covers (entries rmap) () n := by
      rw [h.entries_eq]
    obtain ⟨mid, z', hs, hmid, htwo, hlen⟩ := h.cut haddr hle htop hlt
    have hrest (n : Nat) := covers_rest (t := ()) (n := n) hlaid (hle.trans (Nat.le_add_right _ size.toNat)) htop
    rw [← hmid, ← List.map_append, ← List.map_append, ← List.map_cons, ← List.map_append] at hrest
    simp only [hcovers] at hrest
    obtain ⟨s, hs, halloc⟩ : ∃ s, Holds s (xs ++ (mid ++ ys)) z' ∧ Rmap.rmapalloc rmap addr size align =
        if ulong e.addr ≠ maddr then
          (some (uintptr maddr), Rmap.rmapfree s (uintptr (ulong e.addr)) (maddr - ulong e.addr))
        else
          (some (uintptr maddr), s, none) := by
      refine ⟨_, hs, ?_⟩
      rw [Rmap.rmapalloc, hfind]
      rfl
    by_cases heq : ulong e.addr = maddr
    case pos =>
      rw [halloc, if_neg (not_not_intro heq)]
      refine ⟨⟨_, _, hs⟩, ?_⟩
      rw [Option.map_some, uintptr_toNat]
      refine ⟨⟨_, hmem, hsuits⟩, fun n => ?_⟩
      have haddr : (span e).addr = maddr.toNat := by
        rw [← heq, ulong_toNat haddr]
        rfl
      rw [hs.entries_eq, hrest, haddr, true_and]
    case neg =>
      have hne : e.addr.toNat < maddr.toNat := lt_of_le_of_ne hle fun heq' => heq <| BitVec.eq_of_toNat_eq <| by
        rw [ulong_toNat haddr, heq']
      have hsplits (hor : size.toNat ≠ 0 ∨ maddr.toNat + size.toNat = (span e).top) :
          Splits addr.toNat size.toNat (padding align) (span e) ∨ maddr.toNat + size.toNat = (span e).top := by
        by_cases heq : maddr.toNat + size.toNat = (span e).top
        · exact .inr heq
        · refine .inl ⟨hor.resolve_right heq, ?_, ?_⟩
          · rw [← hval]
            exact hne.ne'
          · rwa [← hval]
      obtain ⟨es', z'', hfree, hends, hadded⟩ := h.front hs hmid haddr hne htop hlt
        (fun hor y hy => hys hne.ne' (hsplits hor) _ (List.mem_map_of_mem hy)) fun hor =>
          (hsplits hor).elim (fun hsplit => (hspare hsplit).trans hlen) htwo
      have hholds : Holds (es' ++ z'') es' z'' := ⟨rfl, hends, hadded.laid hs.laid⟩
      rw [halloc, if_pos heq, hfree]
      refine ⟨⟨_, _, hholds⟩, ?_⟩
      rw [Option.map_some, uintptr_toNat]
      refine ⟨⟨_, hmem, hsuits⟩, fun n => ?_⟩
      have hin : (span e).Has () n → Covers (entries rmap) () n := fun hn => ⟨_, hmem, hn⟩
      rw [hholds.entries_eq, hadded.covers, hrest]
      unfold Has top at *
      dsimp only at *
      change _ ∧ ¬(_ ∧ e.addr.toNat ≤ n ∧ _) ∨ _ ↔ _
      have hin' : e.addr.toNat ≤ n ∧ n < maddr.toNat → Covers (entries rmap) () n := fun hn => hin ⟨rfl, hn.left, by omega⟩
      simp only [true_and]
      constructor
      · rintro (⟨hn, hnot⟩ | hn)
        · exact ⟨hn, by omega⟩
        · exact ⟨hin' (by omega), by omega⟩
      · rintro ⟨hn, hnot⟩
        by_cases hlow : e.addr.toNat ≤ n ∧ n < maddr.toNat
        · exact .inr (by omega)
        · exact .inl ⟨hn, by omega⟩

theorem Holds.kept_rmapfree (h : Holds rmap es z) (hasked : Asked rmap (.rmapfree addr size))
    (hfair : Fair rmap (.rmapfree addr size)) : (∃ es' z', Holds (Rmap.rmapfree rmap addr size).fst es' z') ∧
    ∀ n, Covers (entries (Rmap.rmapfree rmap addr size).fst) () n ↔
      Covers (entries rmap) () n ∨ addr.toNat ≤ n ∧ n < addr.toNat + size.toNat := by
  by_cases h0 : size = 0
  case pos =>
    rw [Rmap.rmapfree, if_pos h0]
    refine ⟨⟨es, z, h⟩, fun n => (or_iff_left fun hn => ?_).symm⟩
    rw [h0] at hn
    exact hn.left.not_gt hn.right
  case neg =>
    obtain ⟨hapart, hroom⟩ := hasked h0
    have hsmall := hfair h0
    have hroom' := hroom.imp_right fun hspare => show 2 ≤ z.length by
      have := h.length_eq
      unfold Spare at hspare
      omega
    rw [h.entries_eq] at hapart hroom' hsmall
    obtain ⟨es', z', hfree, hends, hadded⟩ := h.rmapfree h0 hapart hroom' hsmall
    have hholds : Holds (es' ++ z') es' z' := ⟨rfl, hends, hadded.laid h.laid⟩
    rw [hfree]
    refine ⟨⟨_, _, hholds⟩, fun n => ?_⟩
    rw [hholds.entries_eq, hadded.covers, ← h.entries_eq]
    exact or_congr_right (and_iff_right rfl)

-- What holds all along.
def Good (s : RMap × Owned) : Prop :=
  (∃ es z, Holds s.fst es z) ∧ ∀ n, Covers (entries s.fst) () n ↔ s.snd n

theorem good_invariant : tracked.Invariant (fun s a => Asked s.fst a ∧ Fair s.fst a) Good where
  init := by
    rintro ⟨rmap, o⟩ ⟨⟨hne, hzero⟩, ho⟩
    obtain rfl : o = fun _ => False := ho
    have h : Holds rmap [] rmap := ⟨rfl, ⟨hne, hzero⟩, .nil, by simp⟩
    refine ⟨⟨_, _, h⟩, fun n => ?_⟩
    rw [h.entries_eq]
    exact iff_of_false covers_nil id
  step := by
    rintro ⟨rmap, o⟩ act ⟨rmap', o'⟩ ⟨⟨es, z, h⟩, hcovers⟩ ⟨hasked, hfair⟩ hstep
    obtain ⟨hact, rfl : o' = _⟩ := Machine.track_step_eq.mp hstep
    clear hstep
    cases act <;> obtain rfl := Option.some.inj hact
    case rmapfree addr size =>
      obtain ⟨hholds, hiff⟩ := h.kept_rmapfree hasked hfair
      exact ⟨hholds, fun n => (hiff n).trans (or_congr_left (hcovers n))⟩
    case rmapalloc addr size align =>
      obtain ⟨hholds, halloc⟩ := h.rmapalloc hasked hfair
      refine ⟨hholds, fun n => ?_⟩
      dsimp only [Owned.note] at hcovers ⊢
      cases ha : (Rmap.rmapalloc rmap addr size align).fst <;> rw [ha] at halloc
      case none   => rw [halloc.left, hcovers]; simp
      case some a => rw [halloc.right, hcovers]; simp

-- Where no address loses its high word a map has what was freed and not allocated, and what is allocated was there.
theorem rmap_kept {s : RMap × Owned} (hr : tracked.Reachable (fun s a => Asked s.fst a ∧ Fair s.fst a) s) :
    Kept (fun rmap a => Asked rmap a ∧ Fair rmap a) s := by
  obtain ⟨⟨es, z, h⟩, hcovers⟩ := good_invariant.holds hr
  refine ⟨?_, ?_, hcovers, fun addr size align hc => (h.rmapalloc hc.left hc.right).right⟩
  · rw [h.entries_eq]
    exact h.laid
  · exact ⟨es, z, h.eq, h.entries_eq.symm, h.ends.ne_nil, h.ends.zero⟩

def empty : RMap :=
  List.replicate 8 ⟨0, 0⟩

theorem empty_init : tracked.init (empty, fun _ => False) :=
  ⟨⟨by decide, by decide⟩, rfl⟩

-- A page is taken from the middle of three.
theorem rmap_kept_middle : ∃ o, Kept (fun rmap a => Asked rmap a ∧ Fair rmap a)
    (⟨0x1000, 0x1000⟩ :: ⟨0x3000, 0x1000⟩ :: List.replicate 6 ⟨0, 0⟩, o) := by
  have hrun : ((tracked.guarded fun s a => Asked s.fst a ∧ Fair s.fst a).exec (empty, fun _ => False)
      [.rmapfree 0x1000 0x3000, .rmapalloc 0 0x1000 0x2000]).any
      (fun s => s.fst = ⟨0x1000, 0x1000⟩ :: ⟨0x3000, 0x1000⟩ :: List.replicate 6 ⟨0, 0⟩) = true := by
    decide
  obtain ⟨⟨rmap, o⟩, hr, hs⟩ := Machine.exists_reachable empty_init hrun
  obtain rfl : rmap = _ := of_decide_eq_true hs
  exact ⟨o, rmap_kept hr⟩

-- A page at 2^32 is taken as one at 0.
theorem not_rmap_kept : ∃ s, tracked.Reachable (fun s a => Asked s.fst a) s ∧ ¬Kept Asked s := by
  have hrun : ((tracked.guarded fun s a => Asked s.fst a).exec (empty, fun _ => False)
      [.rmapfree 0x100000000 0x1000]).any
      (fun s => s.fst = ⟨0x100000000, 0x1000⟩ :: List.replicate 7 ⟨0, 0⟩) = true := by
    decide
  obtain ⟨⟨rmap, o⟩, hr, hs⟩ := Machine.exists_reachable empty_init hrun
  obtain rfl : rmap = _ := of_decide_eq_true hs
  refine ⟨_, hr, fun hkept => ?_⟩
  have hasked : Asked (⟨0x100000000, 0x1000⟩ :: List.replicate 7 ⟨0, 0⟩) (.rmapalloc 0 0x1000 0) := by decide
  have halloc := hkept.rmapalloc 0 0x1000 0 hasked
  obtain ⟨e, he, -, -, hle, -⟩ := halloc.left
  obtain rfl := List.mem_singleton.mp he
  exact absurd hle (by decide)

end Port.Rmap
