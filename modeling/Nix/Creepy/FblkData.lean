import Nix.Creepy.Fblk

namespace Creepy.Fblk

variable {f f' : File}

theorem eq_ok_of_toOption {r : Except Fault α} (h : r.toOption = some x) : r = .ok x := by
  cases r
  case error => contradiction
  case ok => exact congrArg _ (Option.some.inj h)

namespace File

-- The block that has the data at `pos`, if it is not embedded.
def bno (f : File) (pos : Nat) : Nat :=
  ulong ((pos - f.dlen) / Dblkdatasz)

-- The byte that the file has at `pos`, past the end of the file as well.
def stored (f : File) (pos : Nat) : UInt8 :=
  if pos < f.dlen then f.embed (f.embedattrsz + pos)
  else f.block (f.bno pos) ((pos - f.dlen) % Dblkdatasz)

-- Below this size no number of a block exceeds 32 bits.
def capacity (f : File) : Nat :=
  f.dlen + 2 ^ 32 * Dblkdatasz

-- What `dfpwrite` leaves as it is.
structure Same (f f' : File) : Prop where
  dir    : f'.dir = f.dir
  append : f'.append = f.append
  asize  : f'.asize = f.asize

theorem Same.embedattrsz (h : Same f f') : f'.embedattrsz = f.embedattrsz := by
  rw [File.embedattrsz, File.embedattrsz, h.asize]

theorem Same.dlen (h : Same f f') : f'.dlen = f.dlen := by
  rw [File.dlen, File.dlen, h.embedattrsz]

theorem Same.bno (h : Same f f') : f'.bno = f.bno := by
  funext pos
  rw [File.bno, File.bno, h.dlen]

theorem Same.capacity (h : Same f f') : f'.capacity = f.capacity := by
  rw [File.capacity, File.capacity, h.dlen]

theorem Same.trans (h : Same f f') (h' : Same f' f'') : Same f f'' where
  dir    := h'.dir.trans h.dir
  append := h'.append.trans h.append
  asize  := h'.asize.trans h.asize

theorem modify_same (g : Data → Data) (l : Loc) : Same f (f.modify g l) := by
  cases l <;> exact ⟨rfl, rfl, rfl⟩

theorem modify_length (g : Data → Data) (l : Loc) : (f.modify g l).length = f.length := by
  cases l <;> rfl

theorem modify_embed (g : Data → Data) (l : Loc) : (f.modify g l).embed = f.embed := by
  cases l <;> rfl

theorem bno_of_lt (h : pos < f.capacity) : f.bno pos = (pos - f.dlen) / Dblkdatasz := by
  refine Nat.mod_eq_of_lt <| Nat.div_lt_of_lt_mul ?_
  rw [capacity] at h
  simp only [Dblkdatasz, Dblksz, Dblkhdrsz] at *
  omega

theorem stored_modify (hl : Located (f.bno off) l) (hoff : f.dlen ≤ off)
    (hbs : (off - f.dlen) % Dblkdatasz + bs.length ≤ Dblkdatasz) (hcap : off < f.capacity)
    (hpos : pos < f.capacity) :
    (f.modify (overwrite · ((off - f.dlen) % Dblkdatasz) bs) l).stored pos =
      overwrite f.stored off bs pos := by
  have hsame := modify_same (f := f) (overwrite · ((off - f.dlen) % Dblkdatasz) bs) l
  rw [stored, hsame.dlen, hsame.bno, hsame.embedattrsz, modify_embed]
  split
  case isTrue hlt => rw [overwrite_of_lt (Nat.lt_of_lt_of_le hlt hoff), stored, if_pos hlt]
  case isFalse hge =>
    have hstored : f.stored pos = f.block (f.bno pos) ((pos - f.dlen) % Dblkdatasz) := if_neg hge
    have hge := Nat.not_lt.mp hge
    have hdiv : f.bno pos = f.bno off ↔ (pos - f.dlen) / Dblkdatasz = (off - f.dlen) / Dblkdatasz := by
      rw [bno_of_lt hcap, bno_of_lt hpos]
    by_cases hb : f.bno pos = f.bno off
    case pos =>
      have hdiv := hdiv.mp hb
      have hle : (off - f.dlen) % Dblkdatasz ≤ (pos - f.dlen) % Dblkdatasz ↔ off ≤ pos := by
        simp only [Dblkdatasz, Dblksz, Dblkhdrsz] at *
        omega
      have hsub : (pos - f.dlen) % Dblkdatasz - (off - f.dlen) % Dblkdatasz = pos - off := by
        simp only [Dblkdatasz, Dblksz, Dblkhdrsz] at *
        omega
      rw [hb] at hstored
      rw [hb, File.block_modify_self hl, overwrite, overwrite, hstored, hsub]
      exact if_congr hle rfl rfl
    case neg =>
      rw [File.block_modify_of_ne hl hb, ← hstored]
      have hdiv := hdiv.not.mp hb
      by_cases hlt : pos < off
      case pos => rw [overwrite_of_lt hlt]
      case neg =>
        refine (overwrite_of_le ?_).symm
        simp only [Dblkdatasz, Dblksz, Dblkhdrsz] at *
        omega

-- How far a slice that starts at `off` can go.
def room (f : File) (off : Nat) : Nat :=
  if off < f.dlen then f.dlen - off else Dblkdatasz - (off - f.dlen) % Dblkdatasz

theorem room_pos : 0 < f.room off := by
  rw [room]
  split
  case isTrue h => exact Nat.sub_pos_of_lt h
  case isFalse => exact Nat.sub_pos_of_lt (Nat.mod_lt _ (by decide))

-- A file after the bytes were written at `off`. Its length is another matter.
structure Wrote (f f' : File) (bs : List UInt8) (off : Nat) : Prop where
  same   : Same f f'
  stored : ∀ pos < f.capacity, f'.stored pos = overwrite f.stored off bs pos

-- What `store` does past the embedded data.
def put (f : File) (off : Nat) (bs : List UInt8) (l : Loc) : Nat × File :=
  let boff := (off - f.dlen) % Dblkdatasz
  let n := min (Dblkdatasz - boff) bs.length
  (n, f.modify (overwrite · boff (bs.take n)) l)

theorem store_of_le (h : f.dlen ≤ off) : f.store off bs = (locate (f.bno off)).map (f.put off bs) := by
  rw [store, if_neg (Nat.not_lt.mpr h)]
  simp only [dfblkmk, bno]
  cases locate (ulong ((off - f.dlen) / Dblkdatasz)) <;> rfl

theorem store_eq_ok (h : f.store off bs = .ok (n, f')) (hoff : off < f.capacity) :
    n = min (f.room off) bs.length ∧ Wrote f f' (bs.take n) off ∧ f'.length = f.length := by
  by_cases hlt : off < f.dlen
  case pos =>
    rw [store, if_pos hlt] at h
    obtain ⟨rfl, rfl⟩ := Prod.mk.inj (Except.ok.inj h)
    refine ⟨by rw [room, if_pos hlt], ⟨⟨rfl, rfl, rfl⟩, fun pos _ => ?_⟩, rfl⟩
    by_cases hpos : pos < f.dlen
    case pos =>
      have hold : f.stored pos = f.embed (f.embedattrsz + pos) := if_pos hpos
      rw [overwrite, hold, ← Nat.add_sub_add_left f.embedattrsz pos off]
      refine (if_pos hpos).trans <| if_congr ?_ rfl rfl
      exact Nat.add_le_add_iff_left
    case neg =>
      refine (if_neg hpos).trans ?_
      rw [overwrite_of_le, stored, if_neg hpos]
      · rfl
      · rw [List.length_take]
        omega
  case neg =>
    have hge := Nat.not_lt.mp hlt
    rw [store_of_le hge] at h
    cases hl : locate (f.bno off)
    case error => rw [hl] at h; contradiction
    case ok l =>
      rw [hl] at h
      obtain ⟨rfl, rfl⟩ := Prod.mk.inj (Except.ok.inj h)
      have hroom : f.room off = Dblkdatasz - (off - f.dlen) % Dblkdatasz := if_neg hlt
      have hmod : (off - f.dlen) % Dblkdatasz < Dblkdatasz := Nat.mod_lt _ (by decide)
      refine ⟨by rw [hroom], ⟨modify_same .., fun pos hpos => ?_⟩, modify_length ..⟩
      refine stored_modify (locate_eq_ok_iff.mp hl) hge ?_ hoff hpos
      rw [List.length_take]
      omega

theorem Wrote.append (h : Wrote f f' bs off) (h' : Wrote f' f'' bs' (off + bs.length)) :
    Wrote f f'' (bs ++ bs') off where
  same := h.same.trans h'.same
  stored pos hpos := by
    rw [h'.stored pos (h.same.capacity ▸ hpos), ← overwrite_append]
    exact overwrite_congr fun _ => h.stored pos hpos

theorem grow_eq (len : Nat) : f.grow len = { f with length := max f.length len } := by
  rw [grow]
  split
  case isTrue h => rw [Nat.max_eq_right (Nat.le_of_lt h)]
  case isFalse h => rw [Nat.max_eq_left (Nat.not_lt.mp h)]

theorem grow_length (len : Nat) : (f.grow len).length = max f.length len := by
  rw [grow_eq]

theorem Wrote.grow (h : Wrote f f' bs off) (len : Nat) : Wrote f (f'.grow len) bs off := by
  rw [grow_eq]
  exact ⟨⟨h.same.dir, h.same.append, h.same.asize⟩, h.stored⟩

theorem capacity_lt : f.capacity < 2 ^ 64 := by
  simp only [capacity, dlen, Embedsz, Dblkdatasz, Ndptr, Niptr, Dblksz, Dblkhdrsz, Daddrsz]
  omega

theorem writeloop_eq_ok (h : f.writeloop fuel bs off = .ok f') (hfuel : bs.length ≤ fuel)
    (hoff : off + bs.length ≤ f.capacity) :
    Wrote f f' bs off ∧ f'.length = if bs = [] then f.length else max f.length (off + bs.length) := by
  induction fuel generalizing f bs off
  case zero =>
    obtain rfl := List.length_eq_zero_iff.mp (Nat.le_zero.mp hfuel)
    cases h
    exact ⟨⟨⟨rfl, rfl, rfl⟩, fun pos _ => by rw [overwrite_nil]⟩, rfl⟩
  case succ fuel ih =>
    rw [writeloop] at h
    split at h
    case isTrue hbs =>
      cases h
      subst hbs
      exact ⟨⟨⟨rfl, rfl, rfl⟩, fun pos _ => by rw [overwrite_nil]⟩, rfl⟩
    case isFalse hbs =>
      have hlen := List.length_pos_iff.mpr hbs
      cases hst : f.store off bs
      case error => rw [hst] at h; contradiction
      case ok st =>
        obtain ⟨n, f₁⟩ := st
        rw [hst] at h
        have ⟨hn, hw, hl⟩ := store_eq_ok hst (by omega)
        have hroom : 0 < f.room off := f.room_pos
        have hu : uvlong (off + n) = off + n := Nat.mod_eq_of_lt (by have := f.capacity_lt; omega)
        have h : (f₁.grow (uvlong (off + n))).writeloop fuel (bs.drop n) (uvlong (off + n)) = .ok f' := by
          have hn : ¬n = 0 := by omega
          change (if n = 0 then _ else _) = _ at h
          rwa [if_neg hn] at h
        rw [hu] at h
        have hw₁ := hw.grow (off + n)
        have ⟨hw', hl'⟩ := ih h (by rw [List.length_drop]; omega) (by
          rw [hw₁.same.capacity, List.length_drop]
          omega)
        have hlen₁ : (bs.take n).length = n := by rw [List.length_take]; omega
        constructor
        case left =>
          rw [← List.take_append_drop n bs]
          exact hw₁.append (hlen₁.symm ▸ hw')
        case right =>
          have hle : n ≤ bs.length := hn ▸ Nat.min_le_right ..
          rw [hl', grow_length, hl, if_neg hbs, List.length_drop, Nat.add_assoc, Nat.add_sub_cancel' hle]
          split
          case isTrue hdrop => rw [Nat.le_antisymm hle (List.drop_eq_nil_iff.mp hdrop)]
          case isFalse      => rw [Nat.max_assoc, Nat.max_eq_right (Nat.add_le_add_left hle off)]

-- The pointer of the file on the way to the byte at `pos` is there.
def mapped (f : File) (pos : Nat) : Prop :=
  pos < f.dlen ∨ ∃ l, locate (f.bno pos) = .ok l ∧ f.ptr l

-- The byte at `pos` is not in a hole.
def solid (f : File) (pos : Nat) : Prop :=
  pos < f.dlen ∨ ∃ l, locate (f.bno pos) = .ok l ∧ (f.blk l).isSome

theorem ptr_of_blk (h : (f.blk l).isSome) : f.ptr l := by
  have hnil {n} {s : Sparse Data n} {p} (hs : (s.get p).isSome) : ¬s.isNil := by
    cases s <;> simp_all [Sparse.isNil]
  cases l
  case direct => simpa [ptr] using hnil h
  case indirect => simpa [ptr] using hnil h

theorem solid.mapped (h : f.solid pos) : f.mapped pos := by
  rcases h with hlt | ⟨l, hl, hb⟩
  · exact .inl hlt
  · exact .inr ⟨l, hl, ptr_of_blk hb⟩

theorem solid_modify (hl : Located b l) (hs : f.solid pos) (g : Data → Data) : (f.modify g l).solid pos := by
  have hsame := modify_same (f := f) g l
  rw [solid, hsame.dlen, hsame.bno]
  refine hs.imp id fun ⟨l', hl', hb⟩ => ⟨l', hl', ?_⟩
  exact blk_modify_isSome hl (locate_eq_ok_iff.mp hl') hb g

theorem solid_store (h : f.store off bs = .ok (n, f')) (hs : f.solid pos) : f'.solid pos := by
  by_cases hlt : off < f.dlen
  case pos =>
    rw [store, if_pos hlt] at h
    obtain ⟨-, rfl⟩ := Prod.mk.inj (Except.ok.inj h)
    exact hs
  case neg =>
    rw [store_of_le (Nat.not_lt.mp hlt)] at h
    cases hl : locate (f.bno off)
    case error => rw [hl] at h; contradiction
    case ok l =>
      rw [hl] at h
      obtain ⟨-, rfl⟩ := Prod.mk.inj (Except.ok.inj h)
      exact solid_modify (locate_eq_ok_iff.mp hl) hs _

theorem bno_add (hge : f.dlen ≤ off) (hk : k < f.room off) :
    f.bno (off + k) = f.bno off ∧
      (off + k - f.dlen) % Dblkdatasz = (off - f.dlen) % Dblkdatasz + k := by
  rw [room, if_neg (Nat.not_lt.mpr hge)] at hk
  have hdiv : (off + k - f.dlen) / Dblkdatasz = (off - f.dlen) / Dblkdatasz := by
    simp only [Dblkdatasz, Dblksz, Dblkhdrsz] at *
    omega
  constructor
  case left => rw [bno, bno, hdiv]
  case right =>
    simp only [Dblkdatasz, Dblksz, Dblkhdrsz] at *
    omega

theorem mapped_add (hk : k < f.room off) : f.mapped (off + k) ↔ f.mapped off := by
  by_cases hlt : off < f.dlen
  case pos =>
    rw [room, if_pos hlt] at hk
    exact iff_of_true (.inl (by omega)) (.inl hlt)
  case neg =>
    have hlt' : ¬off + k < f.dlen := by omega
    rw [mapped, mapped, (bno_add (Nat.not_lt.mp hlt) hk).left]
    exact or_congr (iff_of_false hlt' hlt) Iff.rfl

theorem stored_add (hk : k < f.room off) :
    f.stored (off + k) =
      if off < f.dlen then f.embed (f.embedattrsz + off + k)
      else f.block (f.bno off) ((off - f.dlen) % Dblkdatasz + k) := by
  by_cases hlt : off < f.dlen
  case pos =>
    rw [room, if_pos hlt] at hk
    rw [stored, if_pos (by omega), if_pos hlt, Nat.add_assoc]
  case neg =>
    have ⟨hb, hmod⟩ := bno_add (Nat.not_lt.mp hlt) hk
    rw [stored, if_neg (by omega), if_neg hlt, hb, hmod]

-- The length of the slice, within the file.
def slicelen (f : File) (len off : Nat) : Nat :=
  min (min (f.room off) len) (f.length - off)

theorem room_le : f.room off ≤ Dblkdatasz := by
  rw [room, dlen]
  split
  · simp only [Embedsz, Dblkdatasz, Ndptr, Niptr, Dblksz, Dblkhdrsz, Daddrsz]
    omega
  · exact Nat.sub_le ..

theorem clip_eq (len : Nat) (hlen : f.length ≤ f.capacity) (hoff : off < f.length) :
    (if uvlong (off + min (f.room off) len) > f.length then f.length - off else min (f.room off) len) =
      f.slicelen len off := by
  have hroom : f.room off ≤ Dblkdatasz := f.room_le
  have hu : uvlong (off + min (f.room off) len) = off + min (f.room off) len := by
    refine Nat.mod_eq_of_lt ?_
    simp only [capacity, dlen, Embedsz, Dblkdatasz, Ndptr, Niptr, Dblksz, Dblkhdrsz, Daddrsz] at *
    omega
  rw [hu, slicelen]
  split
  · omega
  · omega

theorem dfslice_eq_ok (len : Nat) (hlen : f.length ≤ f.capacity) (hoff : off < f.length) (hm : f.mapped off) :
    ∃ data : Option Data, f.dfslice len off = .ok { len := f.slicelen len off, data := data } ∧
      (f.solid off → data.isSome) ∧ ∀ k < f.room off, data.elim 0 (· k) = f.stored (off + k) := by
  have hclip := clip_eq len hlen hoff
  by_cases hlt : off < f.dlen
  case pos =>
    rw [room, if_pos hlt] at hclip
    refine ⟨some fun k => f.embed (f.embedattrsz + off + k), ?_, fun _ => rfl, fun k hk => ?_⟩
    · simp only [dfslice, if_neg (Nat.not_le.mpr hoff), if_pos hlt, ← hclip]
      rfl
    · rw [stored_add hk, if_pos hlt]
      rfl
  case neg =>
    have ⟨l, hl, hptr⟩ := hm.resolve_left hlt
    rw [room, if_neg hlt] at hclip
    have hblk : f.dfblk (ulong ((off - f.dlen) / Dblkdatasz)) = .ok (f.blk l) := by
      rw [bno] at hl
      simp [dfblk, hl, hptr, bind, Except.bind]
    refine ⟨(f.blk l).map fun d k => d ((off - f.dlen) % Dblkdatasz + k), ?_, fun hs => ?_, fun k hk => ?_⟩
    · simp only [dfslice, if_neg (Nat.not_le.mpr hoff), if_neg hlt, hblk, ← hclip]
      rfl
    · have ⟨l', hl', hb⟩ := hs.resolve_left hlt
      obtain rfl : l' = l := Except.ok.inj (hl'.symm.trans hl)
      simpa using hb
    · rw [stored_add hk, if_neg hlt, block_of_located (locate_eq_ok_iff.mp hl)]
      cases f.blk l <;> rfl

theorem dfslice_of_not_mapped (len : Nat) (hoff : off < f.length) (hm : ¬f.mapped off) :
    ∃ e, f.dfslice len off = .error e := by
  have ⟨hlt, hl⟩ := not_or.mp hm
  have hblk : ∃ e, f.dfblk (ulong ((off - f.dlen) / Dblkdatasz)) = .error e := by
    rw [dfblk]
    cases hloc : locate (f.bno off)
    case error e =>
      rw [bno] at hloc
      exact ⟨e, by rw [hloc]; rfl⟩
    case ok l =>
      have hptr : ¬f.ptr l := fun hp => hl ⟨l, hloc, hp⟩
      rw [bno] at hloc
      exact ⟨.fatal, by rw [hloc]; exact if_neg hptr⟩
  have ⟨e, he⟩ := hblk
  refine ⟨e, ?_⟩
  simp only [dfslice, if_neg (Nat.not_le.mpr hoff), if_neg hlt, he]
  rfl

theorem dfslice_past (hoff : f.length ≤ off) : f.dfslice len off = .ok { len := 0, data := none } := by
  simp only [dfslice, if_pos hoff]

end File

theorem stored_of_created (h : Created f) (k : Nat) : f.stored k = 0 := by
  rw [File.stored]
  split
  case isTrue => exact h.embed _ (Nat.le_add_right ..)
  case isFalse =>
    rw [File.block]
    cases locate (f.bno k)
    case error => rfl
    case ok l => cases l <;> simp [File.blk, h.dptr, h.iptr]

-- A new file with a name of one letter.
def new : File where
  dir    := false
  append := false
  asize  := 2
  length := 0
  embed  := fun k => if k = 0 then 97 else 0
  dptr _ := .nil
  iptr _ := .nil

theorem new_created : Created new where
  length := rfl
  embed  := fun k hk => if_neg (Nat.ne_of_gt (Nat.lt_of_lt_of_le (by decide) hk))
  dptr _ := rfl
  iptr _ := rfl

end Creepy.Fblk
