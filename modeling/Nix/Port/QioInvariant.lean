import Nix.Port.Qio

namespace Port.Qio

namespace Block

variable {b : Block} {p : List Byte}

theorem length_bytes (b : Block) : b.bytes.length = b.blen := by
  simp [bytes]

theorem bytes_fill (h : b.rp ≤ b.wp) : (b.fill p).bytes = b.bytes ++ p := by
  have hlen : (b.fill p).blen = b.blen + p.length := by
    simp only [fill, blen]
    omega
  have hwp : b.rp + b.blen = b.wp := by
    rw [blen]
    omega
  rw [bytes, hlen, ← List.range'_append_1, List.map_append]
  congr 1
  · refine List.map_congr_left fun k hk => overwrite_of_lt ?_
    have := (List.mem_range'_1.mp hk).right
    exact hwp ▸ this
  · simp only [fill, hwp]
    exact map_overwrite ..

theorem bytes_skip (b : Block) (n : Nat) : (b.skip n).bytes = b.bytes.drop n := by
  rw [bytes, bytes, ← List.map_drop, List.drop_range', Nat.mul_one]
  simp only [skip, blen, Nat.sub_sub]

theorem bytes_cut (h : n ≤ b.blen) : (b.cut n).bytes = b.bytes.take n := by
  rw [bytes, bytes, ← List.map_take, List.take_range'_of_length_ge h]
  simp [cut, blen]

theorem Ok.skip (h : b.Ok) (hn : n ≤ b.blen) : (b.skip n).Ok := by
  simp only [Ok, Block.skip, blen] at *
  omega

theorem Ok.fill (h : b.Ok) (hp : b.wp + p.length ≤ b.lim) : (b.fill p).Ok := by
  simp only [Ok, Block.fill] at *
  omega

theorem le_roundup (n : Nat) : n ≤ roundup n := by
  simp only [roundup, BLOCKALIGN]
  omega

theorem allocb_ok (h : BLOCKALIGN + roundup (size + Hdrspc) ≤ a) :
    (allocb a size).Ok ∧ (allocb a size).bytes = [] ∧ (allocb a size).wp + size ≤ (allocb a size).lim := by
  have := le_roundup size
  refine ⟨?_, by simp [allocb, bytes, blen], ?_⟩
  · simp only [Ok, allocb]
    simp only [roundup, BLOCKALIGN, Hdrspc] at *
    omega
  · simp only [allocb]
    simp only [roundup, BLOCKALIGN, Hdrspc] at *
    omega

end Block

namespace Queue

theorem freebs_eq (q : Queue) (as : List Addr) :
    q.freebs as = { q with trace := (as.map Entry.release).reverse ++ q.trace } := by
  induction as generalizing q with
  | nil => rfl
  | cons a as ih =>
    rw [freebs, List.foldl_cons, ← freebs, ih, List.map_cons, List.reverse_cons, List.append_assoc]
    rfl

theorem arrived_eq (q : Queue) (as : List Addr) :
    q.arrived as = { q with trace := (as.map Entry.acquire).reverse ++ q.trace } := by
  induction as generalizing q with
  | nil => rfl
  | cons a as ih =>
    rw [arrived, List.foldl_cons, ← arrived, ih, List.map_cons, List.reverse_cons, List.append_assoc]
    rfl

end Queue

-- What is in a list of blocks, and how much space they take.
def bytes (l : List (Addr × Block)) : List Byte :=
  l.flatMap (·.snd.bytes)

def blocklen (l : List (Addr × Block)) : Nat :=
  (l.map (·.snd.blen)).sum

def blockalloclen (l : List (Addr × Block)) : Nat :=
  (l.map (·.snd.balloc)).sum

@[simp] theorem bytes_nil : bytes [] = [] := rfl

@[simp] theorem bytes_cons (a : Addr) (b : Block) (l : List (Addr × Block)) : bytes ((a, b) :: l) = b.bytes ++ bytes l :=
  List.flatMap_cons

@[simp] theorem bytes_append (l m : List (Addr × Block)) : bytes (l ++ m) = bytes l ++ bytes m :=
  List.flatMap_append

@[simp] theorem blocklen_nil : blocklen [] = 0 := rfl

@[simp] theorem blocklen_cons (a : Addr) (b : Block) (l : List (Addr × Block)) :
    blocklen ((a, b) :: l) = b.blen + blocklen l := by
  simp [blocklen]

@[simp] theorem blocklen_append (l m : List (Addr × Block)) : blocklen (l ++ m) = blocklen l + blocklen m := by
  simp [blocklen]

@[simp] theorem blockalloclen_nil : blockalloclen [] = 0 := rfl

@[simp] theorem blockalloclen_cons (a : Addr) (b : Block) (l : List (Addr × Block)) :
    blockalloclen ((a, b) :: l) = b.balloc + blockalloclen l := by
  simp [blockalloclen]

@[simp] theorem blockalloclen_append (l m : List (Addr × Block)) :
    blockalloclen (l ++ m) = blockalloclen l + blockalloclen m := by
  simp [blockalloclen]

theorem length_bytes (l : List (Addr × Block)) : (bytes l).length = blocklen l := by
  simp [bytes, blocklen, List.length_flatMap, Block.length_bytes]

-- The blocks that a queue has, from some block on.
structure Chained (q : Queue) (l : List (Addr × Block)) : Prop where
  links : Follows q.next (l.map Prod.fst)
  blks  : ∀ x ∈ l, q.blk x.fst = x.snd ∧ x.snd.Ok
  live  : q.live.Perm (l.map Prod.fst)
  nodup : (l.map Prod.fst).Nodup

namespace Chained

variable {q q' : Queue} {l : List (Addr × Block)}

theorem same (h : Chained q l) (hn : q'.next = q.next) (hb : q'.blk = q.blk) (hl : q'.live = q.live) : Chained q' l where
  links := hn ▸ h.links
  blks  := hb ▸ h.blks
  live  := hl ▸ h.live
  nodup := h.nodup

theorem get (h : Chained q l) (hx : (a, b) ∈ l) : q.get a = some b := by
  have hmem : a ∈ q.live := h.live.mem_iff.mpr <| List.mem_map.mpr ⟨_, hx, rfl⟩
  rw [Queue.get, if_pos hmem, (h.blks _ hx).left]

theorem length (h : Chained q l) : q.live.length = l.length := by
  rw [h.live.length_eq, List.length_map]

theorem leave (h : Chained q ((a, b) :: l)) : Chained (q.leave a) l where
  links := h.links.right
  blks  := fun x hx => h.blks x <| List.mem_cons_of_mem _ hx
  live  := by
    have := h.live.erase a
    rwa [List.map_cons, List.erase_cons_head] at this
  nodup := (List.nodup_cons.mp h.nodup).right

theorem set (h : Chained q (l ++ (a, b) :: m)) (hb : b'.Ok) : Chained (q.set a b') (l ++ (a, b') :: m) := by
  have hmap : (l ++ (a, b') :: m).map Prod.fst = (l ++ (a, b) :: m).map Prod.fst := by simp
  have hne : ∀ x ∈ l ++ m, x.fst ≠ a := by
    have := h.nodup
    rw [List.map_append, List.map_cons, List.nodup_middle, List.nodup_cons, ← List.map_append] at this
    exact fun x hx he => this.left <| List.mem_map.mpr ⟨x, hx, he⟩
  refine ⟨hmap ▸ h.links, fun x hx => ?_, hmap ▸ h.live, hmap ▸ h.nodup⟩
  have hx : x = (a, b') ∨ x ∈ l ++ m := by simpa [or_left_comm] using hx
  rcases hx with rfl | hx
  · exact ⟨Function.update_self .., hb⟩
  · have hblk : (q.set a b').blk x.fst = q.blk x.fst := Function.update_of_ne (hne x hx) ..
    rw [hblk]
    refine h.blks x ?_
    rcases List.mem_append.mp hx with hx | hx
    · exact List.mem_append_left _ hx
    · exact List.mem_append_right _ <| List.mem_cons_of_mem _ hx

theorem leave_second (h : Chained q ((a, b) :: (c, d) :: l)) :
    Chained ((q.setnext a (q.next c)).leave c) ((a, b) :: l) := by
  have hn := h.nodup
  simp only [List.map_cons, List.nodup_cons, List.mem_cons, not_or] at hn
  refine ⟨⟨?_, h.links.right.right.congr fun x hx => ?_⟩, fun x hx => h.blks x ?_, ?_, ?_⟩
  · exact (Function.update_self ..).trans h.links.right.left
  · exact (Function.update_of_ne (ne_of_mem_of_not_mem hx hn.left.right) ..).symm
  · rcases List.mem_cons.mp hx with rfl | hx
    · exact List.mem_cons_self
    · exact List.mem_cons_of_mem _ <| List.mem_cons_of_mem _ hx
  · have := h.live.erase c
    rwa [List.map_cons, List.map_cons, List.erase_cons_tail (by simpa using hn.left.left), List.erase_cons_head] at this
  · exact List.nodup_cons.mpr ⟨hn.left.right, hn.right.right⟩

theorem linked_apply (hx : a ∉ bs.map Prod.fst) : Queue.linked next bs a = next a := by
  induction bs with
  | nil => rfl
  | cons x bs ih =>
    rw [List.map_cons, List.mem_cons, not_or] at hx
    rw [Queue.linked, Function.update_of_ne hx.left, ih hx.right]

theorem linked_follows (hn : (bs.map Prod.fst).Nodup) : Follows (Queue.linked next bs) (bs.map Prod.fst) := by
  induction bs with
  | nil => trivial
  | cons x bs ih =>
    rw [List.map_cons, List.nodup_cons] at hn
    have := (ih hn.right).cons hn.left
    rwa [List.head?_map] at this

theorem adopt_blk (hn : (bs.map Prod.fst).Nodup) (hx : x ∈ bs) : (q.adopt bs).blk x.fst = x.snd := by
  simp only [Queue.adopt]
  induction bs with
  | nil => exact nomatch hx
  | cons y bs ih =>
    rw [List.map_cons, List.nodup_cons] at hn
    rw [List.foldr_cons]
    rcases List.mem_cons.mp hx with rfl | hx
    · exact Function.update_self ..
    · have hne : x.fst ≠ y.fst := ne_of_mem_of_not_mem (List.mem_map.mpr ⟨x, hx, rfl⟩) hn.left
      rw [Function.update_of_ne hne, ih hn.right hx]

theorem adopt_blk_of_not_mem (hx : a ∉ bs.map Prod.fst) : (q.adopt bs).blk a = q.blk a := by
  simp only [Queue.adopt]
  induction bs with
  | nil => rfl
  | cons y bs ih =>
    rw [List.map_cons, List.mem_cons, not_or] at hx
    rw [List.foldr_cons, Function.update_of_ne hx.left, ih hx.right]

theorem disjoint (h : Chained q l) (hf : q.Fresh bs) : ((l ++ bs).map Prod.fst).Nodup := by
  rw [List.map_append]
  refine List.Nodup.append h.nodup hf.left fun a ha hb => ?_
  obtain ⟨x, hx, rfl⟩ := List.mem_map.mp hb
  exact (hf.right x hx).left <| h.live.mem_iff.mpr ha

theorem adopt (h : Chained q l) (hf : q.Fresh bs) :
    Chained { q.adopt bs with next := updateAt (q.adopt bs).next (l.map Prod.fst).getLast? (bs.map Prod.fst).head? } (l ++ bs) := by
  have hn := h.disjoint hf
  have hnot : ∀ a ∈ l.map Prod.fst, a ∉ bs.map Prod.fst := by
    rw [List.map_append] at hn
    exact fun a ha hb => (List.disjoint_of_nodup_append hn) ha hb
  refine ⟨?_, fun x hx => ?_, ?_, hn⟩
  · rw [List.map_append] at hn ⊢
    exact (h.links.congr fun a ha => (linked_apply (hnot a ha)).symm).append (linked_follows hf.left) hn
  · rcases List.mem_append.mp hx with hx | hx
    · have := adopt_blk_of_not_mem (q := q) (hnot x.fst <| List.mem_map.mpr ⟨x, hx, rfl⟩)
      exact ⟨this.trans (h.blks x hx).left, (h.blks x hx).right⟩
    · exact ⟨adopt_blk hf.left hx, (hf.right x hx).right⟩
  · rw [List.map_append]
    exact (h.live.append_left _).trans List.perm_append_comm

theorem enter (h : Chained q l) (hf : q.Fresh [(a, b)]) :
    Chained ((q.enter a b).setnext a (l.map Prod.fst).head?) ((a, b) :: l) := by
  have ⟨hnew, hok⟩ := hf.right (a, b) (List.mem_singleton_self _)
  have hnot : a ∉ l.map Prod.fst := fun hm => hnew <| h.live.mem_iff.mpr hm
  refine ⟨⟨Function.update_self .., h.links.congr fun c hc => ?_⟩, fun x hx => ?_, h.live.cons a, List.nodup_cons.mpr ⟨hnot, h.nodup⟩⟩
  · have hne := ne_of_mem_of_not_mem hc hnot
    simp [Queue.setnext, Queue.enter, hne]
  · rcases List.mem_cons.mp hx with rfl | hx
    · exact ⟨Function.update_self .., hok⟩
    · have hne : x.fst ≠ a := ne_of_mem_of_not_mem (List.mem_map.mpr ⟨x, hx, rfl⟩) hnot
      exact ⟨(Function.update_of_ne hne ..).trans (h.blks x hx).left, (h.blks x hx).right⟩

end Chained

-- A queue has a list of blocks, from `bfirst` to `blast`.
structure Queued (q : Queue) (l : List (Addr × Block)) : Prop extends Chained q l where
  bfirst : q.bfirst = (l.map Prod.fst).head?
  blast  : l ≠ [] → q.blast = (l.map Prod.fst).getLast?

namespace Queued

variable {q q' : Queue} {l : List (Addr × Block)}

theorem same (h : Queued q l)
    (hq : q' = { q with
      len := q'.len, dlen := q'.dlen, limit := q'.limit, inilim := q'.inilim, starve := q'.starve, msg := q'.msg,
      closed := q'.closed, flow := q'.flow, coalesce := q'.coalesce, noblock := q'.noblock, eof := q'.eof,
      err := q'.err, trace := q'.trace }) : Queued q' l := by
  rw [hq]
  exact { h with toChained := h.toChained.same rfl rfl rfl }

theorem unlink (h : Queued q ((a, b) :: l)) : Queued (q.unlink a b) l where
  toChained := h.toChained.leave.same rfl rfl rfl
  bfirst    := h.links.left
  blast hl := by
    have := h.blast (List.cons_ne_nil _ _)
    rwa [List.map_cons, List.getLast?_cons_of_ne_nil (by simpa using hl)] at this

theorem set (h : Queued q ((a, b) :: l)) (hb : b'.Ok) : Queued (q.set a b') ((a, b') :: l) where
  toChained := h.toChained.set (l := []) hb
  bfirst    := h.bfirst
  blast _   := h.blast (List.cons_ne_nil _ _)

theorem get (h : Queued q ((a, b) :: l)) : q.get a = some b :=
  h.toChained.get List.mem_cons_self

theorem link (h : Queued q l) :
    (q.adopt bs).link a = some { q.adopt bs with
      bfirst := q.bfirst.or (some a),
      next   := updateAt (q.adopt bs).next (l.map Prod.fst).getLast? (some a) } := by
  rw [Queue.link]
  have hfirst : (q.adopt bs).bfirst = q.bfirst := rfl
  rcases List.eq_nil_or_concat' l with rfl | ⟨l, ⟨z, b⟩, rfl⟩
  · rw [hfirst, h.bfirst]
    rfl
  · have hlast : q.blast = some z := by
      rw [h.blast (by simp)]
      simp
    have hz : z ∈ (q.adopt bs).live :=
      List.mem_append_right _ <| h.live.mem_iff.mpr <| List.mem_map.mpr ⟨(z, b), by simp, rfl⟩
    obtain ⟨f, hf⟩ : ∃ f, q.bfirst = some f := by
      rw [h.bfirst]
      cases l <;> exact ⟨_, rfl⟩
    have hget : (q.adopt bs).get z = some ((q.adopt bs).blk z) := if_pos hz
    have hblast : (q.adopt bs).blast = some z := hlast
    rw [hfirst, hf, hblast]
    simp [hget, Queue.setnext, updateAt, hfirst, hf]

theorem addlist (h : Queued q l) (hf : q.Fresh bs) (hne : bs ≠ []) :
    ∃ q', q.addlist bs = some q' ∧ Queued q' (l ++ bs) ∧ q'.len = int32 (q.len + blockalloclen bs) ∧
      q'.dlen = int32 (q.dlen + blocklen bs) ∧ q'.msg = q.msg ∧ q'.coalesce = q.coalesce ∧
      q'.live = bs.map Prod.fst ++ q.live ∧ q'.trace = q.trace := by
  obtain ⟨⟨a, b⟩, t, rfl⟩ := List.exists_cons_of_ne_nil hne
  simp only [Queue.addlist, List.head?_cons, Option.bind_eq_bind, Option.bind_some, h.link]
  refine ⟨_, rfl, ⟨(h.toChained.adopt hf).same rfl rfl rfl, ?_, fun _ => ?_⟩, rfl, rfl, rfl, rfl, rfl, rfl⟩
  · change q.bfirst.or (some a) = _
    rw [h.bfirst]
    cases l <;> rfl
  · change (((a, b) :: t).getLast?).map Prod.fst = _
    rw [List.getLast?_map, List.getLast?_append, List.getLast?_eq_some_getLast (List.cons_ne_nil _ _), Option.some_or]

theorem qputback (h : Queued q l) (hf : q.Fresh [(a, b)]) : Queued (q.qputback a b) ((a, b) :: l) where
  toChained := (h.bfirst ▸ h.toChained.enter hf).same rfl rfl rfl
  bfirst    := rfl
  blast _ := by
    change (if q.bfirst = none then some a else q.blast) = _
    by_cases hl : l = []
    case pos => simp [h.bfirst, hl]
    case neg =>
      have hne : q.bfirst ≠ none := by simpa [h.bfirst] using hl
      rw [if_neg hne, h.blast hl, List.map_cons, List.getLast?_cons_of_ne_nil (by simpa using hl)]

end Queued

-- A queue of some kind counts its blocks right.
structure Rep (m c : Bool) (q : Queue) (l : List (Addr × Block)) : Prop extends Queued q l where
  len      : q.len = int32 (blockalloclen l)
  dlen     : q.dlen = int32 (blocklen l)
  msg      : q.msg = m
  coalesce : q.coalesce = c

namespace Rep

variable {q q' : Queue} {l : List (Addr × Block)}

theorem same (h : Rep m c q l)
    (hq : q' = { q with
      limit := q'.limit, inilim := q'.inilim, starve := q'.starve, closed := q'.closed,
      flow := q'.flow, noblock := q'.noblock, eof := q'.eof, err := q'.err, trace := q'.trace }) :
    Rep m c q' l := by
  rw [hq]
  exact { h with toQueued := h.toQueued.same rfl }

theorem freebs (h : Rep m c q l) : Rep m c (q.freebs as) l := by
  rw [Queue.freebs_eq]
  exact h.same rfl

theorem arrived (h : Rep m c q l) : Rep m c (q.arrived as) l := by
  rw [Queue.arrived_eq]
  exact h.same rfl

theorem unlink (h : Rep m c q ((a, b) :: l)) : Rep m c (q.unlink a b) l where
  toQueued := h.toQueued.unlink
  len := by
    change int32 (q.len - b.balloc) = _
    rw [h.len, int32_sub, blockalloclen_cons]
    congr 1
    omega
  dlen := by
    change int32 (q.dlen - b.blen) = _
    rw [h.dlen, int32_sub, blocklen_cons]
    congr 1
    omega
  msg      := h.msg
  coalesce := h.coalesce

theorem skip (h : Rep m c q ((a, b) :: l)) (hn : n ≤ b.blen) :
    Rep m c { q.set a (b.skip n) with dlen := int32 (q.dlen - n) } ((a, b.skip n) :: l) where
  toQueued := (h.toQueued.set ((h.blks _ List.mem_cons_self).right.skip hn)).same rfl
  len      := h.len
  dlen := by
    change int32 (q.dlen - n) = _
    have : (b.skip n).blen + n = b.blen := by
      simp only [Block.skip, Block.blen] at *
      omega
    rw [h.dlen, int32_sub, blocklen_cons, blocklen_cons]
    congr 1
    omega
  msg      := h.msg
  coalesce := h.coalesce

theorem addlist (h : Rep m c q l) (hf : q.Fresh bs) (hne : bs ≠ []) :
    ∃ q', q.addlist bs = some q' ∧ Rep m c q' (l ++ bs) := by
  obtain ⟨q', hq, h', hlen, hdlen, hmsg, hcoalesce, -⟩ := h.toQueued.addlist hf hne
  refine ⟨q', hq, h', ?_, ?_, hmsg.trans h.msg, hcoalesce.trans h.coalesce⟩
  · rw [hlen, h.len, int32_add, blockalloclen_append]
    rfl
  · rw [hdlen, h.dlen, int32_add, blocklen_append]
    rfl

theorem put (h : Rep m c q l) (hf : q.Fresh [(a, b)]) : ∃ q', q.put a b = some q' ∧ Rep m c q' (l ++ [(a, b)]) := by
  obtain ⟨q', hq, h'⟩ := h.addlist hf (List.cons_ne_nil _ _)
  have heq : q.put a b = (q.addlist [(a, b)]).map fun q => { q with starve := false } := by
    simp [Queue.put, Queue.addlist, show q.enter a b = q.adopt [(a, b)] from rfl, Option.map_bind, Function.comp_def]
  rw [heq, hq]
  exact ⟨_, rfl, h'.same rfl⟩

theorem qputback (h : Rep m c q l) (hf : q.Fresh [(a, b)]) : Rep m c (q.qputback a b) ((a, b) :: l) where
  toQueued := h.toQueued.qputback hf
  len := by
    change int32 (q.len + b.balloc) = _
    rw [h.len, int32_add, blockalloclen_cons]
    congr 1
    omega
  dlen := by
    change int32 (q.dlen + b.blen) = _
    rw [h.dlen, int32_add, blocklen_cons]
    congr 1
    omega
  msg      := h.msg
  coalesce := h.coalesce

end Rep

end Port.Qio
