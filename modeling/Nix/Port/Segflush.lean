import Nix.Port.SegmentRuns

namespace Port.Segment

open Sysseg Rows

variable {P : Type}

section

variable [DecidableEq P]

def txtflush (page : P → Page) (pg : P) : P → Page :=
  Function.update page pg { page pg with cachectl := fun _ => PG_TXTFLUSH }

-- The loop of `pteflush` over `n` places from `i` on. What lies past the end of a map is no page.
def pteflush (row : List (Option P)) : Nat → Nat → (P → Page) → Except Fault (P → Page)
  | 0, _, page => .ok page
  | n + 1, i, page =>
    match row[i]? with
    | none           => .error .nil
    | some none      => pteflush row n (i + 1) page
    | some (some pg) => pteflush row n (i + 1) (txtflush page pg)

-- The part of the range from `addr` on that is in one map of a segment: its pages are to be flushed.
def chunkflush (s : Seg P) (page : P → Page) (addr len : Nat) : Except Fault (Nat × (P → Page)) :=
  let l := if s.top < uintptr (addr + len) then usize (minus s.top addr) else len
  let ps := usize (minus addr s.base)
  match s.map[ps / PTEMAPMEM]? with
  | none     => .error .nil
  | some pte =>
    let ps := ps % PTEMAPMEM
    let pe := if l < PTEMAPMEM - ps then (ps + l + BIGPGSZ - 1) / BIGPGSZ * BIGPGSZ else PTEMAPMEM
    if pe = ps then
      .error (.error Ebadarg)
    else do
      let page ←
        match pte with
        | none     => .ok page
        | some pte => pteflush pte.pages (pe / BIGPGSZ - ps / BIGPGSZ) (ps / BIGPGSZ) page
      return (pe - ps, page)

-- The loops of `syssegflush`: in the inner one there is a segment that `addr` is in. The segments that are
-- found are to be flushed when pages come to them.
def segflush (p : Segs P) :
    Nat → Option SegNo → List SegNo → (P → Page) → Nat → Nat → Option (Except Fault (List SegNo × (P → Page)))
  | 0, _, _, _, _, _ => none
  | fuel + 1, none, flushme, page, addr, len =>
    if len = 0 then
      some (.ok (flushme, page))
    else
      match segno p addr with
      | none   => some (.error (.error Ebadarg))
      | some i => segflush p fuel (some i) (i :: flushme) page addr len
  | fuel + 1, some i, flushme, page, addr, len =>
    match p i with
    | none   => some (.error .nil)
    | some s =>
      match chunkflush s page addr len with
      | .error e          => some (.error e)
      | .ok (chunk, page) =>
        let len := usize (len + 2 ^ 32 - chunk)
        let addr := uintptr (addr + chunk)
        segflush p fuel (if 0 < len ∧ addr < s.top then some i else none) flushme page addr len

def setflush (p : Segs P) (flushme : List SegNo) : Segs P := fun i =>
  (p i).map fun s => { s with flushme := s.flushme || flushme.contains i }

-- What the call returns, if it returns.
def syssegflush (p : Segs P) (page : P → Page) (addr len : Nat) (r : Except Fault (Segs P × (P → Page))) : Prop :=
  ∃ fuel, (segflush p fuel none [] page (uintptr addr) (usize len)).map (·.map fun r => (setflush p r.fst, r.snd)) = some r

end

def Page.flushed (pg : Page) : Page :=
  { pg with cachectl := fun _ => PG_TXTFLUSH }

namespace Seg

variable (s : Seg P) (soff : Nat)

-- The page that the loops look at for a place that is `soff` bytes into the segment.
def seen : Option P :=
  s.map[soff % 2 ^ 32 / PTEMAPMEM]?.join.bind fun pte => pte.pages[soff % PTEMAPMEM / BIGPGSZ]?.join

-- They do not look past the end of a map.
def Inside : Prop :=
  ∀ pte ∈ s.map[soff % 2 ^ 32 / PTEMAPMEM]?.join, soff % PTEMAPMEM / BIGPGSZ < pte.pages.length

end Seg

section

variable [DecidableEq P] {row : List (Option P)} {page : P → Page} {i n : Nat}

theorem foldl_txtflush (list : List P) (page : P → Page) (q : P) :
    list.foldl txtflush page q = if q ∈ list then (page q).flushed else page q := by
  induction list generalizing page
  case nil => rfl
  case cons pg list ih =>
    rw [List.foldl_cons, ih, txtflush]
    by_cases hq : q = pg
    · subst hq
      simp [Page.flushed]
    · simp [hq]

theorem pteflush_eq (h : i + n ≤ row.length) :
    pteflush row n i page = .ok ((found i (i + n) row).foldl txtflush page) := by
  induction n generalizing i page
  case zero =>
    rw [Nat.add_zero, found_of_le (Nat.le_refl _)]
    rfl
  case succ n ih =>
    have hi : i < row.length := by omega
    rw [pteflush, found_eq (show i < i + (n + 1) by omega), show i + (n + 1) = i + 1 + n by omega,
      List.getElem?_eq_getElem hi]
    cases row[i] <;> exact ih (by omega)

theorem pteflush_error (h : row.length < i + n) (hn : 0 < n) : pteflush row n i page = .error .nil := by
  induction n generalizing i page
  case zero => omega
  case succ n ih =>
    rw [pteflush]
    by_cases hlt : i < row.length
    · rw [List.getElem?_eq_getElem hlt]
      cases row[i] <;> exact ih (by omega) (by omega)
    · rw [List.getElem?_eq_none (by omega)]

end

theorem bigpgsz_dvd_pgsz {s : Segment} (h : s.pgszi ≠ .small) : BIGPGSZ ∣ s.pgsz := by
  unfold Segment.pgsz
  cases hp : s.pgszi
  case small => exact absurd hp h
  case big   => exact Nat.dvd_refl _
  case huge  => decide

-- A turn of the inner loop in a segment, for a range that ends at the end of a page of 2 MiB.
structure Turn (s : Seg P) (addr len : Nat) : Prop where
  laid  : Laid s
  bound : s.top < 2 ^ 64
  lo    : s.base ≤ addr
  hi    : addr < s.top
  pos   : 0 < len
  small : len < 2 ^ 32
  stop  : addr + len < 2 ^ 64
  whole : BIGPGSZ ∣ addr + len

-- Where the turn ends: at the end of the range, of the segment or of the map.
def turn (s : Seg P) (addr len : Nat) : Nat :=
  min (min len (s.top - addr)) (PTEMAPMEM - (addr - s.base) % PTEMAPMEM)

namespace Turn

variable {s : Seg P} {addr len a : Nat}

theorem bounds (h : Turn s addr len) : 0 < turn s addr len ∧ turn s addr len ≤ len ∧
    addr + turn s addr len ≤ s.top ∧ (addr - s.base) % PTEMAPMEM + turn s addr len ≤ PTEMAPMEM := by
  have hm := Nat.mod_lt (addr - s.base) (by decide : 0 < PTEMAPMEM)
  have hhi := h.hi
  have hpos := h.pos
  unfold turn
  omega

theorem base_dvd (h : Turn s addr len) : BIGPGSZ ∣ s.base :=
  (bigpgsz_dvd_pgsz h.laid.pgszi).trans h.laid.base

theorem top_dvd (h : Turn s addr len) : BIGPGSZ ∣ s.top :=
  (bigpgsz_dvd_pgsz h.laid.pgszi).trans h.laid.whole

theorem dvd (h : Turn s addr len) : BIGPGSZ ∣ (addr - s.base) % PTEMAPMEM + turn s addr len := by
  have hm := Nat.mod_lt (addr - s.base) (by decide : 0 < PTEMAPMEM)
  have hb := h.base_dvd
  have ht := h.top_dvd
  have hd := h.whole
  have hlo := h.lo
  have hhi := h.hi
  unfold turn
  unfold BIGPGSZ PTEMAPMEM GiB at *
  omega

theorem place (h : Turn s addr len) (ha : addr ≤ a) (han : a < addr + turn s addr len) :
    (a - s.base) % 2 ^ 32 / PTEMAPMEM = (addr - s.base) % 2 ^ 32 / PTEMAPMEM ∧
    (a - s.base) % PTEMAPMEM = (addr - s.base) % PTEMAPMEM + (a - addr) := by
  obtain ⟨-, -, -, hn⟩ := h.bounds
  have hlo := h.lo
  generalize turn s addr len = n at *
  unfold PTEMAPMEM GiB at *
  omega

theorem map (h : Turn s addr len) : (addr - s.base) % 2 ^ 32 / PTEMAPMEM < s.map.length := by
  have hroom := h.laid.room
  have hlo := h.lo
  have hhi := h.hi
  refine Nat.div_lt_of_lt_mul ?_
  rw [Nat.mul_comm]
  omega

theorem exists_addr (h : Turn s addr len) {j : Nat} (hj : (addr - s.base) % PTEMAPMEM / BIGPGSZ ≤ j)
    (hj' : j < ((addr - s.base) % PTEMAPMEM + turn s addr len) / BIGPGSZ) :
    ∃ a, addr ≤ a ∧ a < addr + turn s addr len ∧ (a - s.base) % PTEMAPMEM / BIGPGSZ = j := by
  obtain ⟨hpos, -, -, hn⟩ := h.bounds
  refine ⟨addr + (j * BIGPGSZ - (addr - s.base) % PTEMAPMEM), Nat.le_add_right _ _, ?_, ?_⟩
  · generalize turn s addr len = n at *
    unfold BIGPGSZ at *
    omega
  · rw [(h.place (Nat.le_add_right _ _) ?_).right]
    · unfold BIGPGSZ at *
      omega
    · generalize turn s addr len = n at *
      unfold BIGPGSZ at *
      omega

theorem addr_entry (h : Turn s addr len) (ha : addr ≤ a) (han : a < addr + turn s addr len) :
    (addr - s.base) % PTEMAPMEM / BIGPGSZ ≤ (a - s.base) % PTEMAPMEM / BIGPGSZ ∧
    (a - s.base) % PTEMAPMEM / BIGPGSZ < ((addr - s.base) % PTEMAPMEM + turn s addr len) / BIGPGSZ := by
  have hd := h.dvd
  rw [(h.place ha han).right]
  generalize turn s addr len = n at *
  unfold BIGPGSZ at *
  omega

theorem seen_eq {pte : Option (Pte P)} (h : Turn s addr len)
    (hm : s.map[(addr - s.base) % 2 ^ 32 / PTEMAPMEM]? = some pte) (ha : addr ≤ a) (han : a < addr + turn s addr len) :
    s.seen (a - s.base) = pte.bind fun pte => pte.pages[(a - s.base) % PTEMAPMEM / BIGPGSZ]?.join := by
  rw [Seg.seen, (h.place ha han).left, hm]
  rfl

theorem inside_iff {pte : Option (Pte P)} (h : Turn s addr len)
    (hm : s.map[(addr - s.base) % 2 ^ 32 / PTEMAPMEM]? = some pte) (ha : addr ≤ a) (han : a < addr + turn s addr len) :
    s.Inside (a - s.base) ↔ ∀ pte' ∈ pte, (a - s.base) % PTEMAPMEM / BIGPGSZ < pte'.pages.length := by
  rw [Seg.Inside, (h.place ha han).left, hm]
  rfl

section

variable [DecidableEq P]

theorem chunkflush_eq {pte : Option (Pte P)} (page : P → Page) (h : Turn s addr len)
    (hm : s.map[(addr - s.base) % 2 ^ 32 / PTEMAPMEM]? = some pte) :
    let ps := (addr - s.base) % PTEMAPMEM
    let pe := ps + turn s addr len
    chunkflush s page addr len =
      (pte.elim (.ok page) fun pte => pteflush pte.pages (pe / BIGPGSZ - ps / BIGPGSZ) (ps / BIGPGSZ) page).map
        (turn s addr len, ·) := by
  obtain ⟨hpos, -, -, hpe⟩ := h.bounds
  have hhi := h.hi
  have hl32 := h.small
  have hend := h.stop
  have hdvd := h.dvd
  have hlen : (if s.top < uintptr (addr + len) then usize (minus s.top addr) else len) = min len (s.top - addr) := by
    unfold uintptr usize
    rw [minus_eq hhi.le h.bound]
    split <;> omega
  have hps : usize (minus addr s.base) = (addr - s.base) % 2 ^ 32 := by
    rw [minus_eq h.lo (hhi.trans h.bound)]
    rfl
  have hps' : (addr - s.base) % 2 ^ 32 % PTEMAPMEM = (addr - s.base) % PTEMAPMEM := by
    unfold PTEMAPMEM GiB
    omega
  have hround : (if min len (s.top - addr) < PTEMAPMEM - (addr - s.base) % PTEMAPMEM then
      ((addr - s.base) % PTEMAPMEM + min len (s.top - addr) + BIGPGSZ - 1) / BIGPGSZ * BIGPGSZ else PTEMAPMEM) =
      (addr - s.base) % PTEMAPMEM + turn s addr len := by
    have hmod := Nat.mod_lt (addr - s.base) (by decide : 0 < PTEMAPMEM)
    unfold turn at hdvd ⊢
    unfold BIGPGSZ at *
    split <;> omega
  simp only [chunkflush, hlen, hps, hm, hps', hround]
  rw [if_neg (by omega), Nat.add_sub_cancel_left]
  cases pte <;> rfl

theorem inside (h : Turn s addr len)
    (hin : ∀ a, addr ≤ a → a < addr + turn s addr len → s.Inside (a - s.base)) (page : P → Page) :
    ∃ page', chunkflush s page addr len = .ok (turn s addr len, page') ∧ ∀ q,
      ((∃ a, addr ≤ a ∧ a < addr + turn s addr len ∧ s.seen (a - s.base) = some q) → page' q = (page q).flushed) ∧
      ((∀ a, addr ≤ a → a < addr + turn s addr len → s.seen (a - s.base) ≠ some q) → page' q = page q) := by
  obtain ⟨pte, hm⟩ : ∃ pte, s.map[(addr - s.base) % 2 ^ 32 / PTEMAPMEM]? = some pte := ⟨_, List.getElem?_eq_getElem h.map⟩
  have heq := h.chunkflush_eq page hm
  have hseen (a : Nat) := h.seen_eq (a := a) hm
  cases pte
  case none =>
    refine ⟨page, heq, fun q => ⟨?_, fun _ => rfl⟩⟩
    rintro ⟨a, ha, han, hs⟩
    rw [hseen a ha han] at hs
    cases hs
  case some pte =>
    obtain ⟨hpos, -, -, -⟩ := h.bounds
    have hlt := (h.addr_entry (Nat.le_refl addr) (by omega)).right
    -- The last place that is looked at is in the map.
    have hlen : ((addr - s.base) % PTEMAPMEM + turn s addr len) / BIGPGSZ ≤ pte.pages.length := by
      obtain ⟨a, ha, han, he⟩ := h.exists_addr (Nat.le_sub_one_of_lt hlt) (Nat.sub_one_lt (Nat.ne_zero_of_lt hlt))
      have := (h.inside_iff hm ha han).mp (hin a ha han) pte rfl
      omega
    have hmem (q : P) : q ∈ found ((addr - s.base) % PTEMAPMEM / BIGPGSZ)
        (((addr - s.base) % PTEMAPMEM + turn s addr len) / BIGPGSZ) pte.pages ↔
        ∃ a, addr ≤ a ∧ a < addr + turn s addr len ∧ s.seen (a - s.base) = some q := by
      rw [mem_found]
      constructor
      · rintro ⟨j, hj, hq⟩
        obtain ⟨a, ha, han, rfl⟩ := h.exists_addr hj.left hj.right
        exact ⟨a, ha, han, (hseen a ha han).trans hq⟩
      · rintro ⟨a, ha, han, hq⟩
        exact ⟨_, h.addr_entry ha han, (hseen a ha han).symm.trans hq⟩
    simp only [Option.elim_some] at heq
    rw [pteflush_eq (by omega), Nat.add_sub_cancel' hlt.le] at heq
    refine ⟨_, heq, fun q => ⟨fun hq => ?_, fun hq => ?_⟩⟩
    · rw [foldl_txtflush, if_pos ((hmem q).mpr hq)]
    · rw [foldl_txtflush, if_neg fun hm => ?_]
      obtain ⟨a, ha, han, hs⟩ := (hmem q).mp hm
      exact hq a ha han hs

theorem outside (h : Turn s addr len) (ha : addr ≤ a) (han : a < addr + turn s addr len)
    (hout : ¬s.Inside (a - s.base)) (page : P → Page) : ∃ e, chunkflush s page addr len = .error e := by
  obtain ⟨pte, hm⟩ : ∃ pte, s.map[(addr - s.base) % 2 ^ 32 / PTEMAPMEM]? = some pte := ⟨_, List.getElem?_eq_getElem h.map⟩
  rw [h.inside_iff hm ha han] at hout
  cases pte
  case none     => exact absurd (by simp) hout
  case some pte =>
    obtain ⟨hlo, hhi⟩ := h.addr_entry ha han
    have hge : pte.pages.length ≤ (a - s.base) % PTEMAPMEM / BIGPGSZ := by simpa using hout
    refine ⟨.nil, (h.chunkflush_eq page hm).trans ?_⟩
    simp only [Option.elim_some]
    rw [pteflush_error (by omega) (by omega)]
    rfl

end

end Turn

-- The segments are laid out in the address space, and no page is at two places of it.
structure Sound (p : Segs P) : Prop where
  laid  : ∀ i, ∀ s ∈ p i, Laid s
  space : AddressSpace (plain p)
  once  : ∀ i j s t k l q, p i = some s → p j = some t → s.slot k = some q → t.slot l = some q → i = j ∧ k = l

-- The segment has the address.
def Has (p : Segs P) (i : SegNo) (s : Seg P) (a : Nat) : Prop :=
  p i = some s ∧ s.base ≤ a ∧ a < s.top

def Valid (p : Segs P) (va len : Nat) : Prop :=
  ∀ a, va ≤ a → a < va + len → ∃ i s, Has p i s a

-- The page that is mapped at an address, and the one that is looked at for it.
def Mapped (p : Segs P) (a : Nat) (q : P) : Prop :=
  ∃ i s, Has p i s a ∧ s.slot (s.slotno (a - s.base)) = some q

def Seen (p : Segs P) (a : Nat) (q : P) : Prop :=
  ∃ i s, Has p i s a ∧ s.seen (a - s.base) = some q

def Inside (p : Segs P) (a : Nat) : Prop :=
  ∀ i s, Has p i s a → s.Inside (a - s.base)

section

variable {p : Segs P} {i j : SegNo} {s t : Seg P} {a addr len n : Nat}

theorem has_of_segno (h : segno p a = some i) : ∃ s, Has p i s a := by
  rw [segno] at h
  have hf := List.find?_some h
  rw [decide_eq_true_iff] at hf
  obtain ⟨s, hs, hb⟩ := hf
  obtain ⟨s, hp, rfl⟩ := Option.map_eq_some_iff.mp hs
  exact ⟨s, hp, hb⟩

theorem segno_of_has (h : Has p i s a) : ∃ j, segno p a = some j := by
  rw [← Option.isSome_iff_exists, segno, List.find?_isSome]
  refine ⟨i, SegNo.mem_all i, decide_eq_true ⟨s.toSegment, ?_, h.right⟩⟩
  rw [plain, h.left]
  rfl

namespace Sound

theorem has_unique (hp : Sound p) (h : Has p i s a) (h' : Has p j t a) : i = j ∧ s = t := by
  have hij : i = j := by
    by_contra hne
    have hd := hp.space.disjoint i j hne s.toSegment (by rw [plain, h.left]; rfl) t.toSegment (by rw [plain, h'.left]; rfl)
    rw [ico_disjoint] at hd
    have := h.right
    have := h'.right
    omega
  subst hij
  exact ⟨rfl, Option.some.inj (h.left.symm.trans h'.left)⟩

theorem bound (hp : Sound p) (hs : p i = some s) : s.top ≤ KZERO :=
  (hp.space.within i s.toSegment (by rw [plain, hs]; rfl)).right.right

theorem turn (hp : Sound p) (hs : Has p i s addr) (hv : Valid p addr len) (hl : 0 < len) (hl32 : len < 2 ^ 32)
    (hd : BIGPGSZ ∣ addr + len) : Turn s addr len := by
  have hk := hp.bound hs.left
  obtain ⟨j, t, ht⟩ := hv (addr + len - 1) (by omega) (by omega)
  have hk' := (ht.right.right).trans_le (hp.bound ht.left)
  unfold KZERO at hk hk'
  exact ⟨hp.laid i s hs.left, by omega, hs.right.left, hs.right.right, hl, hl32, by omega, hd⟩

-- In a segment, what is seen at an address is what the segment sees there.
theorem seen_iff (hp : Sound p) (hs : Has p i s a) (q : P) : Seen p a q ↔ s.seen (a - s.base) = some q := by
  constructor
  · rintro ⟨j, t, ht, hq⟩
    obtain ⟨-, rfl⟩ := hp.has_unique hs ht
    exact hq
  · exact fun hq => ⟨i, s, hs, hq⟩

theorem inside_iff (hp : Sound p) (hs : Has p i s a) : Inside p a ↔ s.Inside (a - s.base) := by
  constructor
  · exact fun h => h i s hs
  · intro h j t ht
    obtain ⟨-, rfl⟩ := hp.has_unique hs ht
    exact h

end Sound

theorem Valid.drop (h : Valid p addr len) (n : Nat) : Valid p (addr + n) (len - n) :=
  fun a ha han => h a (by omega) (by omega)

end

-- The pages of a range have been flushed, and no others.
def Marks (seen : P → Prop) (page page' : P → Page) : Prop :=
  ∀ q, (seen q → page' q = (page q).flushed) ∧ (¬seen q → page' q = page q)

theorem Marks.trans {seen seen' : P → Prop} {page page' page'' : P → Page} (h : Marks seen page page')
    (h' : Marks seen' page' page'') : Marks (fun q => seen q ∨ seen' q) page page'' := by
  intro q
  constructor
  · intro hs
    by_cases hq : seen' q
    · rw [(h' q).left hq]
      by_cases hq : seen q
      · rw [(h q).left hq]
        rfl
      · rw [(h q).right hq]
    · rw [(h' q).right hq, (h q).left (hs.resolve_right hq)]
  · intro hs
    rw [not_or] at hs
    rw [(h' q).right hs.right, (h q).right hs.left]

theorem Marks.congr {seen seen' : P → Prop} {page page' : P → Page} (h : Marks seen page page')
    (he : ∀ q, seen q ↔ seen' q) : Marks seen' page page' := by
  obtain rfl : seen = seen' := funext fun q => propext (he q)
  exact h

-- A page that is not to be flushed.
def blank : Page where
  va       := 0
  ref      := 0
  pgszi    := .big
  color    := NOCOLOR
  cachectl := fun _ => 0

theorem Marks.iff {seen : P → Prop} {page' : P → Page} (h : Marks seen (fun _ => blank) page') (q : P) :
    seen q ↔ page' q ≠ blank := by
  have hne : blank.flushed ≠ blank := fun he => absurd (congrArg (fun pg : Page => pg.cachectl 0) he) (by decide)
  by_cases hq : seen q
  · rw [(h q).left hq]
    exact ⟨fun _ => hne, fun _ => hq⟩
  · rw [(h q).right hq]
    exact ⟨fun hs => absurd hs hq, fun hn => absurd rfl hn⟩

section

variable [DecidableEq P] {p : Segs P} {cur : Option SegNo} {i : SegNo} {s : Seg P} {page page' : P → Page}
variable {flushme flushme' : List SegNo} {addr len chunk fuel fuel' n : Nat} {r : Except Fault (List SegNo × (P → Page))}

theorem segflush_mono (h : segflush p fuel cur flushme page addr len = some r) (hle : fuel ≤ fuel') :
    segflush p fuel' cur flushme page addr len = some r := by
  induction fuel generalizing fuel' cur flushme page addr len
  case zero => cases cur <;> cases h
  case succ fuel ih =>
    obtain ⟨fuel', rfl⟩ := Nat.exists_eq_add_of_le' (Nat.le_trans (Nat.le_add_left 1 fuel) hle)
    rw [Nat.add_le_add_iff_right] at hle
    cases cur
    case none =>
      rw [segflush] at h ⊢
      split
      case isTrue hl => rwa [if_pos hl] at h
      case isFalse hl =>
        rw [if_neg hl] at h
        cases hs : segno p addr
        case none   => rwa [hs] at h
        case some i => exact ih (by rwa [hs] at h) hle
    case some i =>
      rw [segflush] at h ⊢
      cases hs : p i
      case none   => rwa [hs] at h
      case some s =>
        rw [hs] at h
        dsimp only at h ⊢
        cases hc : chunkflush s page addr len
        case error e => rwa [hc] at h
        case ok c =>
          rw [hc] at h
          exact ih h hle

theorem segflush_unique {r' : Except Fault (List SegNo × (P → Page))}
    (h : segflush p fuel cur flushme page addr len = some r)
    (h' : segflush p fuel' cur flushme page addr len = some r') : r = r' := by
  have hm := segflush_mono h (Nat.le_max_left fuel fuel')
  exact Option.some.inj (hm.symm.trans (segflush_mono h' (Nat.le_max_right fuel fuel')))

theorem segflush_turn (hs : Has p i s addr) (ht : Turn s addr len)
    (hc : chunkflush s page addr len = .ok (turn s addr len, page')) :
    segflush p (fuel + 1) (some i) flushme page addr len =
      segflush p fuel (if 0 < len - turn s addr len ∧ addr + turn s addr len < s.top then some i else none) flushme
        page' (addr + turn s addr len) (len - turn s addr len) := by
  obtain ⟨-, hle, -, -⟩ := ht.bounds
  have hlen : usize (len + 2 ^ 32 - turn s addr len) = len - turn s addr len := by
    have := ht.small
    unfold usize
    omega
  have haddr : uintptr (addr + turn s addr len) = addr + turn s addr len := by
    have := ht.stop
    exact Nat.mod_eq_of_lt (by omega)
  rw [segflush, hs.left]
  simp only [hc, hlen, haddr]

-- What is flushed is what is seen in the range, if the loops do not look past the end of a map.
theorem segflush_inside (flushme : List SegNo) (page : P → Page) (hp : Sound p) (hs : Has p i s addr) (hv : Valid p addr len) (hl : 0 < len)
    (hl32 : len < 2 ^ 32) (hd : BIGPGSZ ∣ addr + len) (hin : ∀ a, addr ≤ a → a < addr + len → Inside p a) :
    ∃ fuel flushme' page', segflush p fuel (some i) flushme page addr len = some (.ok (flushme', page')) ∧
      Marks (fun q => ∃ a, addr ≤ a ∧ a < addr + len ∧ Seen p a q) page page' := by
  induction len using Nat.strong_induction_on generalizing addr i s flushme page
  case h len ih =>
    have ht := hp.turn hs hv hl hl32 hd
    obtain ⟨hpos, hle, htop, -⟩ := ht.bounds
    have hhas (a : Nat) (ha : addr ≤ a) (han : a < addr + turn s addr len) : Has p i s a :=
      ⟨hs.left, hs.right.left.trans ha, han.trans_le htop⟩
    obtain ⟨page₁, hc, hm⟩ := ht.inside
      (fun a ha han => (hp.inside_iff (hhas a ha han)).mp (hin a ha (by omega))) page
    have hm₁ : Marks (fun q => ∃ a, addr ≤ a ∧ a < addr + turn s addr len ∧ Seen p a q) page page₁ := by
      refine fun q => ⟨?_, fun hn => (hm q).right fun a ha han hq => ?_⟩
      · rintro ⟨a, ha, han, hq⟩
        exact (hm q).left ⟨a, ha, han, (hp.seen_iff (hhas a ha han) q).mp hq⟩
      · exact hn ⟨a, ha, han, (hp.seen_iff (hhas a ha han) q).mpr hq⟩
    have hlen : addr + turn s addr len + (len - turn s addr len) = addr + len := by omega
    have hrest : ∃ fuel flushme' page', segflush p fuel
        (if 0 < len - turn s addr len ∧ addr + turn s addr len < s.top then some i else none) flushme page₁
        (addr + turn s addr len) (len - turn s addr len) = some (.ok (flushme', page')) ∧
        Marks (fun q => ∃ a, addr + turn s addr len ≤ a ∧ a < addr + len ∧ Seen p a q) page₁ page' := by
      by_cases hz : 0 < len - turn s addr len
      case neg =>
        rw [if_neg fun h => hz h.left, Nat.eq_zero_of_not_pos hz]
        refine ⟨1, flushme, page₁, rfl, fun q => ⟨?_, fun _ => rfl⟩⟩
        rintro ⟨a, ha, han, -⟩
        omega
      case pos =>
        have hin' (a : Nat) (ha : addr + turn s addr len ≤ a) (han : a < addr + turn s addr len + (len - turn s addr len)) :
            Inside p a := hin a (by omega) (by omega)
        have hd' : BIGPGSZ ∣ addr + turn s addr len + (len - turn s addr len) := hlen ▸ hd
        by_cases hmore : addr + turn s addr len < s.top
        case pos =>
          rw [if_pos ⟨hz, hmore⟩, ← hlen]
          exact ih _ (by omega) flushme page₁ ⟨hs.left, hs.right.left.trans (Nat.le_add_right _ _), hmore⟩ (hv.drop _) hz (by omega)
            hd' hin'
        case neg =>
          rw [if_neg fun h => hmore h.right, ← hlen]
          obtain ⟨k, t, ht⟩ := hv (addr + turn s addr len) (Nat.le_add_right _ _) (by omega)
          obtain ⟨j, hj⟩ := segno_of_has ht
          obtain ⟨t, ht⟩ := has_of_segno hj
          obtain ⟨fuel, flushme', page', hf, hm'⟩ := ih _ (by omega) (j :: flushme) page₁ ht
            (hv.drop _) hz (by omega) hd' hin'
          refine ⟨fuel + 1, flushme', page', ?_, hm'⟩
          rw [segflush, if_neg (Nat.ne_of_gt hz), hj]
          exact hf
    obtain ⟨fuel, flushme', page', hf, hm'⟩ := hrest
    refine ⟨fuel + 1, flushme', page', (segflush_turn hs ht hc).trans hf, (hm₁.trans hm').congr fun q => ?_⟩
    constructor
    · rintro (⟨a, ha, han, hq⟩ | ⟨a, ha, han, hq⟩)
      · exact ⟨a, ha, by omega, hq⟩
      · exact ⟨a, by omega, han, hq⟩
    · rintro ⟨a, ha, han, hq⟩
      by_cases hlt : a < addr + turn s addr len
      · exact .inl ⟨a, ha, hlt, hq⟩
      · exact .inr ⟨a, Nat.le_of_not_lt hlt, han, hq⟩

theorem segflush_outside {a : Nat} (hp : Sound p) (hcur : ∀ i ∈ cur, ∃ s, Has p i s addr) (hv : Valid p addr len)
    (hl32 : len < 2 ^ 32) (hd : BIGPGSZ ∣ addr + len) (ha : addr ≤ a) (han : a < addr + len) (hout : ¬Inside p a) :
    segflush p fuel cur flushme page addr len ≠ some (.ok (flushme', page')) := by
  induction fuel generalizing cur addr len flushme page
  case zero => cases cur <;> simp [segflush]
  case succ fuel ih =>
    cases cur
    case none =>
      rw [segflush, if_neg (by omega)]
      cases hj : segno p addr
      case none   => simp
      case some j =>
        refine ih (fun i hi => ?_) hv hl32 hd ha han
        exact Option.some.inj hi ▸ has_of_segno hj
    case some i =>
      obtain ⟨s, hs⟩ := hcur i rfl
      have ht := hp.turn hs hv (by omega) hl32 hd
      obtain ⟨hpos, hle, htop, -⟩ := ht.bounds
      have hhas (a : Nat) (ha : addr ≤ a) (han : a < addr + turn s addr len) : Has p i s a :=
        ⟨hs.left, hs.right.left.trans ha, han.trans_le htop⟩
      by_cases hall : ∀ a, addr ≤ a → a < addr + turn s addr len → s.Inside (a - s.base)
      case neg =>
        simp only [not_forall] at hall
        obtain ⟨b, hb, hbn, hbo⟩ := hall
        obtain ⟨e, he⟩ := ht.outside hb hbn hbo page
        rw [segflush, hs.left]
        simp [he]
      case pos =>
        obtain ⟨page₁, hc, -⟩ := ht.inside hall page
        rw [segflush_turn hs ht hc]
        have hge : addr + turn s addr len ≤ a := by
          by_contra hlt
          rw [Nat.not_le] at hlt
          exact hout ((hp.inside_iff (hhas a ha hlt)).mpr (hall a ha hlt))
        have hlen : addr + turn s addr len + (len - turn s addr len) = addr + len := by omega
        refine ih (fun j hj => ?_) (hv.drop _) (by omega) (hlen ▸ hd) hge (hlen ▸ han)
        split at hj
        case isTrue hmore =>
          obtain rfl := Option.some.inj hj
          exact ⟨s, hs.left, hs.right.left.trans (Nat.le_add_right _ _), hmore.right⟩
        case isFalse => cases hj

theorem chunkflush_dvd (hb : BIGPGSZ ∣ s.base) (hb64 : s.base ≤ 2 ^ 64)
    (h : chunkflush s page addr len = .ok (chunk, page')) : BIGPGSZ ∣ addr + chunk ∧ chunk ≤ PTEMAPMEM := by
  unfold chunkflush at h
  dsimp only at h
  generalize (if s.top < uintptr (addr + len) then usize (minus s.top addr) else len) = l at h
  have hps : usize (minus addr s.base) % PTEMAPMEM % BIGPGSZ = addr % BIGPGSZ := by
    unfold usize minus uintptr PTEMAPMEM GiB BIGPGSZ at *
    omega
  have hlt := Nat.mod_lt (usize (minus addr s.base)) (by decide : 0 < PTEMAPMEM)
  generalize usize (minus addr s.base) % PTEMAPMEM = ps at *
  generalize hpe : (if l < PTEMAPMEM - ps then (ps + l + BIGPGSZ - 1) / BIGPGSZ * BIGPGSZ else PTEMAPMEM) = pe at h
  have hchunk : pe - ps = chunk := by
    split at h
    case h_1 => cases h
    case h_2 pte hpte =>
      split at h
      case isTrue  => cases h
      case isFalse =>
        cases pte
        case none => exact (Prod.mk.inj (Except.ok.inj h)).left
        case some pte =>
          obtain ⟨page₁, -, h⟩ := Except.bind_eq_ok_iff.mp h
          exact (Prod.mk.inj (Except.ok.inj h)).left
  unfold PTEMAPMEM GiB BIGPGSZ at *
  split at hpe <;> omega

-- Nor does it when the range ends in the middle of a page of 2 MiB: no turn ends there.
theorem segflush_odd (hp : Sound p) (hl : 0 < len) (hd : ¬BIGPGSZ ∣ addr + len) :
    segflush p fuel cur flushme page addr len ≠ some (.ok (flushme', page')) := by
  induction fuel generalizing cur addr len flushme page
  case zero => cases cur <;> simp [segflush]
  case succ fuel ih =>
    cases cur
    case none =>
      rw [segflush, if_neg (Nat.ne_of_gt hl)]
      cases hj : segno p addr
      case none   => simp
      case some j => exact ih hl hd
    case some i =>
      rw [segflush]
      cases hs : p i
      case none => simp
      case some s =>
        dsimp only
        cases hc : chunkflush s page addr len
        case error e => simp
        case ok c =>
          have hlaid := hp.laid i s hs
          have hbound := hp.bound hs
          have hb := (hp.space.within i s.toSegment (by rw [plain, hs]; rfl)).right.left
          obtain ⟨hdvd, hle⟩ := chunkflush_dvd ((bigpgsz_dvd_pgsz hlaid.pgszi).trans hlaid.base)
            (by unfold KZERO at hbound; omega) hc
          refine ih ?_ ?_
          · unfold usize PTEMAPMEM GiB BIGPGSZ at *
            omega
          · unfold usize uintptr PTEMAPMEM GiB BIGPGSZ at *
            omega

end

-- The loops look at the place itself: nothing is mapped 4 GiB or more into the segment, nor at the place that
-- the low 32 bits name, and no map of pages of 1 GiB is looked at past its first 2 MiB.
def Seg.Right (s : Seg P) (soff : Nat) : Prop :=
  (2 ^ 32 ≤ soff → s.slot (s.slotno soff) = none ∧ s.slot (s.slotno (soff % 2 ^ 32)) = none) ∧
  (s.pgszi = .huge → soff % PTEMAPMEM < BIGPGSZ ∨ s.map[soff % 2 ^ 32 / PTEMAPMEM]?.join = none)

section

variable {s : Seg P} {soff : Nat}

theorem huge_of_ne {s : Segment} (h : s.pgszi ≠ .small) (hb : s.pgszi ≠ .big) : s.pgszi = .huge := by
  cases hp : s.pgszi
  case small => exact absurd hp h
  case big   => exact absurd hp hb
  case huge  => rfl

theorem index_eq (h : s.pgszi ≠ .small) (hh : s.pgszi = .huge → soff % PTEMAPMEM < BIGPGSZ) :
    soff % PTEMAPMEM / BIGPGSZ = s.slotno (soff % 2 ^ 32) % s.ptepertab := by
  have hmod : soff % 2 ^ 32 % PTEMAPMEM = soff % PTEMAPMEM := by
    unfold PTEMAPMEM GiB
    omega
  rw [← entry_eq, hmod]
  by_cases hb : s.pgszi = .big
  · rw [pgsz_of_big hb]
  · have hp := huge_of_ne h hb
    rw [Segment.pgsz, hp, Nat.div_eq_of_lt (hh hp)]
    exact (Nat.div_eq_of_lt (Nat.mod_lt soff (by decide : 0 < PTEMAPMEM))).symm

theorem seen_eq_slot (h : s.pgszi ≠ .small) (hh : s.pgszi = .huge → soff % PTEMAPMEM < BIGPGSZ) :
    s.seen soff = s.slot (s.slotno (soff % 2 ^ 32)) := by
  rw [Seg.seen, index_eq h hh, mapno_eq s]
  rfl

theorem inside_of_lt (hs : Laid s) (hh : s.pgszi = .huge → soff % PTEMAPMEM < BIGPGSZ) : s.Inside soff := by
  intro pte hp
  rw [(hs.wf.pte pte (List.mem_of_getElem? (Option.join_eq_some_iff.mp hp))).length, index_eq hs.pgszi hh]
  exact Nat.mod_lt _ (ptepertab_pos s.toSegment)

theorem slot_none_of_map (hm : s.map[soff / PTEMAPMEM]?.join = none) : s.slot (s.slotno soff) = none := by
  rw [Seg.slot, ← mapno_eq, hm]
  rfl

-- Where the loops look at the right place, they see what is mapped.
theorem seen_of_right (hs : Laid s) (hr : s.Right soff) : s.seen soff = s.slot (s.slotno soff) ∧ s.Inside soff := by
  have hlow : s.seen soff = s.slot (s.slotno (soff % 2 ^ 32)) ∧ s.Inside soff := by
    by_cases hh : s.pgszi = .huge → soff % PTEMAPMEM < BIGPGSZ
    · exact ⟨seen_eq_slot hs.pgszi hh, inside_of_lt hs hh⟩
    · rw [Classical.not_imp] at hh
      have hm := (hr.right hh.left).resolve_left hh.right
      refine ⟨?_, fun pte hp => ?_⟩
      · rw [slot_none_of_map hm, Seg.seen, hm]
        rfl
      · rw [hm] at hp
        cases hp
  by_cases hlt : soff < 2 ^ 32
  · rwa [Nat.mod_eq_of_lt hlt] at hlow
  · obtain ⟨hn, hn'⟩ := hr.left (Nat.le_of_not_lt hlt)
    exact ⟨hlow.left.trans (hn'.trans hn.symm), hlow.right⟩

theorem lt_of_inside (hs : Laid s) (hin : s.Inside soff) (hh : s.pgszi = .huge) :
    soff % PTEMAPMEM < BIGPGSZ ∨ s.map[soff % 2 ^ 32 / PTEMAPMEM]?.join = none := by
  cases hm : s.map[soff % 2 ^ 32 / PTEMAPMEM]?.join
  case none     => exact .inr rfl
  case some pte =>
    have hlt := hin pte hm
    have hper : s.ptepertab = 1 := by
      rw [Segment.ptepertab, Segment.pgsz, hh]
      rfl
    rw [(hs.wf.pte pte (List.mem_of_getElem? (Option.join_eq_some_iff.mp hm))).length, hper] at hlt
    exact .inl (Nat.lt_of_div_lt_div (c := BIGPGSZ) (by rwa [Nat.div_self (by decide)]))

theorem slot_of_seen (hs : Laid s) (hin : s.Inside soff) {q : P} (h : s.seen soff = some q) :
    s.slot (s.slotno (soff % 2 ^ 32)) = some q := by
  refine (seen_eq_slot hs.pgszi fun hh => ?_).symm.trans h
  refine (lt_of_inside hs hin hh).resolve_right fun hm => ?_
  rw [Seg.seen, hm] at h
  cases h

theorem seen_of_slot (hs : Laid s) (hin : s.Inside soff) {q : P} (h : s.slot (s.slotno (soff % 2 ^ 32)) = some q) :
    (s.pgszi = .huge → soff % PTEMAPMEM < BIGPGSZ) ∧ s.seen soff = some q := by
  have hh (hh : s.pgszi = .huge) : soff % PTEMAPMEM < BIGPGSZ := by
    refine (lt_of_inside hs hin hh).resolve_right fun hm => ?_
    rw [slot_none_of_map hm] at h
    cases h
  exact ⟨hh, (seen_eq_slot hs.pgszi hh).trans h⟩

-- Two places that are 4 GiB apart, but for the page, are not in one range.
theorem not_apart {soff' va len : Nat} (hp : s.pgszi ≠ .small) (hb : BIGPGSZ ∣ s.base) (hd : BIGPGSZ ∣ va + len)
    (hl32 : len < 2 ^ 32) (hlo : va ≤ s.base + soff') (hhi : s.base + soff < va + len) (hge : 2 ^ 32 ≤ soff)
    (hh : s.pgszi = .huge → soff % PTEMAPMEM < BIGPGSZ) (hh' : s.pgszi = .huge → soff' % PTEMAPMEM < BIGPGSZ) :
    s.slotno soff' ≠ s.slotno (soff % 2 ^ 32) := by
  intro he
  by_cases hbig : s.pgszi = .big
  · rw [Seg.slotno, Seg.slotno, pgsz_of_big hbig] at he
    clear hh hh'
    unfold BIGPGSZ at *
    omega
  · have hp := huge_of_ne hp hbig
    have hpg : s.pgsz = PTEMAPMEM := by
      rw [Segment.pgsz, hp]
      rfl
    replace hh := hh hp
    replace hh' := hh' hp
    rw [Seg.slotno, Seg.slotno, hpg] at he
    unfold PTEMAPMEM GiB BIGPGSZ at *
    omega

theorem slotno_lt {soff' : Nat} (hp : s.pgszi ≠ .small) (he : s.slotno soff' = s.slotno (soff % 2 ^ 32)) :
    soff' < 2 ^ 32 := by
  by_cases hbig : s.pgszi = .big
  · rw [Seg.slotno, Seg.slotno, pgsz_of_big hbig] at he
    unfold BIGPGSZ at *
    omega
  · have hpg : s.pgsz = PTEMAPMEM := by
      rw [Segment.pgsz, huge_of_ne hp hbig]
      rfl
    rw [Seg.slotno, Seg.slotno, hpg] at he
    unfold PTEMAPMEM GiB at *
    omega

end

section

variable [DecidableEq P] {p : Segs P} {va len : Nat}

-- The call comes to its end, and has flushed the pages that are mapped in the range, and no others.
def Flushes (p : Segs P) (va len : Nat) : Prop :=
  ∀ page, ∃ p' page', syssegflush p page va len (.ok (p', page')) ∧
    Marks (fun q => ∃ a, va ≤ a ∧ a < va + len ∧ Mapped p a q) page page'

theorem syssegflush_ok {page page' : P → Page} {p' : Segs P} (hva : va < 2 ^ 64) (hl32 : len < 2 ^ 32)
    (h : syssegflush p page va len (.ok (p', page'))) :
    ∃ fuel flushme, segflush p fuel none [] page va len = some (.ok (flushme, page')) := by
  obtain ⟨fuel, h⟩ := h
  rw [uintptr, usize, Nat.mod_eq_of_lt hva, Nat.mod_eq_of_lt hl32] at h
  obtain ⟨r, hr, h⟩ := Option.map_eq_some_iff.mp h
  obtain ⟨⟨flushme, page''⟩, he, h⟩ := Except.map_eq_ok_iff.mp h
  obtain ⟨-, rfl⟩ := Prod.mk.inj h
  exact ⟨fuel, flushme, he ▸ hr⟩

theorem syssegflush_inside (hp : Sound p) (hv : Valid p va len) (hva : va < 2 ^ 64) (hl32 : len < 2 ^ 32)
    (hd : len = 0 ∨ BIGPGSZ ∣ va + len) (hin : ∀ a, va ≤ a → a < va + len → Inside p a) (page : P → Page) :
    ∃ p' page', syssegflush p page va len (.ok (p', page')) ∧
      Marks (fun q => ∃ a, va ≤ a ∧ a < va + len ∧ Seen p a q) page page' := by
  have hrun : ∃ fuel flushme page', segflush p fuel none [] page va len = some (.ok (flushme, page')) ∧
      Marks (fun q => ∃ a, va ≤ a ∧ a < va + len ∧ Seen p a q) page page' := by
    by_cases hl : 0 < len
    case neg =>
      obtain rfl := Nat.eq_zero_of_not_pos hl
      refine ⟨1, [], page, rfl, fun q => ⟨?_, fun _ => rfl⟩⟩
      rintro ⟨a, ha, han, -⟩
      omega
    case pos =>
      obtain ⟨k, t, ht⟩ := hv va (Nat.le_refl va) (by omega)
      obtain ⟨i, hi⟩ := segno_of_has ht
      obtain ⟨s, hs⟩ := has_of_segno hi
      obtain ⟨fuel, flushme, page', hf, hm⟩ :=
        segflush_inside [i] page hp hs hv hl hl32 (hd.resolve_left (Nat.ne_of_gt hl)) hin
      refine ⟨fuel + 1, flushme, page', ?_, hm⟩
      rw [segflush, if_neg (Nat.ne_of_gt hl), hi]
      exact hf
  obtain ⟨fuel, flushme, page', hf, hm⟩ := hrun
  refine ⟨setflush p flushme, page', ⟨fuel, ?_⟩, hm⟩
  rw [uintptr, usize, Nat.mod_eq_of_lt hva, Nat.mod_eq_of_lt hl32, hf]
  rfl

theorem flushes_of_right (hp : Sound p) (hv : Valid p va len) (hva : va < 2 ^ 64) (hl32 : len < 2 ^ 32)
    (hd : len = 0 ∨ BIGPGSZ ∣ va + len)
    (hr : ∀ a, va ≤ a → a < va + len → ∀ i s, Has p i s a → s.Right (a - s.base)) : Flushes p va len := by
  intro page
  have hright {i : SegNo} {s : Seg P} {a : Nat} (ha : va ≤ a) (han : a < va + len) (hs : Has p i s a) :=
    seen_of_right (hp.laid i s hs.left) (hr a ha han i s hs)
  obtain ⟨p', page', h, hm⟩ := syssegflush_inside hp hv hva hl32 hd
    (fun a ha han i s hs => (hright ha han hs).right) page
  refine ⟨p', page', h, hm.congr fun q => ?_⟩
  constructor
  · rintro ⟨a, ha, han, i, s, hs, hq⟩
    exact ⟨a, ha, han, i, s, hs, (hright ha han hs).left ▸ hq⟩
  · rintro ⟨a, ha, han, i, s, hs, hq⟩
    exact ⟨a, ha, han, i, s, hs, (hright ha han hs).left.symm ▸ hq⟩

theorem flushes_iff (hp : Sound p) (hv : Valid p va len) (hva : va < 2 ^ 64) (hl32 : len < 2 ^ 32) :
    Flushes p va len ↔ (len = 0 ∨ BIGPGSZ ∣ va + len) ∧
      ∀ a, va ≤ a → a < va + len → ∀ i s, Has p i s a → s.Right (a - s.base) := by
  refine ⟨fun h => ?_, fun h => flushes_of_right hp hv hva hl32 h.left h.right⟩
  have hd : len = 0 ∨ BIGPGSZ ∣ va + len := by
    by_contra hn
    rw [not_or] at hn
    obtain ⟨p', page', hf, -⟩ := h fun _ => blank
    obtain ⟨fuel, flushme, hf⟩ := syssegflush_ok hva hl32 hf
    exact segflush_odd hp (Nat.pos_of_ne_zero hn.left) hn.right hf
  have hin (a : Nat) (ha : va ≤ a) (han : a < va + len) : Inside p a := by
    by_contra hout
    obtain ⟨p', page', hf, -⟩ := h fun _ => blank
    obtain ⟨fuel, flushme, hf⟩ := syssegflush_ok hva hl32 hf
    exact segflush_outside hp (by simp) hv hl32 (hd.resolve_left (by omega)) ha han hout hf
  have hseen (q : P) : (∃ a, va ≤ a ∧ a < va + len ∧ Seen p a q) ↔ ∃ a, va ≤ a ∧ a < va + len ∧ Mapped p a q := by
    obtain ⟨_, page', hf, hm⟩ := h fun _ => blank
    obtain ⟨_, page'', hf', hm'⟩ := syssegflush_inside hp hv hva hl32 hd hin fun _ => blank
    obtain ⟨_, _, hf⟩ := syssegflush_ok hva hl32 hf
    obtain ⟨_, _, hf'⟩ := syssegflush_ok hva hl32 hf'
    obtain ⟨-, rfl⟩ := Prod.mk.inj (Except.ok.inj (segflush_unique hf hf'))
    exact (hm'.iff q).trans (hm.iff q).symm
  refine ⟨hd, fun a ha han i s hs => ⟨fun hge => ?_, lt_of_inside (hp.laid i s hs.left) (hin a ha han i s hs)⟩⟩
  have hlaid := hp.laid i s hs.left
  have hdvd := hd.resolve_left (by omega)
  constructor
  · by_contra hn
    obtain ⟨q, hq⟩ := Option.ne_none_iff_exists'.mp hn
    obtain ⟨b, hb, hbn, j, t, ht, hs'⟩ := (hseen q).mpr ⟨a, ha, han, i, s, hs, hq⟩
    have hlow := slot_of_seen (hp.laid j t ht.left) (hin b hb hbn j t ht) hs'
    obtain ⟨rfl, he⟩ := hp.once i j s t _ _ q hs.left ht.left hq hlow
    obtain rfl := Option.some.inj (hs.left.symm.trans ht.left)
    exact absurd (slotno_lt hlaid.pgszi he) (Nat.not_lt.mpr hge)
  · by_contra hn
    obtain ⟨q, hq⟩ := Option.ne_none_iff_exists'.mp hn
    obtain ⟨hh, hsq⟩ := seen_of_slot hlaid (hin a ha han i s hs) hq
    obtain ⟨b, hb, hbn, j, t, ht, hs'⟩ := (hseen q).mp ⟨a, ha, han, i, s, hs, hsq⟩
    obtain ⟨rfl, he⟩ := hp.once j i t s _ _ q ht.left hs.left hs' hq
    obtain rfl := Option.some.inj (ht.left.symm.trans hs.left)
    have hlt := slotno_lt hlaid.pgszi he
    rw [← Nat.mod_eq_of_lt hlt] at hs'
    obtain ⟨hh', -⟩ := seen_of_slot hlaid (hin b hb hbn j t ht) hs'
    have hbase := ht.right.left
    have hbase' := hs.right.left
    exact not_apart hlaid.pgszi ((bigpgsz_dvd_pgsz hlaid.pgszi).trans hlaid.base) hdvd hl32 (by omega) (by omega) hge
      hh hh' he

end

-- A segment of two pages of 2 MiB, of which the second is there.
def paged : Up Unit :=
  (((machine shared).guarded Plain).exec { seg := fun _ => none, page := fun _ => { blank with ref := 0 } }
    [.newseg .seg1 SG_BSS UTZERO 2 none 0 0, .fault (2 * UTZERO) false false (.new ()) ()]).get (by decide +kernel)

theorem paged_sound : Sound paged.seg := by
  have hinit : (machine shared).Reachable Plain { seg := fun _ => none, page := fun _ : Unit => { blank with ref := 0 } } :=
    .init fun _ => rfl
  have hr : (machine shared).Reachable Plain paged := hinit.guarded (Option.some_get _).symm
  have hg := geometry_of_plain.holds hr
  have hone : ∀ i ∈ SegNo.all, (paged.seg i).isSome → i = .seg1 := by decide +kernel
  have hseg {i : SegNo} {s : Seg Unit} (hs : paged.seg i = some s) : i = .seg1 :=
    hone i (SegNo.mem_all i) (Option.isSome_iff_exists.mpr ⟨s, hs⟩)
  refine ⟨fun i s hs => (hg i s hs).toLaid, by decide +kernel, fun i j s t k l q hs ht hq hq' => ?_⟩
  obtain rfl : i = j := (hseg hs).trans (hseg ht).symm
  obtain rfl := Option.some.inj (hs.symm.trans ht)
  exact ⟨rfl, (hg i s hs).wf.slot_inj hq hq'⟩

theorem paged_valid {len : Nat} (h : len ≤ 2 * BIGPGSZ) : Valid paged.seg UTZERO len := by
  have hs : ∀ s ∈ paged.seg .seg1, s.base = UTZERO ∧ s.top = UTZERO + 2 * BIGPGSZ := by decide +kernel
  have hsome : (paged.seg .seg1).isSome := by decide +kernel
  intro a ha han
  obtain ⟨s, hp⟩ := Option.isSome_iff_exists.mp hsome
  obtain ⟨hb, ht⟩ := hs s hp
  exact ⟨.seg1, s, hp, by omega, by omega⟩

theorem flushes_iff_paged : Flushes paged.seg UTZERO (2 * BIGPGSZ) ↔
    (2 * BIGPGSZ = 0 ∨ BIGPGSZ ∣ UTZERO + 2 * BIGPGSZ) ∧
      ∀ a, UTZERO ≤ a → a < UTZERO + 2 * BIGPGSZ → ∀ i s, Has paged.seg i s a → s.Right (a - s.base) :=
  flushes_iff paged_sound (paged_valid (Nat.le_refl _)) (by decide) (by decide)

-- The range of one byte wraps the length: the call goes on to the other page, and to the end of the segments.
theorem not_flushes : ¬∀ (p : Segs Unit) (va len : Nat), Sound p → Valid p va len → va < 2 ^ 64 → len < 2 ^ 32 →
    Flushes p va len := by
  intro h
  have hf := h paged.seg UTZERO 1 paged_sound (paged_valid (by decide)) (by decide) (by decide)
  obtain ⟨p', page', hf, -⟩ := hf fun _ => blank
  obtain ⟨fuel, flushme, hf⟩ := syssegflush_ok (by decide) (by decide) hf
  exact segflush_odd paged_sound Nat.one_pos (by decide) hf

end Port.Segment
