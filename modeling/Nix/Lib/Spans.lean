import Mathlib.Data.List.Basic
import Mathlib.Algebra.Order.Ring.Int

-- Ranges of numbers, each of some type, in a list that is in order.
structure Span (κ : Type*) where
  addr : Nat
  size : Nat
  type : κ
deriving DecidableEq

namespace Span

variable {κ : Type*} {e f x y : Span κ} {es es' xs ys : List (Span κ)} {t : κ} {n : Nat}

def top (e : Span κ) : Nat :=
  e.addr + e.size

def Has (e : Span κ) (t : κ) (n : Nat) : Prop :=
  e.type = t ∧ e.addr ≤ n ∧ n < e.top

def Covers (es : List (Span κ)) (t : κ) (n : Nat) : Prop :=
  ∃ e ∈ es, e.Has t n

-- There is something between the two, or they are of different types.
def Before (e f : Span κ) : Prop :=
  e.top < f.addr ∨ e.top = f.addr ∧ e.type ≠ f.type

structure Laid (es : List (Span κ)) : Prop where
  pairwise : es.Pairwise Before
  pos      : ∀ e ∈ es, 0 < e.size

def Apart (e : Span κ) (es : List (Span κ)) : Prop :=
  ∀ x ∈ es, x.top ≤ e.addr ∨ e.top ≤ x.addr

theorem covers_append : Covers (xs ++ ys) t n ↔ Covers xs t n ∨ Covers ys t n := by
  simp only [Covers, List.mem_append, or_and_right, exists_or]

theorem covers_cons : Covers (e :: es) t n ↔ e.Has t n ∨ Covers es t n := by
  simp [Covers]

theorem covers_nil : ¬Covers ([] : List (Span κ)) t n := by
  simp [Covers]

theorem laid_append : Laid (xs ++ ys) ↔ Laid xs ∧ Laid ys ∧ ∀ x ∈ xs, ∀ y ∈ ys, x.Before y := by
  constructor
  · rintro ⟨hp, hpos⟩
    obtain ⟨hx, hy, hxy⟩ := List.pairwise_append.mp hp
    exact ⟨⟨hx, fun e he => hpos e (List.mem_append_left _ he)⟩, ⟨hy, fun e he => hpos e (List.mem_append_right _ he)⟩,
      hxy⟩
  · rintro ⟨⟨hx, hxpos⟩, ⟨hy, hypos⟩, hxy⟩
    exact ⟨List.pairwise_append.mpr ⟨hx, hy, hxy⟩, fun e he => (List.mem_append.mp he).elim (hxpos e) (hypos e)⟩

theorem laid_cons : Laid (e :: es) ↔ 0 < e.size ∧ (∀ y ∈ es, e.Before y) ∧ Laid es := by
  constructor
  · rintro ⟨hp, hpos⟩
    obtain ⟨he, hes⟩ := List.pairwise_cons.mp hp
    obtain ⟨hpe, hpes⟩ := List.forall_mem_cons.mp hpos
    exact ⟨hpe, he, hes, hpes⟩
  · rintro ⟨hpe, he, hes, hpes⟩
    exact ⟨List.pairwise_cons.mpr ⟨he, hes⟩, List.forall_mem_cons.mpr ⟨hpe, hpes⟩⟩

theorem Before.top_le (h : e.Before f) : e.top ≤ f.addr := by
  rcases h with h | h
  · exact h.le
  · exact h.left.le

theorem Before.congr {e' f' : Span κ} (h : e.Before f) (htop : e'.top = e.top) (het : e'.type = e.type)
    (haddr : f'.addr = f.addr) (hft : f'.type = f.type) : e'.Before f' := by
  rwa [Before, htop, het, haddr, hft]

-- A range is added, where some ranges become one with it.
def Added (e : Span κ) (es es' : List (Span κ)) : Prop :=
  ∃ xs mid ys m, es = xs ++ (mid ++ ys) ∧ es' = xs ++ m :: ys ∧ (∀ t n, m.Has t n ↔ Covers mid t n ∨ e.Has t n) ∧
    0 < m.size ∧ (∀ x ∈ xs, x.Before m) ∧ ∀ y ∈ ys, m.Before y

namespace Added

theorem covers (h : Added e es es') : Covers es' t n ↔ Covers es t n ∨ e.Has t n := by
  obtain ⟨xs, mid, ys, m, rfl, rfl, hm, -⟩ := h
  rw [covers_append, covers_cons, hm, covers_append, covers_append]
  tauto

theorem laid (h : Added e es es') (hes : Laid es) : Laid es' := by
  obtain ⟨xs, mid, ys, m, rfl, rfl, -, hpos, hxs, hys⟩ := h
  obtain ⟨hx, hrest, hxy⟩ := laid_append.mp hes
  obtain ⟨-, hy, -⟩ := laid_append.mp hrest
  refine laid_append.mpr ⟨hx, laid_cons.mpr ⟨hpos, hys, hy⟩, fun x hx y hy => ?_⟩
  rcases List.mem_cons.mp hy with rfl | hy
  · exact hxs x hx
  · exact hxy x hx y (List.mem_append_right _ hy)

-- It is next to no range of its type,
theorem new (he : 0 < e.size) (hxs : ∀ x ∈ xs, x.Before e) (hys : ∀ y ∈ ys, e.Before y) :
    Added e (xs ++ ys) (xs ++ e :: ys) :=
  ⟨xs, [], ys, e, rfl, rfl, fun _ _ => by simp [covers_nil], he, hxs, hys⟩

-- or to the one before it,
theorem left (hes : Laid (xs ++ x :: ys)) (hx : x.type = e.type) (hxe : x.top = e.addr) (hys : ∀ y ∈ ys, e.Before y) :
    Added e (xs ++ x :: ys) (xs ++ { x with size := x.size + e.size } :: ys) := by
  obtain ⟨-, hrest, hxs⟩ := laid_append.mp hes
  obtain ⟨hpos, -, -⟩ := laid_cons.mp hrest
  refine ⟨xs, [x], ys, { x with size := x.size + e.size }, rfl, rfl, fun t n => ?_, Nat.add_pos_left hpos _,
    fun w hw => (hxs w hw x List.mem_cons_self).congr rfl rfl rfl rfl,
    fun y hy => (hys y hy).congr ?_ hx rfl rfl⟩
  · simp only [covers_cons, covers_nil, or_false, Has, hx, top] at *
    by_cases ht : e.type = t
    · simp only [ht, true_and]
      omega
    · simp only [ht, false_and, or_false]
  · unfold top at *
    dsimp only
    omega

-- or to the one after it,
theorem right (hes : Laid (xs ++ y :: ys)) (hy : y.type = e.type) (hey : e.top = y.addr) (hxs : ∀ x ∈ xs, x.Before e) :
    Added e (xs ++ y :: ys) (xs ++ { y with addr := e.addr, size := y.size + e.size } :: ys) := by
  obtain ⟨-, hrest, -⟩ := laid_append.mp hes
  obtain ⟨hpos, hys, -⟩ := laid_cons.mp hrest
  refine ⟨xs, [y], ys, { y with addr := e.addr, size := y.size + e.size }, rfl, rfl, fun t n => ?_,
    Nat.add_pos_left hpos _, fun x hx => (hxs x hx).congr rfl rfl rfl hy, fun z hz => (hys z hz).congr ?_ rfl rfl rfl⟩
  · simp only [covers_cons, covers_nil, or_false, Has, hy, top] at *
    by_cases ht : e.type = t
    · simp only [ht, true_and]
      omega
    · simp only [ht, false_and, or_false]
  · unfold top at *
    dsimp only
    omega

-- or to both.
theorem both (hes : Laid (xs ++ x :: y :: ys)) (hx : x.type = e.type) (hxe : x.top = e.addr) (hy : y.type = e.type)
    (hey : e.top = y.addr) :
    Added e (xs ++ x :: y :: ys) (xs ++ { x with size := x.size + e.size + y.size } :: ys) := by
  obtain ⟨-, hrest, hxs⟩ := laid_append.mp hes
  obtain ⟨hpos, -, hrest⟩ := laid_cons.mp hrest
  obtain ⟨-, hys, -⟩ := laid_cons.mp hrest
  refine ⟨xs, [x, y], ys, { x with size := x.size + e.size + y.size }, rfl, rfl, fun t n => ?_, by dsimp only; omega,
    fun w hw => (hxs w hw x List.mem_cons_self).congr rfl rfl rfl rfl,
    fun z hz => (hys z hz).congr ?_ (hx.trans hy.symm) rfl rfl⟩
  · simp only [covers_cons, covers_nil, or_false, Has, hx, hy, top] at *
    by_cases ht : e.type = t
    · simp only [ht, true_and]
      omega
    · simp only [ht, false_and, or_false]
  · unfold top at *
    dsimp only
    omega

end Added

-- What there is of a range after `n`.
def rest (e : Span κ) (n : Nat) : List (Span κ) :=
  if n = e.top then [] else [{ e with addr := n, size := e.top - n }]

section

variable {a : Nat}

theorem mem_rest (hf : f ∈ e.rest a) (ha : a ≤ e.top) : f.addr = a ∧ f.top = e.top ∧ f.type = e.type ∧ a < e.top := by
  rw [rest] at hf
  split at hf
  case isTrue      => cases hf
  case isFalse hne =>
    rw [List.mem_singleton.mp hf]
    unfold top at *
    exact ⟨rfl, by dsimp only; omega, rfl, by omega⟩

theorem laid_rest (hes : Laid (xs ++ e :: ys)) (ha : e.addr ≤ a) (hat : a ≤ e.top) : Laid (xs ++ (e.rest a ++ ys)) := by
  obtain ⟨hx, hrest, hxs⟩ := laid_append.mp hes
  obtain ⟨-, hey, hy⟩ := laid_cons.mp hrest
  have hrest : Laid (e.rest a) := by
    rw [rest]
    split
    case isTrue      => exact ⟨.nil, by simp⟩
    case isFalse hne => exact ⟨List.pairwise_singleton _ _, by simp; omega⟩
  refine laid_append.mpr ⟨hx, laid_append.mpr ⟨hrest, hy, fun f hf y hy => ?_⟩, fun x hx y hy => ?_⟩
  · obtain ⟨-, htop, htype, -⟩ := mem_rest hf hat
    exact (hey y hy).congr htop htype rfl rfl
  · rcases List.mem_append.mp hy with hy | hy
    · obtain ⟨haddr, -, htype, -⟩ := mem_rest hy hat
      have hxe := hxs x hx e List.mem_cons_self
      by_cases hae : a = e.addr
      · exact hxe.congr rfl rfl (haddr.trans hae) htype
      · exact .inl (by have := hxe.top_le; omega)
    · exact hxs x hx y (List.mem_cons_of_mem _ hy)

theorem covers_rest (hes : Laid (xs ++ e :: ys)) (ha : e.addr ≤ a) (hat : a ≤ e.top) :
    Covers (xs ++ (e.rest a ++ ys)) t n ↔ Covers (xs ++ e :: ys) t n ∧ ¬(e.type = t ∧ e.addr ≤ n ∧ n < a) := by
  obtain ⟨-, hrest, hxs⟩ := laid_append.mp hes
  obtain ⟨-, hey, -⟩ := laid_cons.mp hrest
  have hx (h : Covers xs t n) : n < e.addr := by
    obtain ⟨x, hx, -, -, hlt⟩ := h
    have := (hxs x hx e List.mem_cons_self).top_le
    omega
  have hy (h : Covers ys t n) : e.top ≤ n := by
    obtain ⟨y, hy, -, hle, -⟩ := h
    have := (hey y hy).top_le
    omega
  have hr : Covers (e.rest a) t n ↔ e.type = t ∧ a ≤ n ∧ n < e.top := by
    rw [rest]
    split
    case isTrue htop  => exact iff_of_false covers_nil (by omega)
    case isFalse hne  =>
      rw [covers_cons, Has, or_iff_left covers_nil]
      unfold top at *
      dsimp only
      rw [show a + (e.addr + e.size - a) = e.addr + e.size by omega]
  rw [covers_append, covers_append, covers_append, covers_cons, hr, Has]
  by_cases ht : e.type = t
  · simp only [ht, true_and]
    constructor
    · rintro (h | h | h)
      · exact ⟨.inl h, by have := hx h; omega⟩
      · exact ⟨.inr (.inl (by omega)), by omega⟩
      · exact ⟨.inr (.inr h), by have := hy h; omega⟩
    · rintro ⟨h | h | h, hn⟩
      · exact .inl h
      · exact .inr (.inl (by omega))
      · exact .inr (.inr h)
  · simp only [ht, false_and, false_or, not_false_eq_true, and_true]

section

variable {b : Nat}

theorem apart_rest (hes : Laid (xs ++ e :: ys)) (hab : a ≤ b) (hb : b ≤ e.top) (hf : f.addr = e.addr)
    (hfa : f.top ≤ a) : Apart f (xs ++ (e.rest b ++ ys)) := by
  obtain ⟨-, hrest, hxs⟩ := laid_append.mp hes
  obtain ⟨-, hys, -⟩ := laid_cons.mp hrest
  intro x hx
  rcases List.mem_append.mp hx with hx | hx
  · exact .inl (hf ▸ (hxs x hx e List.mem_cons_self).top_le)
  · rcases List.mem_append.mp hx with hx | hx
    · exact .inr ((hfa.trans hab).trans_eq (mem_rest hx hb).left.symm)
    · exact .inr ((hfa.trans (hab.trans hb)).trans (hys x hx).top_le)

theorem covers_front (hes : Laid (xs ++ e :: ys)) (hea : e.addr ≤ a) (hab : a ≤ b) (hb : b ≤ e.top) :
    Covers (xs ++ (e.rest b ++ ys)) t n ∨ (⟨e.addr, a - e.addr, e.type⟩ : Span κ).Has t n ↔
      Covers (xs ++ e :: ys) t n ∧ ¬(t = e.type ∧ a ≤ n ∧ n < b) := by
  have hin (hn : e.Has t n) : Covers (xs ++ e :: ys) t n := ⟨e, by simp, hn⟩
  have hfront : (⟨e.addr, a - e.addr, e.type⟩ : Span κ).Has t n ↔ e.type = t ∧ e.addr ≤ n ∧ n < a := by
    unfold Has top
    dsimp only
    rw [Nat.add_sub_cancel' hea]
  rw [covers_rest hes (hea.trans hab) hb, hfront]
  constructor
  · rintro (⟨hn, hno⟩ | ⟨ht, hle, hlt⟩)
    · exact ⟨hn, fun h => hno ⟨h.left.symm, hea.trans h.right.left, h.right.right⟩⟩
    · exact ⟨hin ⟨ht, hle, by omega⟩, fun h => by omega⟩
  · rintro ⟨hn, hno⟩
    by_cases hlow : e.type = t ∧ e.addr ≤ n ∧ n < a
    · exact .inr hlow
    · refine .inl ⟨hn, fun h => ?_⟩
      by_cases hna : n < a
      · exact hlow ⟨h.left, h.right.left, hna⟩
      · exact hno ⟨h.left.symm, Nat.le_of_not_lt hna, h.right.right⟩

end

end

def roundup (n align : Nat) : Nat :=
  (n + align - 1) / align * align

theorem dvd_roundup : n ∣ roundup a n :=
  dvd_mul_left _ _

theorem le_roundup (hn : 0 < n) : a ≤ roundup a n := by
  have := Nat.div_add_mod (a + n - 1) n
  have := Nat.mod_lt (a + n - 1) hn
  rw [roundup, mul_comm]
  omega

theorem roundup_lt (hn : 0 < n) : roundup a n < a + n := by
  have := Nat.div_mul_le_self (a + n - 1) n
  rw [roundup]
  omega

theorem roundup_le {b : Nat} (hn : 0 < n) (hdvd : n ∣ b) (hab : a ≤ b) : roundup a n ≤ b := by
  obtain ⟨k, rfl⟩ := hdvd
  have hlt : n * (roundup a n / n) < n * (k + 1) := by
    rw [Nat.mul_div_cancel' dvd_roundup, mul_add, mul_one]
    exact (roundup_lt hn).trans_le (Nat.add_le_add_right hab n)
  rw [← Nat.mul_div_cancel' (dvd_roundup (a := a) (n := n))]
  exact Nat.mul_le_mul_left n (Nat.lt_succ_iff.mp (lt_of_mul_lt_mul_left hlt n.zero_le))

section

variable (addr size : Nat) (t : κ) (align : Nat) (e : Span κ)

-- Where a range is put in `e`, which is at `addr`, if that is not 0, and at a multiple of `align`, if that is not 0.
def start : Nat :=
  if addr = 0 then e.addr else addr

def place : Nat :=
  if align = 0 then start addr e else roundup (start addr e) align

def Room : Prop :=
  e.type = t ∧ (addr = 0 ∨ e.addr ≤ addr) ∧ place addr align e + size ≤ e.top

-- The entry is one that a place is looked for in.
def Meets : Prop :=
  e.type = t ∧ (addr = 0 ∨ e.addr ≤ addr ∧ addr ≤ e.top ∧ (addr + size ≤ e.top ∨ e.size < size))

-- No range at `addr` can be in an entry after `e`.
def Stops : Prop :=
  e.type = t ∧ addr ≠ 0 ∧ addr ≤ e.top ∧ ¬Meets addr size t e

-- What holds of the entries that a search comes to, each with those after it.
def Upto (P : Span κ → List (Span κ) → Prop) : List (Span κ) → Prop
  | []      => True
  | e :: es => P e es ∧ (¬Room addr size t align e → ¬Stops addr size t e → Upto P es)

-- In `w` bits the padding overflows, or it goes past the end of the entry, or it moves a range that was to be at an
-- address.
def Astray (w : Nat) : Prop :=
  align ≠ 0 ∧ Meets addr size t e ∧
  (2 ^ w < start addr e + align ∧ size ≤ e.top ∨ start addr e + align ≤ 2 ^ w ∧
    (e.top < place addr align e ∧ place addr align e + size ≤ e.top + 2 ^ 64 ∨
      addr ≠ 0 ∧ place addr align e ≠ addr ∧ place addr align e + size ≤ e.top))

variable [DecidableEq κ]

instance : Decidable (Room addr size t align e) :=
  inferInstanceAs (Decidable (_ ∧ _))

instance : Decidable (Meets addr size t e) :=
  inferInstanceAs (Decidable (_ ∧ _))

instance : Decidable (Stops addr size t e) :=
  inferInstanceAs (Decidable (_ ∧ _ ∧ _ ∧ ¬Meets addr size t e))

instance (w : Nat) : Decidable (Astray addr size t align e w) :=
  inferInstanceAs (Decidable (_ ∧ Meets addr size t e ∧ _))

instance decidableUpto (P : Span κ → List (Span κ) → Prop) [∀ e es, Decidable (P e es)] :
    ∀ es, Decidable (Upto addr size t align P es)
  | []      => isTrue trivial
  | _ :: es =>
    have := decidableUpto P es
    inferInstanceAs (Decidable (_ ∧ _))

end

section

variable {addr size align : Nat}

theorem start_le_place : start addr e ≤ place addr align e := by
  rw [place]
  split
  case isTrue      => exact le_rfl
  case isFalse hal => exact le_roundup (Nat.pos_of_ne_zero hal)

theorem Room.addr_le (h : Room addr size t align e) : e.addr ≤ place addr align e := by
  refine le_trans ?_ start_le_place
  rw [start]
  split
  case isTrue     => exact le_rfl
  case isFalse h0 => exact h.right.left.resolve_left h0

theorem dvd_place (hal : align ≠ 0) : align ∣ place addr align e := by
  rw [place, if_neg hal]
  exact dvd_roundup

theorem Room.meets (h : Room addr size t align e) : Meets addr size t e := by
  have hstart : start addr e ≤ place addr align e := start_le_place
  obtain ⟨ht, haddr, hroom⟩ := h
  refine ⟨ht, or_iff_not_imp_left.mpr fun h0 => ?_⟩
  rw [start, if_neg h0] at hstart
  exact ⟨haddr.resolve_left h0, by omega, .inl (by omega)⟩

theorem Stops.not_room (h : Stops addr size t e) : ¬Room addr size t align e :=
  fun hroom => h.right.right.right hroom.meets

theorem Stops.not_room_of_before (h : Stops addr size t e) (hef : e.Before f) : ¬Room addr size t align f := by
  rintro ⟨hf, haddr, -⟩
  obtain ⟨he, h0, htop, -⟩ := h
  have := haddr.resolve_left h0
  rcases hef with hef | ⟨-, hef⟩
  · omega
  · exact hef (he.trans hf.symm)

theorem room_of_le {b : Nat} (ht : e.type = t) (hal : align ≠ 0 → align ∣ b) (haddr : addr ≠ 0 → b = addr)
    (hle : e.addr ≤ b) (htop : b + size ≤ e.top) : Room addr size t align e := by
  have hstart : start addr e ≤ b := by
    rw [start]
    split
    case isTrue     => exact hle
    case isFalse h0 => exact (haddr h0).ge
  have hplace : place addr align e ≤ b := by
    rw [place]
    split
    case isTrue     => exact hstart
    case isFalse h0 => exact roundup_le (Nat.pos_of_ne_zero h0) (hal h0) hstart
  refine ⟨ht, ?_, by omega⟩
  by_cases h0 : addr = 0
  · exact .inl h0
  · exact .inr (haddr h0 ▸ hle)

end

-- What a search does at an entry.
inductive Scan (α : Type*)
  | next
  | stop
  | take (a : α)

namespace Scan

variable {ι α : Type*} {g : ι → Scan α} {span : ι → Span κ} {val : α → Nat} {i : ι} {is : List ι}

-- The entry that is taken, with those before and after it.
def find (g : ι → Scan α) : List ι → Option (List ι × ι × List ι × α)
  | []      => none
  | i :: is =>
    match g i with
    | .next   => (find g is).map fun r => (i :: r.fst, r.snd)
    | .stop   => none
    | .take a => some ([], i, is, a)

theorem find_append {is' : List ι} (h : ∀ i ∈ is'.head?, g i = .stop) :
    find g (is ++ is') = (find g is).map fun r => (r.fst, r.snd.fst, r.snd.snd.fst ++ is', r.snd.snd.snd) := by
  induction is
  case nil =>
    cases is'
    case nil       => rfl
    case cons i is =>
      rw [List.nil_append, find, find, h i rfl]
      rfl
  case cons i is ih =>
    rw [List.cons_append, find, find, ih]
    cases g i
    case next   => simp only [Option.map_map]; rfl
    case stop   => rfl
    case take a => rfl

-- The entry has no room, or it is taken.
def Right (addr size : Nat) (t : κ) (align : Nat) (val : α → Nat) (e : Span κ) : Scan α → Prop
  | .next   => ¬Room addr size t align e ∧ ¬Stops addr size t e
  | .stop   => Stops addr size t e
  | .take a => Room addr size t align e ∧ val a = place addr align e

variable {addr size align : Nat} {P : Span κ → List (Span κ) → Prop}

theorem find_right (hlaid : Laid (is.map span)) (hupto : Upto addr size t align P (is.map span))
    (hg : ∀ i ∈ is, ∀ es, P (span i) es → Right addr size t align val (span i) (g i)) :
    (find g is = none ∧ ∀ i ∈ is, ¬Room addr size t align (span i)) ∨
    ∃ pre i post a, find g is = some (pre, i, post, a) ∧ is = pre ++ i :: post ∧ Room addr size t align (span i) ∧
      val a = place addr align (span i) ∧ P (span i) (post.map span) ∧ ∀ j ∈ pre, ¬Room addr size t align (span j) := by
  induction is
  case nil          => exact .inl ⟨rfl, by simp⟩
  case cons i is ih =>
    obtain ⟨hP, hrest⟩ := hupto
    obtain ⟨-, hbefore, hlaid⟩ := laid_cons.mp hlaid
    have hi := hg i List.mem_cons_self _ hP
    rw [find]
    cases hgi : g i <;> rw [hgi] at hi
    case next =>
      rcases ih hlaid (hrest hi.left hi.right) fun j hj => hg j (List.mem_cons_of_mem _ hj) with
        ⟨hnone, hroom⟩ | ⟨pre, j, post, a, hfind, rfl, hroom, ha, hj, hpre⟩
      · refine .inl ⟨by simp [hnone], List.forall_mem_cons.mpr ⟨hi.left, hroom⟩⟩
      · exact .inr ⟨i :: pre, j, post, a, by simp [hfind], rfl, hroom, ha, hj, List.forall_mem_cons.mpr ⟨hi.left, hpre⟩⟩
    case stop =>
      refine .inl ⟨rfl, List.forall_mem_cons.mpr ⟨hi.not_room, fun j hj hroom => ?_⟩⟩
      have hji := hbefore _ (List.mem_map_of_mem hj)
      exact hi.not_room_of_before hji hroom
    case take a => exact .inr ⟨[], i, is, a, rfl, rfl, hi.left, hi.right, hP, by simp⟩

end Scan

end Span
