import Nix.Lib.Words

-- The checksum of the internet protocols.
namespace Ip.Ptclbsum

section

open OnesComplement

-- Numbers of type `ulong`.
def plus (a b : Nat) : Nat :=
  (a + b) % 2 ^ 32

-- The word at an even address. `little` tells whether the machine takes the first byte for the least significant one.
def word (little : Bool) (l : List UInt8) (i : Nat) : Nat :=
  if little then (l.getD i 0).toNat + 256 * (l.getD (i + 1) 0).toNat else 256 * (l.getD i 0).toNat + (l.getD (i + 1) 0).toNat

-- The loop that takes eight words at a time.
def unrolled (little : Bool) (mdsum : Nat) (l : List UInt8) : Nat × List UInt8 :=
  if _h : 16 ≤ l.length then
    let t := word little l
    let mdsum := plus (plus (plus (plus mdsum (t 0)) (t 2)) (t 4)) (t 6)
    unrolled little (plus (plus (plus (plus mdsum (t 8)) (t 10)) (t 12)) (t 14)) (l.drop 16)
  else
    (mdsum, l)
termination_by l.length
decreasing_by
  rw [List.length_drop]
  omega

-- The loop that takes one word at a time.
def single (little : Bool) (mdsum : Nat) (l : List UInt8) : Nat × List UInt8 :=
  if _h : 2 ≤ l.length then
    single little (plus mdsum (word little l 0)) (l.drop 2)
  else
    (mdsum, l)
termination_by l.length
decreasing_by
  rw [List.length_drop]
  omega

-- The loop that adds the carries.
def fold (losum : Nat) : Nat :=
  if h : losum / 65536 = 0 then losum else fold (losum / 65536 + losum % 65536)
termination_by losum
decreasing_by omega

-- What the two functions do at their end.
def finish (losum hisum : Nat) : Nat :=
  fold (plus (plus losum (hisum / 256)) (hisum % 256 * 256))

def ptclbsum (little : Bool) (addr : Nat) (l : List UInt8) : Nat :=
  let first : Nat := if addr % 2 = 1 then (l.head?.map UInt8.toNat).getD 0 else 0
  let (mdsum, rest) := unrolled little 0 (if addr % 2 = 1 then l.tail else l)
  let (mdsum, rest) := single little mdsum rest
  let last : Nat := (rest.head?.map UInt8.toNat).getD 0
  if addr % 2 = 1 then
    if little then finish (plus last mdsum) first else finish last (plus first mdsum)
  else
    if little then finish 0 (plus last mdsum) else finish mdsum last

structure Block where
  rp   : Nat
  data : List UInt8
deriving DecidableEq, Repr

-- The front of the data area.
def skip (offset : Nat) : List Block → List Block
  | []      => []
  | b :: bp => if offset ≠ 0 ∧ b.data.length ≤ offset then skip (offset - b.data.length) bp
    else { rp := b.rp + offset, data := b.data.drop offset } :: bp

def chain (little : Bool) (losum hisum : Nat) (odd : Bool) (len : Nat) : List Block → Nat × Nat
  | []      => (losum, hisum)
  | b :: bp =>
    if len = 0 then
      (losum, hisum)
    else
      let x := min b.data.length len
      let csum := ptclbsum little b.rp (b.data.take x)
      let losum' := if odd then losum else plus losum csum
      let hisum' := if odd then plus hisum csum else hisum
      chain little losum' hisum' (odd ^^ x % 2 = 1) (len - x) bp

def ptclcsum (little : Bool) (bp : List Block) (offset len : Nat) : Nat :=
  match skip offset bp with
  | []      => 0
  | [b]     => 65535 - ptclbsum little b.rp (b.data.take len)
  | b :: bp =>
    let (losum, hisum) := chain little 0 0 false len (b :: bp)
    65535 - finish losum hisum

end

open OnesComplement

variable {little : Bool} {addr s losum hisum offset len : Nat} {l m r : List UInt8} {bp : List Block}

-- What words come to on the machine.
def weight (little : Bool) (l : List UInt8) : Nat :=
  if little then weigh 1 256 l else weigh 256 1 l

theorem plus_eq (h : s + losum < 2 ^ 32) : plus s losum = s + losum :=
  Nat.mod_eq_of_lt h

theorem word_drop (little : Bool) (l : List UInt8) (k i : Nat) : word little (l.drop k) i = word little l (k + i) := by
  simp only [word, List.getD_eq_getElem?_getD, List.getElem?_drop, Nat.add_assoc]

theorem single_step (h : 2 ≤ l.length) (s : Nat) :
    single little s l = single little (plus s (word little l 0)) (l.drop 2) := by
  rw [single, dif_pos h]

theorem single_unrolled (little : Bool) (s : Nat) (l : List UInt8) :
    single little (unrolled little s l).fst (unrolled little s l).snd = single little s l := by
  induction s, l using unrolled.induct little
  case case1 s l hl t s' hi =>
    have hstep (k : Nat) (hk : k + 2 ≤ 16) (s : Nat) :
        single little s (l.drop k) = single little (plus s (word little l k)) (l.drop (k + 2)) := by
      have hlen : 2 ≤ (l.drop k).length := by
        rw [List.length_drop]
        omega
      rw [single_step hlen, word_drop, List.drop_drop, Nat.add_zero]
    have hzero : single little s l = single little s (l.drop 0) := by rw [List.drop_zero]
    rw [unrolled, dif_pos hl, hi, hzero]
    rw [hstep 0 (by decide), hstep 2 (by decide), hstep 4 (by decide), hstep 6 (by decide)]
    rw [hstep 8 (by decide), hstep 10 (by decide), hstep 12 (by decide), hstep 14 (by decide)]
  case case2 s l hl => rw [unrolled, dif_neg hl]

theorem weight_cons (h : 2 ≤ l.length) (l' : List UInt8) :
    weight little (l.take 2 ++ l') = word little l 0 + weight little l' := by
  obtain ⟨a, b, t, rfl⟩ : ∃ a b t, l = a :: b :: t := by
    rcases l with _ | ⟨a, _ | ⟨b, t⟩⟩
    · contradiction
    · exact absurd h (by simp)
    · exact ⟨a, b, t, rfl⟩
  cases little
  case true =>
    show weigh 1 256 (a :: b :: l') = a.toNat + 256 * b.toNat + weigh 1 256 l'
    simp only [weigh]
    omega
  case false =>
    show weigh 256 1 (a :: b :: l') = 256 * a.toNat + b.toNat + weigh 256 1 l'
    simp only [weigh]
    omega

theorem single_eq (little : Bool) (s : Nat) (l : List UInt8) (hs : s < 2 ^ 32) :
    ∃ m r, l = m ++ r ∧ m.length % 2 = 0 ∧ r.length < 2 ∧ single little s l = ((s + weight little m) % 2 ^ 32, r) := by
  induction s, l using single.induct little
  case case1 s l hl hi =>
    obtain ⟨m, r, hm, heven, hr, heq⟩ := hi <| Nat.mod_lt _ (by decide)
    refine ⟨l.take 2 ++ m, r, ?_, ?_, hr, ?_⟩
    · rw [List.append_assoc, ← hm, List.take_append_drop]
    · rw [List.length_append, List.length_take, Nat.min_eq_left hl]
      omega
    · rw [single_step hl, heq, weight_cons hl, plus, Nat.mod_add_mod, Nat.add_assoc]
  case case2 s l hl =>
    refine ⟨[], l, rfl, rfl, by omega, ?_⟩
    rw [single, dif_neg hl]
    cases little <;> exact congrArg (·, l) (Nat.mod_eq_of_lt hs).symm

theorem fold_eq (n : Nat) : fold n = reduce n := by
  induction n using fold.induct
  case case1 n hn =>
    rw [fold, dif_pos hn]
    exact (reduce_of_lt <| by omega).symm
  case case2 n hn hi => rw [fold, dif_neg hn, hi, reduce_carry]

theorem finish_eq (h : losum + swap hisum < 2 ^ 32) : finish losum hisum = reduce (losum + 256 * hisum) := by
  rw [swap] at h
  have h₁ : losum + hisum / 256 < 2 ^ 32 := by omega
  have h₂ : losum + hisum / 256 + hisum % 256 * 256 < 2 ^ 32 := by omega
  rw [finish, plus_eq h₁, plus_eq h₂, fold_eq, Nat.add_assoc]
  exact reduce_add (reduce_swap hisum) losum

theorem weigh_last (h : r.length < 2) (v w : Nat) : weigh v w r = v * (r.head?.map UInt8.toNat).getD 0 := by
  rcases r with _ | ⟨a, _ | ⟨b, t⟩⟩
  · rfl
  · rfl
  · exact absurd h (by simp)

theorem last_lt (r : List UInt8) : (r.head?.map UInt8.toNat).getD 0 < 256 := by
  cases r
  case nil => decide
  case cons a r => exact a.toNat_lt

theorem weigh_tail (v w : Nat) (l : List UInt8) :
    weigh v w l = v * (l.head?.map UInt8.toNat).getD 0 + weigh w v l.tail := by
  cases l <;> rfl

-- The sum of a buffer, wherever it is, if neither order of its bytes makes more than a `ulong` holds.
theorem ptclbsum_eq (little : Bool) (addr : Nat) (h : weigh 256 1 l < 2 ^ 32) (h' : weigh 1 256 l < 2 ^ 32) :
    ptclbsum little addr l = reduce (weigh 256 1 l) := by
  have hloops (t : List UInt8) := single_unrolled little 0 t
  by_cases haddr : addr % 2 = 1
  case pos =>
    obtain ⟨m, r, hm, heven, hr, heq⟩ := single_eq little 0 l.tail (by decide)
    have hw (v w : Nat) : weigh v w l.tail = weigh v w m + v * (r.head?.map UInt8.toNat).getD 0 := by
      rw [hm, weigh_append, if_pos heven, weigh_last hr]
    have hlast := last_lt r
    have hfirst := last_lt l
    have hl := weigh_tail 256 1 l
    have hl' := weigh_tail 1 256 l
    rw [hw] at hl hl'
    simp only [ptclbsum, if_pos haddr, hloops, heq, Nat.zero_add]
    generalize (r.head?.map UInt8.toNat).getD 0 = last at *
    generalize (l.head?.map UInt8.toNat).getD 0 = first at *
    cases little
    case true =>
      simp only [weight, if_true]
      rw [Nat.mod_eq_of_lt (by omega), plus_eq (by omega), finish_eq (by simp only [swap]; omega), hl]
      congr 1
      omega
    case false =>
      simp only [weight, Bool.false_eq_true, if_false]
      rw [Nat.mod_eq_of_lt (by omega), plus_eq (by omega), finish_eq (by simp only [swap]; omega), ← reduce_weigh', hl']
      exact reduce_congr (by omega) (by omega)
  case neg =>
    obtain ⟨m, r, hm, heven, hr, heq⟩ := single_eq little 0 l (by decide)
    have hw (v w : Nat) : weigh v w l = weigh v w m + v * (r.head?.map UInt8.toNat).getD 0 := by
      rw [hm, weigh_append, if_pos heven, weigh_last hr]
    have hlast := last_lt r
    have hl := hw 256 1
    have hl' := hw 1 256
    simp only [ptclbsum, if_neg haddr, hloops, heq, Nat.zero_add]
    generalize (r.head?.map UInt8.toNat).getD 0 = last at *
    cases little
    case true =>
      simp only [weight, if_true]
      rw [Nat.mod_eq_of_lt (by omega), plus_eq (by omega), finish_eq (by simp only [swap]; omega), ← reduce_weigh', hl']
      congr 1
      omega
    case false =>
      simp only [weight, Bool.false_eq_true, if_false]
      rw [Nat.mod_eq_of_lt (by omega), finish_eq (by simp only [swap]; omega), hl]

-- The bytes that are selected, of all the blocks as one string.
def bytes (bp : List Block) : List UInt8 :=
  bp.flatMap Block.data

theorem bytes_skip (offset : Nat) (bp : List Block) : bytes (skip offset bp) = (bytes bp).drop offset := by
  induction bp generalizing offset
  case nil => simp [skip, bytes]
  case cons b bp hi =>
    rw [skip]
    split
    case isTrue h =>
      rw [hi]
      simp only [bytes, List.flatMap_cons, List.drop_append, List.drop_eq_nil_of_le h.right, List.nil_append]
    case isFalse h =>
      have hle : offset ≤ b.data.length := by omega
      simp only [bytes, List.flatMap_cons, List.drop_append, Nat.sub_eq_zero_of_le hle, List.drop_zero]

-- What bytes come to that go on behind an even or an odd number of others.
def flat (odd : Bool) (l : List UInt8) : Nat :=
  if odd then weigh 1 256 l else weigh 256 1 l

theorem flat_true (l : List UInt8) : flat true l = weigh 1 256 l :=
  rfl

theorem flat_false (l : List UInt8) : flat false l = weigh 256 1 l :=
  rfl

theorem flat_append (odd : Bool) (l m : List UInt8) :
    flat odd (l ++ m) = flat odd l + flat (odd ^^ decide (l.length % 2 = 1)) m := by
  have hodd : decide (l.length % 2 = 1) = !decide (l.length % 2 = 0) := by
    rw [← decide_not, decide_eq_decide]
    omega
  rw [hodd]
  by_cases hl : l.length % 2 = 0 <;> cases odd <;> simp [flat, weigh_append, hl]

-- The two sums of the blocks come to what the bytes of all of them do. Both grow by no more than the bytes of a block
-- come to, when the one for the odd blocks is swapped, and so neither of them is ever more than a `ulong` holds.
theorem chain_eq (little odd : Bool) (losum hisum len : Nat) (bp : List Block)
    (h : losum + swap hisum + flat odd ((bytes bp).take len) < 2 ^ 32)
    (h' : hisum + flat (!odd) ((bytes bp).take len) < 2 ^ 32) :
    finish (chain little losum hisum odd len bp).fst (chain little losum hisum odd len bp).snd =
      reduce (losum + 256 * hisum + flat odd ((bytes bp).take len)) := by
  induction bp generalizing losum hisum odd len
  case nil =>
    have hnil : flat odd ((bytes []).take len) = 0 := by cases odd <;> simp [flat, bytes, weigh]
    rw [hnil, Nat.add_zero] at h ⊢
    exact finish_eq h
  case cons b bp hi =>
    rw [chain]
    by_cases hlen : len = 0
    case pos =>
      have hnil : flat odd ((bytes (b :: bp)).take len) = 0 := by cases odd <;> simp [flat, hlen, weigh]
      rw [hnil, Nat.add_zero] at h ⊢
      rw [if_pos hlen]
      exact finish_eq h
    case neg =>
      obtain ⟨x, hx⟩ : ∃ x, x = min b.data.length len := ⟨_, rfl⟩
      obtain ⟨d, hd⟩ : ∃ d, d = b.data.take x := ⟨_, rfl⟩
      have hdx : d.length = x := by
        rw [hd, hx, List.length_take]
        omega
      have hbytes : (bytes (b :: bp)).take len = d ++ (bytes bp).take (len - x) := by
        have hsub : len - b.data.length = len - x := by omega
        have htake : b.data.take len = b.data.take x := by rw [hx, Nat.min_comm, ← List.take_eq_take_min]
        rw [bytes, List.flatMap_cons, List.take_append, htake, hsub, hd, bytes]
      obtain ⟨odd', hodd⟩ : ∃ odd', odd' = (odd ^^ decide (x % 2 = 1)) := ⟨_, rfl⟩
      have hnot : ((!odd) ^^ decide (x % 2 = 1)) = !odd' := by rw [hodd, Bool.not_xor]
      simp only [if_neg hlen, ← hx, ← hd, ← hodd]
      rw [hbytes, flat_append, hdx] at h h' ⊢
      rw [hnot] at h'
      rw [← hodd] at h ⊢
      obtain ⟨rest, hrest⟩ : ∃ rest, rest = (bytes bp).take (len - x) := ⟨_, rfl⟩
      rw [← hrest] at h h' ⊢
      have hi := hi odd'
      have hd₁ := reduce_le (weigh 256 1 d)
      cases odd
      case false =>
        rw [flat_false] at h ⊢
        rw [Bool.not_false, flat_true] at h'
        rw [ptclbsum_eq little b.rp (l := d) (by omega) (by omega)]
        simp only [Bool.false_eq_true, if_false]
        rw [plus_eq (by omega), hi _ _ _ (by rw [← hrest]; omega) (by rw [← hrest]; omega), ← hrest]
        have := reduce_add (reduce_reduce (weigh 256 1 d)) (losum + 256 * hisum + flat odd' rest)
        convert this using 2 <;> omega
      case true =>
        rw [flat_true] at h ⊢
        rw [Bool.not_true, flat_false] at h'
        have hd₂ := (swap_reduce_le (weigh 256 1 d)).trans <| swap_weigh_le d
        have hadd := swap_add_le hisum (reduce (weigh 256 1 d))
        rw [ptclbsum_eq little b.rp (l := d) (by omega) (by omega)]
        simp only [if_true]
        rw [plus_eq (by omega), hi _ _ _ (by rw [← hrest]; omega) (by rw [← hrest]; omega), ← hrest]
        have h₁ : reduce (256 * reduce (weigh 256 1 d)) = reduce (weigh 1 256 d) :=
          (reduce_mul 256 <| reduce_reduce _).trans <| reduce_weigh d
        have := reduce_add h₁ (losum + 256 * hisum + flat odd' rest)
        convert this using 2 <;> omega

theorem weigh_lt (h : l.length ≤ 131074) : weigh 256 1 l < 2 ^ 32 ∧ weigh 1 256 l < 2 ^ 32 := by
  have h₁ := weigh_le (v := 256) (w := 1) (by decide) (by decide) l
  have h₂ := weigh_le (v := 1) (w := 256) (by decide) (by decide) l
  omega

theorem ptclbsum_even (haddr : addr % 2 = 0) (hl : l.length % 2 = 0) :
    ptclbsum true addr l = finish 0 (weigh 1 256 l % 2 ^ 32) := by
  obtain ⟨m, r, rfl, heven, hr, heq⟩ := single_eq true 0 l (by decide)
  obtain rfl : r = [] := by
    rw [List.length_append] at hl
    exact List.eq_nil_of_length_eq_zero <| by omega
  have haddr : ¬ addr % 2 = 1 := by omega
  simp only [ptclbsum, if_neg haddr, single_unrolled, heq, if_true, Nat.zero_add]
  rw [List.append_nil]
  exact congrArg (finish 0) <| (congrArg (· % 2 ^ 32) <| Nat.zero_add _).trans <| Nat.mod_mod ..

theorem ptclcsum_single (little : Bool) (addr len : Nat) (l : List UInt8) :
    ptclcsum little [⟨addr, l⟩] 0 len = 65535 - ptclbsum little addr (l.take len) := by
  simp [ptclcsum, skip]

theorem weigh_replicate (v w n : Nat) (a : UInt8) : weigh v w (List.replicate (2 * n) a) = n * ((v + w) * a.toNat) := by
  induction n
  case zero => exact (Nat.zero_mul _).symm
  case succ n hi =>
    rw [Nat.mul_succ, List.replicate_succ, List.replicate_succ, weigh, weigh, hi, ← Nat.add_assoc, ← Nat.add_mul,
      Nat.succ_mul, Nat.add_comm]

-- The checksum of any blocks is the complement of the one's-complement sum of the bytes that are selected, on either
-- kind of machine and wherever the blocks are, if neither order of those bytes makes more than a `ulong` holds. It is
-- zero where the start is behind all the blocks.
theorem ptclcsum_eq (little : Bool) (bp : List Block) (offset len : Nat)
    (h : weigh 256 1 (((bytes bp).drop offset).take len) < 2 ^ 32)
    (h' : weigh 1 256 (((bytes bp).drop offset).take len) < 2 ^ 32) :
    (ptclcsum little bp offset len =
      if skip offset bp = [] then 0 else 65535 - sum (((bytes bp).drop offset).take len)) ∧
    (∀ addr, ptclbsum little addr (((bytes bp).drop offset).take len) = sum (((bytes bp).drop offset).take len)) ∧
    ∀ s l, single little (unrolled little s l).fst (unrolled little s l).snd = single little s l := by
  refine ⟨?_, fun addr => (ptclbsum_eq little addr h h').trans (sum_eq _).symm, single_unrolled little⟩
  rw [← bytes_skip] at h h' ⊢
  rw [sum_eq, ptclcsum]
  split
  case h_1 hs => rw [if_pos hs]
  case h_2 b hs =>
    rw [hs] at h h' ⊢
    simp only [bytes, List.flatMap_cons, List.flatMap_nil, List.append_nil] at h h' ⊢
    rw [if_neg nofun, ptclbsum_eq little b.rp h h']
  case h_3 b rest _ hs =>
    rw [hs] at h h' ⊢
    rw [if_neg nofun]
    have hzero : swap 0 = 0 := rfl
    have hchain := chain_eq little false 0 0 len (b :: rest) (by rw [hzero, flat_false]; omega)
      (by rw [Bool.not_false, flat_true]; omega)
    rw [flat_false, Nat.mul_zero, Nat.add_zero, Nat.zero_add] at hchain
    show 65535 - finish (chain little 0 0 false len (b :: rest)).fst (chain little 0 0 false len (b :: rest)).snd = _
    rw [hchain]

-- Blocks of odd lengths, and an empty one, at odd and even addresses.
theorem ptclcsum_odd :
    ptclcsum true [⟨1, [7, 1]⟩, ⟨4, []⟩, ⟨7, [2, 3, 4]⟩, ⟨0, [5]⟩] 1 5 = 65535 - (0x102 + 0x304 + 0x500) ∧
      ptclbsum true 1 [1, 2, 3, 4, 5] = 0x102 + 0x304 + 0x500 :=
  have h := ptclcsum_eq true [⟨1, [7, 1]⟩, ⟨4, []⟩, ⟨7, [2, 3, 4]⟩, ⟨0, [5]⟩] 1 5 (by decide) (by decide)
  ⟨h.left, h.right.left 1⟩

-- The sum of more bytes loses a carry, and where no block is left nothing is complemented.
theorem ptclcsum_long :
    ptclcsum true [⟨0, List.replicate 131076 255⟩] 0 131076 = 0x100 ∧
      65535 - sum (List.replicate 131076 255) = 0 ∧ ptclcsum true [⟨0, [1, 2]⟩] 2 0 = 0 ∧ 65535 - sum [] = 65535 := by
  obtain ⟨l, hl⟩ : ∃ l, l = List.replicate (2 * 65538) (255 : UInt8) := ⟨_, rfl⟩
  have hlen : l.length = 131076 := by rw [hl, List.length_replicate]
  have hw (v w : Nat) : weigh v w l = 65538 * ((v + w) * 255) := by
    rw [hl]
    exact weigh_replicate v w 65538 255
  rw [← hl]
  refine ⟨?_, ?_, rfl, rfl⟩
  · rw [ptclcsum_single, List.take_of_length_le <| Nat.le_of_eq hlen, ptclbsum_even rfl (by rw [hlen]), hw,
      finish_eq (by decide)]
    rfl
  · rw [sum_eq, hw]
    rfl

end Ip.Ptclbsum
