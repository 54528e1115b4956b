import Nix.Port.Fault
import Nix.Port.SyssegSpace

namespace Port.Fault

open Sysseg

variable {p : Proc} {write : Bool} {s t : Segment} {a addr n k : Nat} {len : Int}

theorem plus_eq (h : 0 ≤ len) (hlt : a + len < 2 ^ 64) : plus a len = a + len.toNat := by
  rw [plus]
  omega

theorem seg_some (h : seg p a = some s) : ∃ i, p i = some s ∧ s.base ≤ a ∧ a < s.top := by
  obtain ⟨i, -, hi⟩ := List.exists_of_findSome?_eq_some h
  obtain ⟨hs, hin⟩ := Option.filter_eq_some_iff.mp hi
  exact ⟨i, hs, of_decide_eq_true hin⟩

theorem seg_none (h : seg p a = none) (hin : s.base ≤ a ∧ a < s.top) (i : SegNo) : p i ≠ some s := by
  intro hi
  have := List.findSome?_eq_none_iff.mp h i (SegNo.mem_all i)
  rw [hi] at this
  have hle : s.top ≤ a := by simpa [hin] using this
  exact hle.not_gt hin.right

theorem not_has (h : seg p a = none) : ¬Has p write a := by
  rintro ⟨i, s, hi, hle, hlt, -⟩
  exact seg_none h ⟨hle, hlt⟩ i hi

theorem Layout.has_iff (h : Layout p) (hs : seg p a = some s) (hle : s.base ≤ n) (hlt : n < s.top) :
    Has p write n ↔ ¬(write = true ∧ ronly s = true) := by
  obtain ⟨i, hi, -, -⟩ := seg_some hs
  constructor
  · rintro ⟨j, t, ht, hlet, hltt, hw⟩ ⟨hwrite, hr⟩
    have hij : i = j := by
      by_contra hij
      exact Set.disjoint_left.mp (h.disjoint i j hij s hi t ht) ⟨hle, hlt⟩ ⟨hlet, hltt⟩
    subst hij
    obtain rfl := Option.some.inj (hi.symm.trans ht)
    rw [hw hwrite] at hr
    exact Bool.noConfusion hr
  · intro hno
    refine ⟨i, s, hi, hle, hlt, fun hw => ?_⟩
    by_contra hr
    exact hno ⟨hw, by simpa using hr⟩

theorem okaddrs_eq (h : Layout p) (h0 : 0 ≤ len) (hlen : len < 2 ^ 31) (hlt : addr + len < 2 ^ 64) (hk : len.toNat < k) :
    ∃ b, okaddrs p write k addr len = some b ∧
      (b = true ↔ ∀ n, addr ≤ n → n < addr + max 1 len.toNat → Has p write n) := by
  induction k generalizing addr len
  case zero      => exact absurd hk (Nat.not_lt_zero _)
  case succ k ih =>
    rw [okaddrs]
    cases hs : seg p addr
    case none =>
      refine ⟨false, rfl, iff_of_false Bool.false_ne_true fun hall => ?_⟩
      exact not_has hs (hall addr le_rfl (by omega))
    case some s =>
      obtain ⟨i, hi, hbase, htop⟩ := seg_some hs
      have hmax := h.lt i s hi
      dsimp only
      by_cases hw : write = true ∧ ronly s = true
      case pos =>
        rw [if_pos hw]
        refine ⟨false, rfl, iff_of_false Bool.false_ne_true fun hall => ?_⟩
        exact (h.has_iff hs hbase htop).mp (hall addr le_rfl (by omega)) hw
      case neg =>
        rw [if_neg hw, plus_eq h0 hlt]
        by_cases hover : s.top < addr + len.toNat
        case pos =>
          have hminus : minus s.top addr = s.top - addr := by
            unfold minus uintptr
            omega
          have hlong : long (len - minus s.top addr) = len - (s.top - addr : Nat) := by
            rw [hminus, long]
            exact Int.bmod_eq_of_le (by omega) (by omega)
          rw [if_pos hover, hlong]
          obtain ⟨b, hb, hiff⟩ := @ih s.top (len - (s.top - addr : Nat)) (by omega) (by omega) (by omega)
            (by omega)
          refine ⟨b, hb, hiff.trans ⟨fun hall n hle hlt => ?_, fun hall n hle hlt => hall n (by omega) (by omega)⟩⟩
          by_cases hn : n < s.top
          · exact (h.has_iff hs (by omega) hn).mpr hw
          · exact hall n (by omega) (by omega)
        case neg =>
          rw [if_neg hover]
          refine ⟨true, rfl, iff_of_true rfl fun n hle hlt => (h.has_iff hs (by omega) (by omega)).mpr hw⟩

-- Where the sum wraps it is not looked further than at the first byte.
theorem okaddr_wraps (h : Layout p) (h0 : 0 ≤ len) (hlen : len < 2 ^ 31) (haddr : addr < 2 ^ 64)
    (hwrap : 2 ^ 64 ≤ addr + len) : ∃ b, okaddr p addr len write = some b ∧ (b = true ↔ Has p write addr) := by
  rw [okaddr, if_pos h0, okaddrs]
  cases hs : seg p addr
  case none   => exact ⟨false, rfl, iff_of_false Bool.false_ne_true (not_has hs)⟩
  case some s =>
    obtain ⟨i, hi, hbase, htop⟩ := seg_some hs
    have hiff : Has p write addr ↔ _ := h.has_iff hs hbase htop
    dsimp only
    by_cases hw : write = true ∧ ronly s = true
    case pos =>
      rw [if_pos hw]
      exact ⟨false, rfl, iff_of_false Bool.false_ne_true fun hhas => hiff.mp hhas hw⟩
    case neg =>
      have hplus : plus addr len ≤ addr := by
        rw [plus]
        omega
      rw [if_neg hw, if_neg (by omega)]
      exact ⟨true, rfl, iff_of_true rfl (hiff.mpr hw)⟩

theorem okaddr_right_iff (h : Layout p) (h0 : 0 ≤ len) (hlen : len < 2 ^ 31) (haddr : addr < 2 ^ 64) :
    OkaddrRight p addr len write ↔ ¬Wraps p addr len write := by
  by_cases hwrap : 2 ^ 64 ≤ addr + len
  case pos =>
    obtain ⟨b, hb, hiff⟩ := @okaddr_wraps _ write _ _ h h0 hlen haddr hwrap
    have hlast : ¬∀ n, addr ≤ n → n < addr + max 1 len.toNat → Has p write n := fun hall => by
      obtain ⟨i, s, hi, -, hlt, -⟩ := hall (2 ^ 64 - 1) (by omega) (by omega)
      have := h.lt i s hi
      omega
    constructor
    · rintro ⟨b', hb', hall⟩ ⟨hhas, -⟩
      obtain rfl := Option.some.inj (hb.symm.trans hb')
      exact hlast (hall.mp (hiff.mpr hhas))
    · intro hno
      refine ⟨b, hb, iff_of_false (fun hb => hno ⟨hiff.mp hb, hwrap⟩) hlast⟩
  case neg =>
    refine iff_of_true ?_ fun hw => hwrap hw.right
    rw [OkaddrRight, okaddr, if_pos h0]
    exact okaddrs_eq h h0 hlen (by omega) (Nat.lt_succ_self _)

section

variable {mem : Nat → UInt8} {c : UInt8} {es : List Event} {o : Outcome} {m b : Nat}

theorem without_self : Without mem c a a :=
  fun _ hle hlt => absurd hle hlt.not_ge

theorem Without.append (h : Without mem c a b) (h' : Without mem c b n) : Without mem c a n :=
  fun x hle hlt => (Nat.lt_or_ge x b).elim (h x hle) fun hb => h' x hb hlt

theorem Without.mono (h : Without mem c a b) (ha : a ≤ m) (hb : n ≤ b) : Without mem c m n :=
  fun x hle hlt => h x (ha.trans hle) (hlt.trans_le hb)

-- What `memchr` reads and finds, where it does not wrap.
structure Chars (mem : Nat → UInt8) (c : UInt8) (n a : Nat) (r : List Event × Option Nat) : Prop where
  result : IsFirst mem c a n r.snd
  reads  : ∀ e ∈ r.fst, ∃ x, e = .read x ∧ a ≤ x ∧ x < a + n ∧ Without mem c a x
  all    : ∀ x, a ≤ x → x < a + n → Without mem c a x → .read x ∈ r.fst

theorem memchr_chars (h : a + n < 2 ^ 64) : Chars mem c n a (memchr mem c n a) := by
  induction n generalizing a
  case zero   =>
    refine ⟨without_self, by simp [memchr], fun x hle hlt => ?_⟩
    exact absurd hle hlt.not_ge
  case succ n ih =>
    rw [memchr]
    by_cases hc : mem a = c
    case pos =>
      rw [if_pos hc]
      refine ⟨⟨le_rfl, by omega, hc, without_self⟩, fun e he => ?_, fun x hle hlt hno => ?_⟩
      · exact ⟨a, List.mem_singleton.mp he, le_rfl, by omega, without_self⟩
      · rcases hle.eq_or_lt with rfl | hlt'
        · exact List.mem_singleton_self _
        · exact absurd hc (hno a le_rfl hlt')
    case neg =>
      have hplus : plus a 1 = a + 1 := by
        rw [plus]
        omega
      have hone : Without mem c a (a + 1) := fun x hle hlt => by
        obtain rfl : x = a := by omega
        exact hc
      rw [if_neg hc, hplus]
      obtain ⟨hresult, hreads, hall⟩ := ih (a := a + 1) (by omega)
      refine ⟨?_, fun e he => ?_, fun x hle hlt hno => ?_⟩
      · dsimp only
        cases hr : (memchr mem c n (a + 1)).snd <;> rw [hr] at hresult
        case none   => exact hone.append (hresult.mono le_rfl (by omega))
        case some x =>
          obtain ⟨hle, hlt, hx, hno⟩ := hresult
          exact ⟨by omega, by omega, hx, hone.append hno⟩
      · rcases List.mem_cons.mp he with rfl | he
        · exact ⟨a, rfl, le_rfl, by omega, without_self⟩
        · obtain ⟨x, rfl, hle, hlt, hno⟩ := hreads e he
          exact ⟨x, rfl, by omega, by omega, hone.append hno⟩
      · rcases hle.eq_or_lt with rfl | hlt'
        · exact List.mem_cons_self
        · exact List.mem_cons_of_mem _ (hall x hlt' (by omega) (hno.mono (by omega) le_rfl))

theorem and_KZERO (h : a < KZERO) : a &&& KZERO ≠ KZERO :=
  (Nat.and_le_left.trans_lt h).ne

theorem okaddr_one (h : Layout p) (ha : a < 2 ^ 63) : ∃ b, okaddr p a 1 false = some b ∧ (b = true ↔ Has p false a) := by
  obtain ⟨b, hb, hiff⟩ := @okaddrs_eq p false a 2 1 h (by omega) (by omega) (by omega) (by decide)
  refine ⟨b, hb, hiff.trans ⟨fun hall => hall a le_rfl (by omega), fun hhas n hle hlt => ?_⟩⟩
  obtain rfl : n = a := by omega
  exact hhas

theorem next_le (hb : BIGPGSZ ∣ b) (hab : a < b) : a + (BIGPGSZ - a % BIGPGSZ) ≤ b := by
  obtain ⟨q, rfl⟩ := hb
  unfold BIGPGSZ at *
  omega

theorem next_dvd : BIGPGSZ ∣ a + (BIGPGSZ - a % BIGPGSZ) := by
  unfold BIGPGSZ
  omega

theorem next_pos : 0 < BIGPGSZ - a % BIGPGSZ :=
  Nat.sub_pos_of_lt (Nat.mod_lt a (by decide))

-- Where the loop goes on: the last byte is not on the page that `a` is rounded up to the end of.
def Crosses (a n : Nat) : Prop :=
  if n = 0 then a % BIGPGSZ = 1 else BIGPGSZ - a % BIGPGSZ + 1 < n ∨ a % BIGPGSZ = 0 ∧ 1 < n

instance : Decidable (Crosses a n) :=
  inferInstanceAs (Decidable (if n = 0 then _ else _))

theorem crosses_iff (h : a + n < 2 ^ 62) : roundup a BIGPGSZ ≠ roundup (plus a (n - 1)) BIGPGSZ ↔ Crosses a n := by
  by_cases hzero : a = 0 ∧ n = 0
  case pos =>
    obtain ⟨rfl, rfl⟩ := hzero
    decide
  case neg =>
    have hup {x : Nat} (hx : x < 2 ^ 63) : roundup x BIGPGSZ = (x + (BIGPGSZ - 1)) / BIGPGSZ * BIGPGSZ := by
      rw [roundup, uintptr, Nat.mod_eq_of_lt (by unfold BIGPGSZ; omega)]
    have hplus : plus a (n - 1) = a + n - 1 := by
      unfold plus
      omega
    rw [hplus, hup (by omega), hup (by omega), Crosses]
    unfold BIGPGSZ
    split <;> omega

theorem vmemchr_step (h : Layout p) (hn : n < 2 ^ 31) (hlt : a + n < 2 ^ 62) (k : Nat) : ∃ r, Chars mem c (BIGPGSZ - a % BIGPGSZ) a r ∧
    ∃ ok, (ok = true ↔ Has p false (a + (BIGPGSZ - a % BIGPGSZ))) ∧ vmemchr p mem c (k + 1) a n =
      if Crosses a n then
        if r.snd ≠ none then
          some (r.fst, .ret r.snd)
        else if ok then
          (vmemchr p mem c k (a + (BIGPGSZ - a % BIGPGSZ)) (n - (BIGPGSZ - a % BIGPGSZ : Nat))).map fun r' =>
            (r.fst ++ .valid (a + (BIGPGSZ - a % BIGPGSZ)) :: r'.fst, r'.snd)
        else
          some (r.fst ++ [.valid (a + (BIGPGSZ - a % BIGPGSZ))], .suicide)
      else
        some ((memchr mem c n a).fst, .ret (memchr mem c n a).snd) := by
  have hpage : BIGPGSZ = 2 ^ 21 := rfl
  have hplus : plus a (BIGPGSZ - a % BIGPGSZ : Nat) = a + (BIGPGSZ - a % BIGPGSZ) := by
    unfold plus
    omega
  have hulong : ulong n = n := by
    unfold ulong
    omega
  obtain ⟨ok, hok, hiff⟩ := okaddr_one (a := a + (BIGPGSZ - a % BIGPGSZ)) h (by omega)
  have huser := and_KZERO (a := a + (BIGPGSZ - a % BIGPGSZ)) (by unfold KZERO; omega)
  refine ⟨_, memchr_chars (by omega), ok, hiff, ?_⟩
  rw [vmemchr]
  dsimp only
  rw [hplus, if_pos huser, hok, hulong]
  refine if_congr (crosses_iff hlt) (if_congr Iff.rfl rfl ?_) rfl
  cases ok
  case false => rfl
  case true  =>
    cases vmemchr p mem c k (a + (BIGPGSZ - a % BIGPGSZ)) (n - (BIGPGSZ - a % BIGPGSZ : Nat)) <;> rfl

theorem VmemchrRight.extend {r : List Event × Option Nat} (hr : Chars mem c m a r) (hno : Without mem c a (a + m))
    (hm : m < n) (h : VmemchrRight p mem c (a + m) (n - m) es o) :
    VmemchrRight p mem c a n (r.fst ++ .valid (a + m) :: es) o where
  reads x hx := by
    rcases List.mem_append.mp hx with hx | hx
    · obtain ⟨y, heq, hle, hlt, -⟩ := hr.reads _ hx
      obtain rfl := Event.read.inj heq
      exact ⟨hle, by omega⟩
    · rcases List.mem_cons.mp hx with heq | hx
      · cases heq
      · have := h.reads x hx
        omega
  pages x hx := by
    rcases List.mem_append.mp hx with hx | hx
    · obtain ⟨y, heq, -⟩ := hr.reads _ hx
      cases heq
    · rcases List.mem_cons.mp hx with heq | hx
      · obtain rfl := Event.valid.inj heq
        exact ⟨a + m, Nat.le_add_right a m, by omega, rfl⟩
      · obtain ⟨y, hle, hlt, heq⟩ := h.pages x hx
        exact ⟨y, by omega, by omega, heq⟩
  result t ht := by
    have hfirst := h.result t ht
    cases t
    case none   => exact hno.append (hfirst.mono le_rfl (by omega))
    case some x =>
      obtain ⟨hle, hlt, hx, hno'⟩ := hfirst
      exact ⟨by omega, by omega, hx, hno.append hno'⟩
  fails ho := by
    obtain ⟨x, hx, hno⟩ := h.fails ho
    exact ⟨x, List.mem_append_right _ (List.mem_cons_of_mem _ hx), hno⟩

theorem Chars.right {r : List Event × Option Nat} (hr : Chars mem c m a r) (hm : ∀ x, r.snd = some x → x < a + n)
    (hnone : r.snd = none → m = n) : VmemchrRight p mem c a n r.fst (.ret r.snd) where
  reads x hx := by
    obtain ⟨y, heq, hle, hlt, hno⟩ := hr.reads _ hx
    obtain rfl := Event.read.inj heq
    refine ⟨hle, ?_⟩
    have hresult := hr.result
    cases h : r.snd <;> rw [h] at hresult
    case none   => exact hnone h ▸ hlt
    case some y =>
      have := hm y h
      by_contra hge
      exact hno y hresult.left (by omega) hresult.right.right.left
  pages x hx := by
    obtain ⟨y, heq, -⟩ := hr.reads _ hx
    cases heq
  result t ht := by
    obtain rfl := Outcome.ret.inj ht
    have hresult := hr.result
    cases h : r.snd <;> rw [h] at hresult
    case none   => exact hnone h ▸ hresult
    case some y => exact ⟨hresult.left, hm y h, hresult.right.right⟩
  fails ho := by cases ho

-- Where it stays, the turns are all on pages of the string.
theorem vmemchr_right (h : Layout p) (hn : n < 2 ^ 31) (hlt : a + n < 2 ^ 62) (hk : n < k)
    (hstays : Stays p mem c a n) : ∃ es o, vmemchr p mem c k a n = some (es, o) ∧ VmemchrRight p mem c a n es o := by
  induction k generalizing a n
  case zero      => exact absurd hk (Nat.not_lt_zero _)
  case succ k ih =>
    have hpage : BIGPGSZ = 2 ^ 21 := rfl
    obtain ⟨r, hr, ok, hok, hstep⟩ := @vmemchr_step _ _ _ mem c h hn hlt k
    rw [hstep]
    by_cases hcross : Crosses a n
    case neg =>
      have hall := @memchr_chars a n mem c (by omega)
      rw [if_neg hcross]
      refine ⟨_, _, rfl, hall.right (fun x hx => ?_) fun _ => rfl⟩
      have := hall.result
      rw [hx] at this
      exact this.right.left
    case pos =>
      rw [if_pos hcross]
      have hm := next_pos (a := a)
      -- the string does not end on this page, unless there is a `c`
      have hmore (hno : Without mem c a (a + n)) : BIGPGSZ - a % BIGPGSZ < n := by
        rcases hstays with hyes | ⟨b, hb, hab, hbn, -⟩ | hends
        · exact absurd hno hyes
        · have := next_le hb hab
          omega
        · unfold Ends at hends
          unfold Crosses at hcross
          unfold BIGPGSZ at *
          split at hends <;> split at hcross <;> omega
      by_cases hfound : r.snd = none
      case neg =>
        obtain ⟨x, hx⟩ := Option.ne_none_iff_exists'.mp hfound
        rw [if_pos hfound]
        refine ⟨_, _, rfl, hr.right (fun y hy => ?_) fun hnone => absurd hnone hfound⟩
        have hresult := hr.result
        rw [hy] at hresult
        by_contra hge
        have := hmore (hresult.right.right.right.mono le_rfl (by omega))
        have := hresult.right.left
        omega
      case pos =>
        have hno : Without mem c a (a + (BIGPGSZ - a % BIGPGSZ)) := by
          have := hr.result
          rwa [hfound] at this
        have hlt' : BIGPGSZ - a % BIGPGSZ < n := by
          by_contra hge
          exact hge (hmore (hno.mono le_rfl (by omega)))
        have hsub : (n : Int) - (BIGPGSZ - a % BIGPGSZ : Nat) = (n - (BIGPGSZ - a % BIGPGSZ) : Nat) := by omega
        rw [if_neg (not_not_intro hfound), hsub]
        cases ok
        case false =>
          refine ⟨_, _, rfl, fun x hx => ?_, fun x hx => ?_, fun t ht => (by cases ht), fun _ => ?_⟩
          · obtain ⟨y, heq, hle, hlt, -⟩ := hr.reads _ ((List.mem_append.mp hx).resolve_right (by simp))
            obtain rfl := Event.read.inj heq
            exact ⟨hle, by omega⟩
          · rcases List.mem_append.mp hx with hx | hx
            · obtain ⟨y, heq, -⟩ := hr.reads _ hx
              cases heq
            · obtain rfl := Event.valid.inj (List.mem_singleton.mp hx)
              exact ⟨_, Nat.le_add_right a _, by omega, rfl⟩
          · exact ⟨_, List.mem_append_right _ (List.mem_singleton_self _), fun hhas => Bool.false_ne_true (hok.mpr hhas)⟩
        case true =>
          have hnext : Stays p mem c (a + (BIGPGSZ - a % BIGPGSZ)) (n - (BIGPGSZ - a % BIGPGSZ)) := by
            have hsum : a + (BIGPGSZ - a % BIGPGSZ) + (n - (BIGPGSZ - a % BIGPGSZ)) = a + n := by omega
            rw [Stays, hsum]
            rcases hstays with hyes | ⟨b, hb, hab, hbn, hbad⟩ | hends
            · exact .inl fun hno' => hyes (hno.append hno')
            · refine .inr (.inl ⟨b, hb, lt_of_le_of_ne (next_le hb hab) fun heq => ?_, hbn, hbad⟩)
              exact hbad (heq ▸ hok.mp rfl)
            · refine .inr (.inr ?_)
              unfold Ends at hends ⊢
              rw [if_neg (by omega), hsum]
              unfold BIGPGSZ at *
              split at hends <;> omega
          obtain ⟨es, o, hrun, hright⟩ := ih (a := a + (BIGPGSZ - a % BIGPGSZ)) (n := n - (BIGPGSZ - a % BIGPGSZ))
            (by omega) (by omega) (by omega) hnext
          rw [hrun]
          exact ⟨_, _, rfl, hright.extend hr hno hlt'⟩

-- Where it does not, there is one that is not.
theorem vmemchr_stray (h : Layout p) (hn : n < 2 ^ 31) (hlt : a + n < 2 ^ 62) (hstays : ¬Stays p mem c a n)
    (hrun : vmemchr p mem c k a n = some (es, o)) :
    ∃ x, a + n ≤ x ∧ (.read x ∈ es ∨ BIGPGSZ ∣ x ∧ .valid x ∈ es) := by
  induction k generalizing a n es o
  case zero      => cases hrun
  case succ k ih =>
    obtain ⟨r, hr, ok, hok, hstep⟩ := @vmemchr_step _ _ _ mem c h hn hlt k
    obtain ⟨hno, hvalid, hends⟩ : Without mem c a (a + n) ∧ (∀ b, BIGPGSZ ∣ b → a < b → b < a + n → Has p false b) ∧
        ¬Ends a n := by
      unfold Stays at hstays
      push Not at hstays
      exact hstays
    have hcross : Crosses a n := by
      unfold Ends at hends
      unfold Crosses
      unfold BIGPGSZ at *
      split at hends <;> split <;> omega
    have hm := next_pos (a := a)
    rw [hstep, if_pos hcross] at hrun
    -- what there is of the page is read
    have hreads : ∀ e ∈ r.fst, e ∈ es := by
      split at hrun
      · obtain ⟨rfl, -⟩ := Prod.ext_iff.mp (Option.some.inj hrun)
        exact fun e he => he
      · split at hrun
        · obtain ⟨r', -, heq⟩ := Option.map_eq_some_iff.mp hrun
          obtain ⟨rfl, -⟩ := Prod.ext_iff.mp heq
          exact fun e he => List.mem_append_left _ he
        · obtain ⟨rfl, -⟩ := Prod.ext_iff.mp (Option.some.inj hrun)
          exact fun e he => List.mem_append_left _ he
    rcases Nat.lt_or_ge n (BIGPGSZ - a % BIGPGSZ) with hlt' | hge
    · exact ⟨a + n, le_rfl, .inl (hreads _ (hr.all (a + n) (Nat.le_add_right a n) (by omega) hno))⟩
    have hnone : r.snd = none := by
      by_contra hne
      obtain ⟨x, hx⟩ := Option.ne_none_iff_exists'.mp hne
      have hresult := hr.result
      rw [hx] at hresult
      have := hresult.right.left
      exact hno x hresult.left (by omega) hresult.right.right.left
    rw [if_neg (not_not_intro hnone)] at hrun
    rcases hge.eq_or_lt with heq | hlt'
    · refine ⟨a + (BIGPGSZ - a % BIGPGSZ), by omega, .inr ⟨next_dvd, ?_⟩⟩
      split at hrun
      · obtain ⟨r', -, heq⟩ := Option.map_eq_some_iff.mp hrun
        obtain ⟨rfl, -⟩ := Prod.ext_iff.mp heq
        simp
      · obtain ⟨rfl, -⟩ := Prod.ext_iff.mp (Option.some.inj hrun)
        simp
    · have hsub : (n : Int) - (BIGPGSZ - a % BIGPGSZ : Nat) = (n - (BIGPGSZ - a % BIGPGSZ) : Nat) := by omega
      have hsum : a + (BIGPGSZ - a % BIGPGSZ) + (n - (BIGPGSZ - a % BIGPGSZ)) = a + n := by omega
      rw [if_pos (hok.mpr (hvalid _ next_dvd (by omega) (by omega))), hsub] at hrun
      obtain ⟨⟨es', o'⟩, hrun', heq⟩ := Option.map_eq_some_iff.mp hrun
      obtain ⟨rfl, -⟩ := Prod.ext_iff.mp heq
      have hnext : ¬Stays p mem c (a + (BIGPGSZ - a % BIGPGSZ)) (n - (BIGPGSZ - a % BIGPGSZ)) := by
        rw [Stays, hsum]
        rintro (hyes | ⟨b, hb, hab, hbn, hbad⟩ | hends')
        · exact hyes (hno.mono (Nat.le_add_right a _) le_rfl)
        · exact hbad (hvalid b hb (by omega) hbn)
        · unfold Ends at hends hends'
          rw [if_neg (by omega), hsum] at hends'
          unfold BIGPGSZ at *
          split at hends <;> omega
      obtain ⟨x, hx, hmem⟩ := ih (by omega) (by omega) hnext hrun'
      refine ⟨x, hsum ▸ hx, hmem.imp (fun hmem => ?_) fun hmem => ⟨hmem.left, ?_⟩⟩
      · exact List.mem_append_right _ (List.mem_cons_of_mem _ hmem)
      · exact List.mem_append_right _ (List.mem_cons_of_mem _ hmem.right)

theorem vmemchr_right_iff (h : Layout p) (ha : a < USTKTOP) (hn : n < 2 ^ 31) :
    (∃ k es o, vmemchr p mem c k a n = some (es, o) ∧ VmemchrRight p mem c a n es o) ↔ Stays p mem c a n := by
  have hlt : a + n < 2 ^ 62 := by
    unfold USTKTOP at ha
    omega
  constructor
  · rintro ⟨k, es, o, hrun, hright⟩
    by_contra hstays
    obtain ⟨x, hx, hread | ⟨⟨q, rfl⟩, hvalid⟩⟩ := vmemchr_stray h hn hlt hstays hrun
    · exact (hright.reads x hread).right.not_ge hx
    · obtain ⟨b, -, hb, heq⟩ := hright.pages _ hvalid
      unfold BIGPGSZ at *
      omega
  · intro hstays
    exact ⟨n + 1, vmemchr_right h hn hlt (Nat.lt_succ_self n) hstays⟩

end

-- `okaddr` is right but for sums that wrap, and `vmemchr` but for strings that it goes past the end of.
theorem validates (h : Layout p) :
    (∀ addr len write, addr < 2 ^ 64 → 0 ≤ len → len < 2 ^ 31 →
      (OkaddrRight p addr len write ↔ ¬Wraps p addr len write)) ∧
    ∀ mem c (s n : Nat), s < USTKTOP → n < 2 ^ 31 →
      ((∃ k es o, vmemchr p mem c k s n = some (es, o) ∧ VmemchrRight p mem c s n es o) ↔ Stays p mem c s n) :=
  ⟨fun _ _ _ haddr h0 hlen => okaddr_right_iff h h0 hlen haddr, fun _ _ _ _ hs hn => vmemchr_right_iff h hs hn⟩

-- One segment, from the beginning of a page.
def text : Proc
  | .tseg => some { type := SG_TEXT, base := 0x200000, top := 0x400000, size := 1, pgszi := .big }
  | _     => none

theorem text_layout : Layout text := by
  refine ⟨fun i j hij s hs t ht => ?_, fun i s hs => ?_⟩
  · cases i <;> cases hs
    cases j <;> cases ht
    exact absurd rfl hij
  · cases i <;> cases hs
    decide

theorem text_has_iff (n : Nat) : Has text false n ↔ 0x200000 ≤ n ∧ n < 0x400000 := by
  constructor
  · rintro ⟨i, s, hs, hle, hlt, -⟩
    cases i <;> cases hs
    exact ⟨hle, hlt⟩
  · exact fun h => ⟨.tseg, _, rfl, h.left, h.right, fun h => by cases h⟩

-- All the text is valid, and of a name that begins in the middle of a page no more than the name is read.
theorem validates_text : OkaddrRight text 0x200000 0x200000 false ∧
    ∃ k es o, vmemchr text (fun _ => 1) 0 k 0x200100 0x10000 = some (es, o) ∧
      VmemchrRight text (fun _ => 1) 0 0x200100 0x10000 es o := by
  refine ⟨((validates text_layout).left _ _ _ (by decide) (by decide) (by decide)).mpr fun h => ?_,
    ((validates text_layout).right _ _ _ _ (by decide) (by decide)).mpr (.inr (.inr (by decide)))⟩
  exact absurd h.right (by decide)

-- A name that begins with a page, and has no end, is read up to the end of the page.
theorem not_validates : ∃ (p : Proc) (mem : Nat → UInt8) (c : UInt8) (s n : Nat), Layout p ∧ Has p false s ∧ s < USTKTOP ∧
    n < 2 ^ 31 ∧ ¬∃ k es o, vmemchr p mem c k s n = some (es, o) ∧ VmemchrRight p mem c s n es o := by
  refine ⟨text, fun _ => 1, 0, 0x200000, 0x10000, text_layout, (text_has_iff _).mpr (by decide), by decide, by decide, ?_⟩
  rw [vmemchr_right_iff text_layout (by decide) (by decide)]
  rintro (hyes | ⟨b, hb, hlt, hlt', hno⟩ | hends)
  · exact hyes fun _ _ _ => (by decide : (1 : UInt8) ≠ 0)
  · exact hno ((text_has_iff b).mpr (by omega))
  · exact absurd hends (by decide)

end Port.Fault
