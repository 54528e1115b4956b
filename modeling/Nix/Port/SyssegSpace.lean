import Nix.Port.Sysseg
import Nix.Lib.Except

namespace Port.Sysseg

variable {sys : Sys} {p p' : Proc} {s s' t ns : Segment} {seg i j : SegNo} {lo hi len va addr newtop rtop n : Nat}

@[simp]
theorem SegNo.mem_all (i : SegNo) : i ∈ SegNo.all := by
  cases i <;> decide

theorem ico_disjoint {a b c d : Nat} :
    Disjoint (Set.Ico a b) (Set.Ico c d) ↔ b ≤ a ∨ d ≤ c ∨ b ≤ c ∨ d ≤ a := by
  rw [Set.Ico_disjoint_Ico]
  omega

-- No segment, save those that are left out, lies in the range.
def Vacant (p : Proc) (out : SegNo → Prop) (lo hi : Nat) : Prop :=
  ∀ i, ¬out i → ∀ t ∈ p i, Disjoint (Set.Ico lo hi) (Set.Ico t.base t.top)

namespace Vacant

variable {out : SegNo → Prop} {lo' hi' : Nat}

theorem mono (h : Vacant p out lo hi) (hlo : lo ≤ lo') (hhi : hi' ≤ hi) : Vacant p out lo' hi' :=
  fun i hi t ht => (h i hi t ht).mono_left (Set.Ico_subset_Ico hlo hhi)

end Vacant

namespace AddressSpace

theorem vacant (h : AddressSpace p) (hs : p seg = some s) : Vacant p (· = seg) s.base s.top :=
  fun i hi t ht => h.disjoint seg i (fun he => hi he.symm) s hs t ht

theorem set (h : AddressSpace p) (hv : Vacant p (· = seg) s.base s.top) (hw : Within s.base s.top) :
    AddressSpace (Function.update p seg (some s)) where
  disjoint i j hij u hu t ht := by
    by_cases hi : i = seg <;> by_cases hj : j = seg
    · exact absurd (hi.trans hj.symm) hij
    · obtain rfl : s = u := by simpa [hi] using hu
      exact hv j hj t (by simpa [hj] using ht)
    · obtain rfl : s = t := by simpa [hj] using ht
      exact (hv i hi u (by simpa [hi] using hu)).symm
    · exact h.disjoint i j hij u (by simpa [hi] using hu) t (by simpa [hj] using ht)
  within i u hu := by
    by_cases hi : i = seg
    · obtain rfl : s = u := by simpa [hi] using hu
      exact hw
    · exact h.within i u (by simpa [hi] using hu)

theorem clear (h : AddressSpace p) : AddressSpace (Function.update p seg none) where
  disjoint i j hij u hu t ht := by
    have hi : i ≠ seg := fun hi => by simp [hi] at hu
    have hj : j ≠ seg := fun hj => by simp [hj] at ht
    exact h.disjoint i j hij u (by simpa [hi] using hu) t (by simpa [hj] using ht)
  within i u hu := by
    have hi : i ≠ seg := fun hi => by simp [hi] at hu
    exact h.within i u (by simpa [hi] using hu)

end AddressSpace

theorem vacant_of_isoverlap (h : isoverlap p lo len = none) (hhi : lo + len < 2 ^ 64) (hh : ¬Hides p lo (lo + len)) :
    Vacant p (fun _ => False) lo (lo + len) := by
  intro i _ t ht
  have hmeets : ¬t.Meets lo (lo + len) := by
    rw [isoverlap, List.findSome?_eq_none_iff] at h
    have := h i (SegNo.mem_all i)
    rw [ht, Option.filter_eq_none_iff] at this
    refine fun hm => this t rfl ?_
    rw [decide_eq_true_eq, uintptr, Nat.mod_eq_of_lt hhi]
    exact hm
  have hin : ¬(t.base < t.top ∧ lo < t.base ∧ t.top < lo + len) :=
    fun hin => hh ⟨i, SegNo.mem_all i, t, ht, hin⟩
  rw [Segment.Meets] at hmeets
  rw [ico_disjoint]
  omega

theorem newseg_eq_ok {type size : Nat} (h : newseg sys type lo size = .ok s) :
    s.base = lo ∧ s.top = uintptr (lo + size * BIGPGSZ) := by
  rw [newseg] at h
  split at h <;> cases h
  exact ⟨rfl, rfl⟩

theorem newseg_within {type : Nat} (hn : newseg sys type lo (len / BIGPGSZ) = .ok s) (hw : Within lo (lo + len)) :
    s.base = lo ∧ Within s.base s.top ∧ s.top ≤ lo + len := by
  obtain ⟨hbase, htop⟩ := newseg_eq_ok hn
  have hle := Nat.div_mul_le_self len BIGPGSZ
  simp only [Within, UTZERO, KZERO, MiB] at hw ⊢
  have htop : s.top = lo + len / BIGPGSZ * BIGPGSZ := by
    rw [htop, uintptr, Nat.mod_eq_of_lt (by omega)]
  omega

theorem globalsegattach_none (hg : globalsegattach sys p name = .ok none) :
    sys.globalseg.find? (·.name = name) = none := by
  rw [globalsegattach] at hg
  split at hg
  case h_1 hf => exact hf
  case h_2 =>
    split at hg
    case h_1 => cases hg
    case h_2 => split at hg <;> cases hg

theorem globalsegattach_some (hg : globalsegattach sys p name = .ok (some s)) :
    ∃ g, sys.globalseg.find? (·.name = name) = some g ∧ g.seg = some s ∧
      isoverlap p s.base (usize (minus s.top s.base)) = none := by
  rw [globalsegattach] at hg
  split at hg
  case h_1 => cases hg
  case h_2 g hf =>
    split at hg
    case h_1 => cases hg
    case h_2 hs =>
      split at hg <;> cases hg
      case isFalse hover => exact ⟨g, hf, hs, Option.not_isSome_iff_eq_none.mp hover⟩

theorem globalsegattach_vacant (hg : globalsegattach sys p name = .ok (some s)) (hc : Attaches sys p name va len) :
    Vacant p (fun _ => False) s.base s.top ∧ Within s.base s.top := by
  obtain ⟨g, hf, hs, hover⟩ := globalsegattach_some hg
  rw [Attaches, hf] at hc
  obtain ⟨hw, hlen, hh⟩ := hc s hs
  have hle := hw.right.left
  have htop := hw.right.right
  simp only [KZERO] at htop
  have hsub : usize (minus s.top s.base) = s.top - s.base := by
    rw [usize, minus, uintptr]
    omega
  have hadd : s.base + (s.top - s.base) = s.top := Nat.add_sub_cancel' hle
  have := vacant_of_isoverlap (hsub ▸ hover) (by omega) (by rwa [hadd])
  exact ⟨hadd ▸ this, hw⟩

theorem attachphys_eq_ok (ha : attachphys sys p seg attr name va len = .ok r) :
    ∃ ps lo n type s, sys.physseg.find? (·.name = name) = some ps ∧ settle p ps va len = .ok (lo, n) ∧
      isoverlap p lo n = none ∧ newseg sys type lo (n / BIGPGSZ) = .ok s ∧ r = (lo, Function.update p seg (some s)) := by
  rw [attachphys] at ha
  split at ha
  case h_1 => cases ha
  case h_2 ps hps =>
    obtain ⟨⟨lo, n⟩, hset, ha⟩ := Except.bind_eq_ok_iff.mp ha
    dsimp only at ha
    split at ha
    case isTrue => cases ha
    case isFalse hover =>
      split at ha
      case isTrue => cases ha
      case isFalse =>
        obtain ⟨s, hnew, ha⟩ := Except.bind_eq_ok_iff.mp ha
        exact ⟨ps, lo, n, _, s, hps, hset, Option.not_isSome_iff_eq_none.mp hover, hnew, (Except.ok.inj ha).symm⟩

theorem settle_vacant (hg : sys.globalseg.find? (·.name = name) = none) (hc : Attaches sys p name va len)
    (hf : sys.physseg.find? (·.name = name) = some ps) (hset : settle p ps va len = .ok (lo, n))
    (hover : isoverlap p lo n = none) : Vacant p (fun _ => False) lo (lo + n) ∧ Within lo (lo + n) := by
  rw [Attaches, hg] at hc
  obtain ⟨hw, hh⟩ := hc ps hf (lo, n) (Except.toOption_eq_some_iff.mpr hset)
  have hhi := hw.right.right
  simp only [KZERO] at hhi
  exact ⟨vacant_of_isoverlap hover (by omega) hh, hw⟩

theorem segattach_eq_ok (ha : segattach sys p attr name va len = .ok r) :
    (∃ s sno, globalsegattach sys p name = .ok (some s) ∧ r = (s.base, Function.update p sno (some s))) ∨
      ∃ sno, globalsegattach sys p name = .ok none ∧ attachphys sys p sno attr name va len = .ok r := by
  rw [segattach] at ha
  split at ha
  case isTrue => cases ha
  case isFalse =>
    split at ha
    case h_1 => cases ha
    case h_2 sno _ =>
      obtain ⟨g, hg, ha⟩ := Except.bind_eq_ok_iff.mp ha
      cases g with
      | some s => exact .inl ⟨s, sno, hg, (Except.ok.inj ha).symm⟩
      | none   => exact .inr ⟨sno, hg, ha⟩

theorem AddressSpace.segattach (h : AddressSpace p) (hc : Attaches sys p name va len)
    (ha : segattach sys p attr name va len = .ok r) : AddressSpace r.snd := by
  obtain ⟨s, sno, hg, rfl⟩ | ⟨sno, hg, ha⟩ := segattach_eq_ok ha
  · obtain ⟨hv, hw⟩ := globalsegattach_vacant hg hc
    exact h.set (fun i _ => hv i not_false) hw
  · obtain ⟨ps, lo, n, type, s, hf, hset, hover, hnew, rfl⟩ := attachphys_eq_ok ha
    obtain ⟨hv, hw⟩ := settle_vacant (globalsegattach_none hg) hc hf hset hover
    obtain ⟨hbase, hin, htop⟩ := newseg_within hnew hw
    exact h.set (fun i _ => (hv.mono hbase.ge htop) i not_false) hin

theorem AddressSpace.segdetach (h : AddressSpace p) (hd : segdetach p addr = .ok p') : AddressSpace p' := by
  rw [Sysseg.segdetach] at hd
  split at hd
  case h_1 => cases hd
  case h_2 =>
    split at hd <;> cases hd
    exact h.clear

-- No segment is found at the new end of a segment that is grown, and none ends in between.
theorem vacant_of_grows (hg : ¬Jumps p seg lo newtop)
    (hover : ¬∃ i ∈ SegNo.all, i ≠ seg ∧ ∃ ns ∈ p i, ns.base ≤ newtop ∧ newtop < ns.top) :
    Vacant p (· = seg) lo newtop := by
  intro i hi t ht
  have hjump : ¬(t.base < t.top ∧ lo < t.top ∧ t.top ≤ newtop) :=
    fun hj => hg ⟨i, SegNo.mem_all i, hi, t, ht, hj⟩
  have hend : ¬(t.base ≤ newtop ∧ newtop < t.top) :=
    fun he => hover ⟨i, SegNo.mem_all i, hi, t, ht, he⟩
  rw [ico_disjoint]
  omega

theorem dvd_roundup {x y : Nat} : y ∣ roundup x y :=
  Nat.dvd_mul_left ..

theorem roundup_le {x y z : Nat} (hx : x ≤ z) (hy : y ∣ z) (h : 0 < y) : roundup x y ≤ z := by
  obtain ⟨k, rfl⟩ := hy
  rw [roundup, uintptr, Nat.mul_comm y k]
  refine Nat.mul_le_mul_right y (Nat.lt_succ_iff.mp (Nat.div_lt_of_lt_mul ?_))
  have : (x + (y - 1)) % 2 ^ 64 ≤ x + (y - 1) := Nat.mod_le ..
  rw [Nat.mul_succ]
  omega

-- The bss is extended to the next 1 GiB below the new end, which is a multiple of 1 GiB.
theorem roundup_far {k : Pgsz} (hfar : uintptr (roundup n GiB + GiB) ≤ newtop) (hn : n ≤ newtop)
    (htop : newtop ≤ KZERO)
    (ht : newtop = if uintptr (roundup n GiB + GiB) ≤ addr then roundup addr GiB else roundup addr k.bytes) :
    n ≤ roundup n GiB ∧ roundup n GiB ≤ newtop ∧ roundup newtop GiB = newtop := by
  have hmul : GiB ∣ uintptr (roundup n GiB + GiB) :=
    (Nat.dvd_mod_iff (by decide)).mpr (Nat.dvd_add_self_right.mpr dvd_roundup)
  have hdvd : GiB ∣ newtop := by
    split at ht
    case isTrue => exact ht ▸ dvd_roundup
    case isFalse hlt =>
      have hbytes : k.bytes ∣ GiB := by cases k <;> decide
      have hle : roundup addr k.bytes ≤ uintptr (roundup n GiB + GiB) :=
        roundup_le (Nat.le_of_not_le hlt) (Nat.dvd_trans hbytes hmul) (by cases k <;> decide)
      have heq := Nat.le_antisymm (ht.trans_le hle) hfar
      rw [heq]
      exact hmul
  clear ht
  simp only [roundup, uintptr, GiB, KZERO] at *
  omega

theorem clamp_le (h : clamp p s seg addr = .ok n) : s.base ≤ n := by
  rw [clamp] at h
  split at h
  case isFalse hn => exact Except.ok.inj h ▸ Nat.le_of_not_lt hn
  case isTrue =>
    split at h
    case h_2 => cases h
    case h_1 =>
      split at h <;> cases h
      exact le_rfl

theorem AddressSpace.split (h : AddressSpace p) (hs : p .bseg = some s) (hv : Vacant p (· = .bseg) s.base hi)
    (hlo : s.base ≤ mid) (hmid : mid ≤ hi) (hhi : hi ≤ KZERO) (hns : ns.base = mid) (hw : Within ns.base ns.top)
    (htop : ns.top ≤ hi) (hbase : s'.base = s.base) (hend : s'.top = mid) :
    AddressSpace (Function.update (Function.update p .hseg (some ns)) .bseg (some s')) := by
  have hwithin := (h.within .bseg s hs).left
  -- the bss first, to make room for the new segment
  have hfirst : AddressSpace (Function.update p .bseg (some s')) := by
    refine h.set ?_ ?_
    · exact hbase ▸ hend ▸ hv.mono le_rfl hmid
    · exact hbase ▸ hend ▸ ⟨hwithin, hlo, hmid.trans hhi⟩
  rw [Function.update_comm (by decide)]
  refine hfirst.set (fun i hi t ht => ?_) hw
  by_cases hb : i = .bseg
  case pos =>
    obtain rfl : s' = t := by simpa [hb] using ht
    rw [ico_disjoint]
    omega
  case neg => exact (hv.mono (hns ▸ hlo) htop) i hb t (by simpa [hb] using ht)

theorem AddressSpace.extend (h : AddressSpace p) (hs : p seg = some s) (hle : s.top ≤ s.newtop seg addr)
    (htop : s.newtop seg addr ≤ KZERO) (hv : Vacant p (· = seg) s.base (s.newtop seg addr))
    (he : extend sys p s seg (s.newtop seg addr) = .ok r) : AddressSpace r.snd := by
  have hw := h.within seg s hs
  rw [Sysseg.extend] at he
  split at he
  case isFalse =>
    cases he
    exact h.set hv ⟨hw.left, hw.right.left.trans hle, htop⟩
  case isTrue hfar =>
    obtain ⟨rfl, hfar⟩ := hfar
    obtain ⟨hup, hdown, hrtop⟩ := roundup_far hfar hle htop (by simp only [Segment.newtop, true_and]; rfl)
    rw [hrtop] at he
    dsimp only at he
    generalize s.newtop .bseg addr = newtop at *
    generalize roundup s.top GiB = newtop' at *
    split at he
    case isTrue => cases he
    case isFalse =>
      obtain ⟨ns, hnew, he⟩ := Except.bind_eq_ok_iff.mp he
      obtain rfl := Except.ok.inj he
      have hminus : minus newtop newtop' = newtop - newtop' := by
        simp only [KZERO] at htop
        rw [minus, uintptr]
        omega
      have hadd : newtop' + (newtop - newtop') = newtop := Nat.add_sub_cancel' hdown
      have hup := hw.right.left.trans hup
      have hwithin : Within newtop' (newtop' + minus newtop newtop') := by
        rw [hminus, hadd]
        exact ⟨hw.left.trans hup, hdown, htop⟩
      obtain ⟨hbase, hin, hns⟩ := newseg_within hnew hwithin
      rw [hminus, hadd] at hns
      exact h.split hs hv hup hdown htop hbase hin hns rfl rfl

theorem ibrk_eq_ok (hb : ibrk sys p addr seg = .ok r) : ∃ s, p seg = some s ∧ (r.snd = p ∧ addr = 0 ∨ addr ≠ 0 ∧
    ∃ n, clamp p s seg addr = .ok n ∧
      ((s.newtop seg n < s.top ∧ ∃ size,
          r.snd = Function.update p seg (some { s with top := s.newtop seg n, size := size })) ∨
        (s.top ≤ s.newtop seg n ∧ extend sys p s seg (s.newtop seg n) = .ok r ∧
          ¬∃ i ∈ SegNo.all, i ≠ seg ∧ ∃ ns ∈ p i, ns.base ≤ s.newtop seg n ∧ s.newtop seg n < ns.top))) := by
  rw [ibrk] at hb
  split at hb
  case h_1 => cases hb
  case h_2 s hs =>
    split at hb
    case isTrue ha => exact ⟨s, hs, .inl ⟨(congrArg Prod.snd (Except.ok.inj hb)).symm, ha⟩⟩
    case isFalse ha =>
      obtain ⟨n, hclamp, hb⟩ := Except.bind_eq_ok_iff.mp hb
      dsimp only at hb
      refine ⟨s, hs, .inr ⟨ha, n, hclamp, ?_⟩⟩
      split at hb
      case isTrue hlt => exact .inl ⟨hlt, _, (congrArg Prod.snd (Except.ok.inj hb)).symm⟩
      case isFalse hle =>
        split at hb
        case isTrue => cases hb
        case isFalse =>
          split at hb
          case isTrue => cases hb
          case isFalse hover => exact .inr ⟨Nat.le_of_not_lt hle, hb, hover⟩

theorem AddressSpace.ibrk (h : AddressSpace p) (hc : Breaks p addr seg) (hb : ibrk sys p addr seg = .ok r) :
    AddressSpace r.snd := by
  obtain ⟨s, hs, ⟨hr, -⟩ | ⟨ha, n, hclamp, hb⟩⟩ := ibrk_eq_ok hb
  · exact hr ▸ h
  · obtain ⟨hup, hgrows⟩ := hc s hs ha n (Except.toOption_eq_some_iff.mpr hclamp)
    obtain ⟨hlt, _, hr⟩ | ⟨hle, hext, hover⟩ := hb
    · have hw := h.within seg s hs
      have hv := h.vacant hs
      rw [hr]
      exact h.set (hv.mono le_rfl hlt.le) ⟨hw.left, (clamp_le hclamp).trans hup, hlt.le.trans hw.right.right⟩
    · obtain ⟨htop, hjumps⟩ := hgrows hle
      exact h.extend hs hle htop (vacant_of_grows hjumps hover) hext

theorem ibrk_of_syssegbrk (ha : saddr ≠ 0) (hseg : segbrkseg p saddr = some seg)
    (hb : syssegbrk sys p saddr addr = .ok r) : ibrk sys p addr seg = .ok r := by
  rw [syssegbrk, if_neg ha, hseg] at hb
  dsimp only at hb
  split at hb
  case h_1 => cases hb
  case h_2 =>
    split at hb
    case isTrue => cases hb
    case isFalse => exact hb

theorem AddressSpace.syssegbrk (h : AddressSpace p)
    (hc : saddr ≠ 0 → ∀ i ∈ segbrkseg p saddr, Breaks p addr i) (hb : syssegbrk sys p saddr addr = .ok r) :
    AddressSpace r.snd := by
  by_cases hs : saddr = 0
  case pos =>
    rw [Sysseg.syssegbrk, if_pos hs] at hb
    split at hb <;> cases hb <;> exact h
  case neg =>
    cases hseg : segbrkseg p saddr with
    | none   => rw [Sysseg.syssegbrk, if_neg hs, hseg] at hb; cases hb
    | some i => exact h.ibrk (hc hs i hseg) (ibrk_of_syssegbrk hs hseg hb)

theorem addressspace_of_clear : (machine sys).Invariant (Clear sys) AddressSpace where
  init h := h
  step {p a p'} h hc hs := by
    cases a <;> simp only [machine, step, Except.toOption_eq_some_iff, Except.map_eq_ok_iff] at hs
    case segattach attr name va len =>
      obtain ⟨r, hr, rfl⟩ := hs
      exact h.segattach hc hr
    case segdetach addr => exact h.segdetach hs
    case ibrk addr seg =>
      obtain ⟨r, hr, rfl⟩ := hs
      exact h.ibrk hc hr
    case segbrk saddr addr =>
      obtain ⟨r, hr, rfl⟩ := hs
      exact h.syssegbrk hc hr

theorem AddressSpace.vacant_of_ibrk (h : AddressSpace p) (hc : Breaks p addr seg) (hs : p seg = some s)
    (ha : addr ≠ 0) (hclamp : clamp p s seg addr = .ok n) (hb : Sysseg.ibrk sys p addr seg = .ok r) :
    Vacant p (· = seg) s.base (s.newtop seg n) := by
  obtain ⟨s', hs', ⟨-, hz⟩ | ⟨-, n', hclamp', hb⟩⟩ := ibrk_eq_ok hb
  · contradiction
  · obtain rfl := Option.some.inj (hs.symm.trans hs')
    obtain rfl := Except.ok.inj (hclamp.symm.trans hclamp')
    obtain ⟨hlt, -⟩ | ⟨hle, -, hover⟩ := hb
    · exact (h.vacant hs).mono le_rfl hlt.le
    · obtain ⟨-, hgrows⟩ := hc s hs ha n (Except.toOption_eq_some_iff.mpr hclamp)
      exact vacant_of_grows (hgrows hle).right hover

theorem AddressSpace.vacant_of_wants (h : AddressSpace p) (hc : Clear sys p a) (hw : Wants sys p a others lo hi)
    (hs : step sys p a = some p') : Vacant p (¬others ·) lo hi := by
  induction hw with
  | globalseg hf hseg =>
    simp only [step, Except.toOption_eq_some_iff, Except.map_eq_ok_iff] at hs
    obtain ⟨r, hr, -⟩ := hs
    obtain ⟨s', sno, hg, -⟩ | ⟨sno, hg, -⟩ := segattach_eq_ok hr
    · obtain ⟨g', hf', hseg', -⟩ := globalsegattach_some hg
      obtain rfl := Option.some.inj (hf.symm.trans hf')
      obtain rfl := Option.some.inj (hseg.symm.trans hseg')
      exact fun i _ => (globalsegattach_vacant hg hc).left i not_false
    · cases hf.symm.trans (globalsegattach_none hg)
  | physseg hg hf hset =>
    simp only [step, Except.toOption_eq_some_iff, Except.map_eq_ok_iff] at hs
    obtain ⟨r, hr, -⟩ := hs
    obtain ⟨s', sno, hg', -⟩ | ⟨sno, -, ha⟩ := segattach_eq_ok hr
    · obtain ⟨g', hf', -⟩ := globalsegattach_some hg'
      cases hg.symm.trans hf'
    · obtain ⟨ps', lo', n', _, _, hf', hset', hover, -⟩ := attachphys_eq_ok ha
      obtain rfl := Option.some.inj (hf.symm.trans hf')
      obtain ⟨rfl, rfl⟩ := Prod.mk.inj (Except.ok.inj (hset.symm.trans hset'))
      exact fun i _ => (settle_vacant hg hc hf hset hover).left i not_false
  | ibrk hseg ha hclamp =>
    simp only [step, Except.toOption_eq_some_iff, Except.map_eq_ok_iff] at hs
    obtain ⟨r, hr, -⟩ := hs
    exact fun i hi => h.vacant_of_ibrk hc hseg ha hclamp hr i (fun he => hi (fun hne => hne he))
  | segbrk hsaddr hseg _ ih =>
    refine ih (hc hsaddr _ hseg) ?_
    simp only [step, Except.toOption_eq_some_iff, Except.map_eq_ok_iff] at hs ⊢
    obtain ⟨r, hr, hp⟩ := hs
    exact ⟨r, ibrk_of_syssegbrk hsaddr hseg hr, hp⟩

theorem addressspace_kept (hr : (machine sys).Reachable (Clear sys) p) :
    AddressSpace p ∧ ∀ a, Clear sys p a → Overlaps sys p a → step sys p a = none := by
  have h := addressspace_of_clear.holds hr
  refine ⟨h, fun a hc ⟨others, lo, hi, hw, i, hi', t, ht, hover⟩ => ?_⟩
  cases hs : step sys p a with
  | none    => rfl
  | some p' => exact absurd (h.vacant_of_wants hc hw hs i (not_not.mpr hi') t ht) hover

theorem addressspace_iff : AddressSpace p ↔ (∀ i ∈ SegNo.all, ∀ s ∈ p i, Within s.base s.top) ∧
    ∀ i ∈ SegNo.all, ∀ j ∈ SegNo.all, i ≠ j → ∀ s ∈ p i, ∀ t ∈ p j,
      s.top ≤ s.base ∨ t.top ≤ t.base ∨ s.top ≤ t.base ∨ t.top ≤ s.base := by
  simp only [SegNo.mem_all, forall_const, ← ico_disjoint]
  exact ⟨fun h => ⟨h.within, h.disjoint⟩, fun h => ⟨h.right, h.left⟩⟩

instance (p : Proc) : Decidable (AddressSpace p) :=
  decidable_of_iff _ addressspace_iff.symm

def shared : Sys where
  physseg   := [{ name := "shared", attr := 4, size := SEGMAPSIZE, gva := 0 }]
  globalseg := []
  huge      := true

-- A process as `exec` leaves it, with 2 MiB for each segment.
def fresh : Proc
  | .tseg => some { type := SG_TEXT, base := UTZERO, top := 2 * UTZERO, size := 1, pgszi := .big }
  | .dseg => some { type := SG_DATA, base := 2 * UTZERO, top := 3 * UTZERO, size := 1, pgszi := .big }
  | .bseg => some { type := SG_BSS, base := 3 * UTZERO, top := 4 * UTZERO, size := 1, pgszi := .big }
  | .sseg => some { type := SG_STACK, base := 2 ^ 46, top := 2 ^ 46 + BIGPGSZ, size := 1, pgszi := .big }
  | _     => none

-- The second segment contains the first one.
def contained : Proc :=
  ((machine shared).exec fresh
    [.segattach 0 "shared" GiB BIGPGSZ, .segattach 0 "shared" (GiB - BIGPGSZ) (3 * BIGPGSZ)]).get (by decide +kernel)

-- The bss is grown to an address past a segment.
def jumped : Proc :=
  ((machine shared).exec fresh
    [.segattach 0 "shared" GiB BIGPGSZ, .ibrk (GiB + 2 * BIGPGSZ) .bseg]).get (by decide +kernel)

-- The segment begins below the kernel's addresses and ends in them.
def crossed : Proc :=
  ((machine shared).exec fresh [.segattach 0 "shared" (KZERO - BIGPGSZ) (2 * BIGPGSZ)]).get (by decide +kernel)

theorem overlapping_segments : AddressSpace fresh ∧ ∀ p ∈ [contained, jumped, crossed],
    (machine shared).Reachable (fun _ _ => True) p ∧ ¬AddressSpace p := by
  have hfresh : AddressSpace fresh := by decide +kernel
  have hinit : (machine shared).Reachable (fun _ _ => True) _ := .init hfresh
  simp only [List.forall_mem_cons, List.not_mem_nil, false_imp_iff, implies_true, and_true]
  refine ⟨hfresh, ⟨?_, by decide +kernel⟩, ⟨?_, by decide +kernel⟩, ?_, by decide +kernel⟩
  all_goals exact hinit.exec (fun _ _ _ => trivial) (Option.some_get _).symm

-- The bss is grown by more than 1 GiB, and a segment is attached and detached.
def grown : Proc :=
  (((machine shared).guarded (Clear shared)).exec fresh
    [.segbrk (3 * UTZERO) (3 * GiB), .segattach 0 "shared" (8 * GiB) BIGPGSZ, .segdetach (8 * GiB)]).get (by decide +kernel)

theorem grown_kept : AddressSpace grown ∧ ∀ a, Clear shared grown a → Overlaps shared grown a → step shared grown a = none :=
  have hfresh : AddressSpace fresh := by decide +kernel
  addressspace_kept ((Machine.Reachable.init hfresh).guarded (Option.some_get _).symm)

end Port.Sysseg
