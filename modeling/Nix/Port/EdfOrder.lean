import Nix.Lib.Sorted
import Nix.Port.EdfSched

namespace Port.EdfSched

variable {P : Type*} {s t : State P} {p q : P} {x : Proc}

theorem int32_swap {x y : Int} (h : 0 < int32 (x - y)) : int32 (y - x) ≤ 0 := by
  simp only [int32, Int.bmod] at *
  split at h <;> split <;> omega

namespace State

variable [DecidableEq P]

@[simp]
theorem setproc_edfq : (s.setproc p x).edfq = s.edfq := rfl

@[simp]
theorem setproc_same : (s.setproc p x).proc p = x :=
  Function.update_self ..

@[simp]
theorem setproc_other (h : q ≠ p) : (s.setproc p x).proc q = s.proc q :=
  Function.update_of_ne h ..

theorem setproc_d : (s.setproc p x).d p = x.edf.elim 0 Edf.d := by
  rw [d, setproc_same]

theorem setproc_d_other (h : q ≠ p) : (s.setproc p x).d q = s.d q := by
  rw [d, setproc_other h, d]

theorem d_setproc (h : x.edf.elim 0 Edf.d = s.d p) : (s.setproc p x).d q = s.d q := by
  by_cases hq : q = p
  · rw [hq, setproc_d, h]
  · exact setproc_d_other hq

-- The order of the clock: the sign of the difference.
abbrev Sorted (s : State P) : Prop :=
  s.edfq.Pairwise fun p q => int32 (s.d p - s.d q) ≤ 0

-- The comparison by which a process is inserted in the queue finds what the sign of the difference tells.
def Fits (s : State P) (p : P) : Prop :=
  match (s.proc p).edfready s.now with
  | (x, .queue) => ∀ q ∈ s.edfq, s.d q > x.edf.elim 0 Edf.d ↔ 0 < int32 (s.d q - x.edf.elim 0 Edf.d)
  | _           => True

instance : Decidable (s.Fits p) := by
  unfold Fits
  split <;> infer_instance

-- A process that is released leaves the queue before, or its deadline is still to come. It fits where it is put.
def Released (s : State P) (p : P) (busy : Bool) : Prop :=
  (p ∈ s.edfq → s.dequeueproc p (s.proc p).priedf busy = none → ∀ e ∈ (s.proc p).edf, ¬int32 (e.d - s.now) < 0) ∧
    ((s.releasing p busy).snd = true → (s.releasing p busy).fst.Fits p)

end State

namespace Edf

variable {e : Edf} {now : Int}

theorem release_d (h : ¬int32 (e.d - now) < 0) : (e.release now).d = e.d := by
  rw [release, if_neg h]

theorem run_d {edfpri : Bool} : (e.run now edfpri).d = e.d := by
  rw [run]
  split <;> rfl

theorem set_d {x : Param} : (e.set x).d = e.d := by
  cases x <;> rfl

end Edf

structure Inv (s : State P) : Prop where
  nodup  : s.edfq.Nodup
  queued : ∀ p ∈ s.edfq, (s.proc p).state = .ready ∧ (s.proc p).priedf = true
  sorted : s.edfq.Pairwise fun p q => s.d p ≤ s.d q ∧ int32 (s.d p - s.d q) ≤ 0

namespace Inv

theorem not_mem (hi : Inv s) (h : (s.proc p).state ≠ .ready) : p ∉ s.edfq :=
  fun hp => h (hi.queued p hp).left

theorem of_same (hi : Inv s) (hq : t.edfq = s.edfq)
    (hp : ∀ p ∈ s.edfq, (t.proc p).state = (s.proc p).state ∧ (t.proc p).priedf = (s.proc p).priedf ∧ t.d p = s.d p) :
    Inv t where
  nodup := hq ▸ hi.nodup
  queued p hm := by
    rw [hq] at hm
    have ⟨hs, hpri, _⟩ := hp p hm
    rw [hs, hpri]
    exact hi.queued p hm
  sorted := by
    rw [hq]
    refine hi.sorted.imp_of_mem fun hm hn h => ?_
    rwa [(hp _ hm).right.right, (hp _ hn).right.right]

variable [DecidableEq P]

theorem setproc (hi : Inv s) (hp : p ∉ s.edfq) : Inv (s.setproc p x) := by
  refine hi.of_same rfl fun q hq => ?_
  have hne : q ≠ p := ne_of_mem_of_not_mem hq hp
  rw [State.setproc_d_other hne, State.setproc_other hne]
  exact ⟨rfl, rfl, rfl⟩

theorem setproc_same (hi : Inv s) (hs : x.state = (s.proc p).state) (hpri : x.priedf = (s.proc p).priedf)
    (hd : x.edf.elim 0 Edf.d = s.d p) : Inv (s.setproc p x) := by
  refine hi.of_same rfl fun q _ => ?_
  rw [State.d_setproc hd]
  by_cases hq : q = p
  · rw [hq, State.setproc_same]
    exact ⟨hs, hpri, rfl⟩
  · rw [State.setproc_other hq]
    exact ⟨rfl, rfl, rfl⟩

theorem queueproc (hi : Inv s) (hp : p ∉ s.edfq) : Inv (s.queueproc p) :=
  Inv.setproc (s := { s with runq := s.runq ++ [p] }) ⟨hi.nodup, hi.queued, hi.sorted⟩ hp

theorem insert (hi : Inv s) (hp : p ∉ s.edfq) (hf : ∀ q ∈ s.edfq, s.d q > s.d p ↔ 0 < int32 (s.d q - s.d p)) :
    Inv (s.insert p) := by
  have hperm : (s.insert p).edfq.Perm (p :: s.edfq) := List.perm_orderedInsert _ p s.edfq
  have hd : ∀ q, (s.insert p).d q = s.d q := fun q => State.d_setproc (s := { s with edfq := _ }) rfl
  refine ⟨hperm.nodup_iff.mpr (List.nodup_cons.mpr ⟨hp, hi.nodup⟩), fun q hq => ?_, ?_⟩
  · rcases List.mem_cons.mp (hperm.mem_iff.mp hq) with rfl | hq
    · rw [State.insert, State.setproc_same]
      exact ⟨rfl, rfl⟩
    · have hne : q ≠ p := ne_of_mem_of_not_mem hq hp
      rw [State.insert, State.setproc_other hne]
      exact hi.queued q hq
  · simp only [hd]
    refine hi.sorted.insert_of (fun q hq hlt => ?_) (fun q hq hlt => ?_) (fun q hq r hr hlt hle => ?_)
    · exact ⟨hlt.le, int32_swap <| (hf q hq).mp hlt⟩
    · exact ⟨not_lt.mp hlt, not_lt.mp <| mt (hf q hq).mpr hlt⟩
    · have hlt : s.d p < s.d r := lt_of_lt_of_le hlt hle.left
      exact ⟨hlt.le, int32_swap <| (hf r hr).mp hlt⟩

theorem schedready (hi : Inv s) (hp : p ∉ s.edfq) (hf : s.Fits p) : Inv (s.schedready p) := by
  rw [State.Fits] at hf
  rw [State.schedready]
  split at hf
  case h_1 x hx =>
    rw [hx]
    refine (hi.setproc hp).insert hp fun q hq => ?_
    have hne : q ≠ p := ne_of_mem_of_not_mem hq hp
    rw [State.setproc_d, State.setproc_d_other hne]
    exact hf q hq
  case h_2 hx =>
    split
    case h_1 => exact (hi.setproc hp).queueproc hp
    case h_2 => exact hi.setproc hp
    case h_3 he => exact absurd he (hx _)

theorem dequeueproc {edf busy : Bool} (hi : Inv s) (he : edf = false → p ∉ s.edfq)
    (h : s.dequeueproc p edf busy = some t) : Inv t ∧ p ∉ t.edfq ∧ t.proc = s.proc := by
  rw [State.dequeueproc] at h
  split at h
  case isTrue => contradiction
  case isFalse =>
    split at h
    case isTrue hedf =>
      obtain rfl := Option.some.inj (Option.ite_none_right_eq_some.mp h).right
      have hsub : (s.edfq.erase p).Sublist s.edfq := List.erase_sublist
      exact ⟨⟨hi.nodup.sublist hsub, fun q hq => hi.queued q (hsub.mem hq), hi.sorted.sublist hsub⟩,
        hi.nodup.not_mem_erase, rfl⟩
    case isFalse hedf =>
      obtain rfl := Option.some.inj (Option.ite_none_right_eq_some.mp h).right
      exact ⟨⟨hi.nodup, hi.queued, hi.sorted⟩, he (by simpa using hedf), rfl⟩

theorem setedf {e : Edf} (hi : Inv s) (h : p ∈ s.edfq → e.d = s.d p) : Inv (s.setedf p e) := by
  by_cases hp : p ∈ s.edfq
  · exact hi.setproc_same rfl rfl (h hp)
  · exact hi.setproc hp

theorem release (hi : Inv s) (h : p ∈ s.edfq → ∀ e ∈ (s.proc p).edf, ¬int32 (e.d - s.now) < 0) :
    Inv (s.release p) := by
  rw [State.release]
  split
  case h_1 e he =>
    refine hi.setedf fun hp => ?_
    rw [Edf.release_d (h hp e he), State.d, he, Option.elim_some]
  case h_2 => exact hi

theorem edfrun {edfpri : Bool} (hi : Inv s) : Inv (s.edfrun p edfpri) := by
  rw [State.edfrun]
  split
  case h_1 e he =>
    have ⟨hedf, _⟩ := Option.filter_eq_some_iff.mp he
    exact hi.setedf fun _ => by rw [Edf.run_d, State.d, hedf, Option.elim_some]
  case h_2 => exact hi

end Inv

namespace State

variable [DecidableEq P]

theorem release_edfq : (s.release p).edfq = s.edfq := by
  rw [release]
  split <;> rfl

theorem releasing_not_mem {busy : Bool} (hi : Inv s) (h : (s.releasing p busy).snd = true) :
    p ∉ (s.releasing p busy).fst.edfq := by
  rw [releasing] at *
  split at h
  case h_1 => contradiction
  case h_2 =>
    split at h
    case h_1 hs =>
      split at h
      case h_1 => contradiction
      case h_2 t ht =>
        simp only [release_edfq, setproc_edfq]
        exact (hi.dequeueproc (fun hpri hp => by simp [(hi.queued p hp).right] at hpri) ht).right.left
    case h_2 hs =>
      simp only [release_edfq]
      exact hi.not_mem (by simp [hs])
    all_goals contradiction

end State

namespace Inv

variable [DecidableEq P]

theorem releasing {busy : Bool} (hi : Inv s) (h : p ∈ s.edfq → s.dequeueproc p (s.proc p).priedf busy = none →
    ∀ e ∈ (s.proc p).edf, ¬int32 (e.d - s.now) < 0) : Inv (s.releasing p busy).fst := by
  rw [State.releasing]
  split
  case h_1 => exact hi
  case h_2 =>
    split
    case h_1 hs =>
      split
      case h_1 hn => exact hi.release fun hp => h hp hn
      case h_2 t ht =>
        obtain ⟨ht, hp, -⟩ := hi.dequeueproc (fun hpri hp => by simp [(hi.queued p hp).right] at hpri) ht
        exact (ht.setproc hp).release fun hm => absurd hm hp
    case h_2 hs => exact hi.release fun hp => absurd hp (hi.not_mem (by simp [hs]))
    case h_3 hs => exact (hi.release fun hp => absurd hp (hi.not_mem (by simp [hs]))).edfrun
    case h_4 hs => exact hi.release fun hp => absurd hp (hi.not_mem (by simp [hs]))
    case h_5 => exact hi

theorem releaseintr {busy : Bool} (hi : Inv s) (h : s.Released p busy) : Inv (s.releaseintr p busy) := by
  have hrel := hi.releasing h.left
  rw [State.releaseintr]
  split
  case h_1 t ht =>
    have hp : p ∉ (s.releasing p busy).fst.edfq := State.releasing_not_mem hi (by rw [ht])
    have hf := h.right (by rw [ht])
    rw [ht] at hrel hp hf
    exact hrel.schedready hp hf
  case h_2 t ht =>
    rw [ht] at hrel
    exact hrel

theorem expire {own : Bool} {tf : Tf} (hi : Inv s) (h : s.expire p own tf = some t) : Inv t := by
  rw [State.expire] at h
  split at h
  case isTrue =>
    obtain rfl := Option.some.inj (Option.ite_none_right_eq_some.mp h).right
    exact hi.setproc_same rfl rfl rfl
  case isFalse =>
    split at h
    case h_1 e he =>
      obtain rfl := Option.some.inj (Option.ite_none_right_eq_some.mp h).right
      exact hi.setedf fun _ => by rw [State.d, he, Option.elim_some]
    case h_2 => contradiction

theorem runproc {busy amp : Bool} (hi : Inv s) : Inv (s.runproc p busy amp) := by
  rw [State.runproc]
  dsimp only
  split
  case h_1 => exact hi
  case h_2 t ht =>
    obtain ⟨ht, hp, -⟩ := hi.dequeueproc (by simp) ht
    exact (ht.setproc hp).edfrun

theorem schedinit (hi : Inv s) (hf : (s.proc p).state = .running → (s.setproc p { s.proc p with mach := .left }).Fits p) :
    Inv (s.schedinit p) := by
  have hm : Inv (s.setproc p { s.proc p with mach := .left }) := hi.setproc_same rfl rfl rfl
  rw [State.schedinit]
  dsimp only
  rw [State.setproc_same]
  split
  case h_1 hs =>
    dsimp only at hs
    exact hm.schedready (hi.not_mem (by simp [hs])) (hf hs)
  case h_2 hs =>
    dsimp only at hs
    exact hm.setproc (hi.not_mem (by simp [hs]))
  case h_3 => exact hm

theorem edfrecord (hi : Inv s)
    (h : p ∈ s.edfq → ∀ e ∈ (s.proc p).edflock, ¬(0 < e.S ∧ e.S ≤ int32 (s.now - e.s))) : Inv (s.edfrecord p) := by
  rw [State.edfrecord]
  split
  case h_1 e he =>
    have ⟨hedf, _⟩ := Option.filter_eq_some_iff.mp he
    refine hi.setedf fun hp => ?_
    have hS := h hp e he
    have hd : (e.record s.now).d = e.d := by
      rw [Edf.record]
      dsimp only
      split
      case isTrue hpos => rw [if_neg fun hle => hS ⟨hpos, hle⟩]
      case isFalse => rfl
    rw [hd, State.d, hedf, Option.elim_some]
  case h_2 => exact hi

theorem edfyield (hi : Inv s) (hs : (s.proc p).state = .running) : Inv (s.edfyield p) := by
  rw [State.edfyield]
  split
  case h_1 => exact hi.setproc (hi.not_mem (by simp [hs]))
  case h_2 => exact hi

theorem edfstop (hi : Inv s) : Inv (s.edfstop p) := by
  rw [State.edfstop]
  split
  case h_1 e he =>
    have ⟨hedf, _⟩ := Option.filter_eq_some_iff.mp he
    exact hi.setedf fun _ => by rw [State.d, hedf, Option.elim_some, Edf.stop]
  case h_2 => exact hi

theorem procctl {x : Param} (hi : Inv s) : Inv (s.procctl p x) := by
  rw [State.procctl]
  split
  case h_1 e he => exact hi.setedf fun _ => by rw [Edf.set_d, State.d, he, Option.elim_some]
  case h_2 => exact hi

theorem admitting {up ok : Bool} {sync : Option P} {r : State P × Bool} (hi : Inv s)
    (hup : up → p ∉ s.edfq) (hr : r.snd = true → p ∉ s.edfq) (h : s.admitting p up ok sync = some r) : Inv r.fst := by
  rw [State.admitting] at h
  split at h
  case h_1 => contradiction
  case h_2 e he =>
    have hd : e.d = s.d p := by rw [State.d, he, Option.elim_some]
    split at h
    case isTrue => exact Option.some.inj h ▸ hi
    case isFalse =>
      generalize (if e.D = 0 then e.T else e.D) = D at h
      dsimp only at h
      split at h
      case isTrue => exact Option.some.inj h ▸ hi.setedf fun _ => hd
      case isFalse =>
        split at h
        case h_1 =>
          split at h
          case isTrue hu =>
            obtain rfl := Option.some.inj h
            exact ((hi.setproc (hup hu)).release fun hp => absurd hp (hup hu)).edfrun
          case isFalse =>
            obtain rfl := Option.some.inj h
            exact (hi.setproc (hr rfl)).release fun hp => absurd hp (hr rfl)
        case h_2 =>
          split at h
          case h_1 =>
            split at h
            case isTrue => contradiction
            case isFalse =>
              obtain rfl := Option.some.inj h
              refine hi.setedf fun _ => ?_
              split <;> exact hd
          case h_2 => contradiction

end Inv

-- What the steps of a run are to meet.
def Cond [DecidableEq P] (s : State P) : Act P → Prop
  | .ready p                => p ∉ s.edfq ∧ s.Fits p
  | .releaseintr p own busy => ∀ t ∈ s.expire p own .releaseintr, t.Released p busy
  | .edfrecord p            => p ∈ s.edfq → ∀ e ∈ (s.proc p).edflock, ¬(0 < e.S ∧ e.S ≤ int32 (s.now - e.s))
  | .schedinit p            => (s.proc p).state = .running → (s.setproc p { s.proc p with mach := .left }).Fits p
  | Act.edfadmit p up ok busy sync =>
    ∀ r ∈ s.admitting p up ok sync, r.snd = true → p ∉ s.edfq ∧ r.fst.Released p busy
  | _ => True

theorem Inv.step [DecidableEq P] {a : Act P} (hi : Inv s) (hc : Cond s a) (h : step s a = some t) : Inv t := by
  cases a <;> simp only [EdfSched.step] at h
  case tick => exact Option.some.inj h ▸ ⟨hi.nodup, hi.queued, hi.sorted⟩
  case ready => exact Option.some.inj h ▸ hi.schedready hc.left hc.right
  case releaseintr =>
    obtain ⟨u, hu, rfl⟩ := Option.map_eq_some_iff.mp h
    exact (hi.expire hu).releaseintr (hc u hu)
  case deadlineintr => exact hi.expire h
  case runproc => exact Option.some.inj (Option.ite_none_right_eq_some.mp h).right ▸ hi.runproc
  case go =>
    obtain ⟨hs, h⟩ := Option.ite_none_right_eq_some.mp h
    exact Option.some.inj h ▸ hi.setproc (hi.not_mem (by simp [hs]))
  case setstate =>
    obtain ⟨hs, h⟩ := Option.ite_none_right_eq_some.mp h
    exact Option.some.inj h ▸ hi.setproc (hi.not_mem (by simp [hs]))
  case edfrecord =>
    obtain rfl := Option.some.inj (Option.ite_none_right_eq_some.mp h).right
    exact (hi.edfrecord hc).setproc_same rfl rfl rfl
  case schedinit => exact Option.some.inj (Option.ite_none_right_eq_some.mp h).right ▸ hi.schedinit hc
  case save =>
    exact Option.some.inj (Option.ite_none_right_eq_some.mp h).right ▸ hi.setproc_same rfl rfl rfl
  case edfyield =>
    obtain ⟨hs, h⟩ := Option.ite_none_right_eq_some.mp h
    exact Option.some.inj h ▸ hi.edfyield hs.right
  case edfinit p =>
    obtain ⟨he, h⟩ := Option.ite_none_right_eq_some.mp h
    exact Option.some.inj h ▸ hi.setedf fun _ => by rw [State.d, he, Option.elim_none]
  case edfadmit p up ok busy sync =>
    obtain ⟨hup, h⟩ := Option.ite_none_right_eq_some.mp h
    obtain ⟨r, hr, rfl⟩ := Option.map_eq_some_iff.mp h
    have hs := hi.admitting (fun hu => hi.not_mem (by simp [(hup hu).right])) (fun h1 => (hc r hr h1).left) hr
    rcases r with ⟨r, _ | _⟩
    · exact hs
    · exact hs.releaseintr (hc _ hr rfl).right
  case edfstop => exact Option.some.inj h ▸ hi.edfstop
  case procctl => exact Option.some.inj h ▸ hi.procctl

theorem invariant [DecidableEq P] : (machine P).Invariant Cond Inv where
  init h := by
    obtain ⟨-, hq, -, -⟩ := h
    exact ⟨hq ▸ .nil, by simp [hq], hq ▸ .nil⟩
  step hi hc h := hi.step hc h

-- The processes on the queue are in the order of their deadlines, and the first is one with the earliest.
theorem edfq_sorted [DecidableEq P] (hr : (machine P).Reachable Cond s) :
    s.Sorted ∧ ∀ p ∈ s.edfq.head?, ∀ q ∈ s.edfq, int32 (s.d p - s.d q) ≤ 0 := by
  have hs : s.Sorted := (invariant.holds hr).sorted.imp And.right
  refine ⟨hs, fun p hp q hq => ?_⟩
  obtain ⟨l, hl⟩ := List.head?_eq_some_iff.mp hp
  rw [State.Sorted, hl] at hs
  rw [hl] at hq
  rcases List.mem_cons.mp hq with rfl | hq
  · simp [int32]
  · exact (List.pairwise_cons.mp hs).left q hq

instance [DecidableEq P] (s : State P) (a : Act P) : Decidable (Cond s a) := by
  cases a <;> unfold Cond State.Released <;> infer_instance

def start : State Bool where
  clock  := 0
  proc _ := { state := .scheding, edf := none, priedf := false, mach := .none, tt := false }
  edfq   := []
  runq   := []

theorem start_init : (machine Bool).init start :=
  ⟨rfl, rfl, rfl, fun _ => ⟨rfl, nofun, rfl⟩⟩

-- A process comes to run, has itself admitted and goes to sleep.
def admitted (p : Bool) (T D C : Int) : List (Act Bool) :=
  [.go p, .edfinit p, .procctl p (.T T), .procctl p (.D D), .procctl p (.C C), Act.edfadmit p true true false none,
    .setstate p .wakeme, .edfrecord p, .schedinit p, .save p]

def woken (now : Nat) : List (Act Bool) :=
  .tick now :: admitted false 1000 300 100 ++ admitted true 2000 1000 100 ++ [.ready false, .ready true]

theorem edfq_sorted_woken : ∃ s : State Bool, s.edfq = [false, true] ∧ s.Sorted := by
  have hrun : (((machine Bool).guarded Cond).exec start (woken 1000)).map State.edfq = some [false, true] := by
    decide +kernel
  obtain ⟨s, hs, hq⟩ := Option.map_eq_some_iff.mp hrun
  exact ⟨s, hq, (edfq_sorted <| .guarded (.init start_init) hs).left⟩

-- When the clock is about to wrap, the later deadline is put first.
theorem edfq_unsorted : ∃ s : State Bool, (machine Bool).Reachable (fun _ _ => True) s ∧ s.edfq = [true, false] ∧
    int32 (s.d true - s.d false) = 700 ∧ ¬s.Sorted := by
  have hrun : ((machine Bool).exec start (woken (2 ^ 31 - 500))).map
      (fun s => (s.edfq, int32 (s.d true - s.d false), decide s.Sorted)) = some ([true, false], 700, false) := by
    decide +kernel
  obtain ⟨s, hs, he⟩ := Option.map_eq_some_iff.mp hrun
  obtain ⟨hq, hd, hsort⟩ := Prod.mk.injEq .. ▸ Prod.mk.injEq .. ▸ he
  exact ⟨s, .exec (.init start_init) (by simp) hs, hq, hd, of_decide_eq_false hsort⟩

end Port.EdfSched
