import Nix.Lib.Except
import Nix.Lib.Sorted
import Nix.Port.EdfTest
import Mathlib.Algebra.Order.Group.Nat

namespace Port.EdfTest

-- The events are taken in the order of their keys.
namespace Test

def key (x : Test) : Int :=
  2 * x.testtime + (if x.testtype = .Rl then 1 else 0)

theorem key_lt_iff {e x : Test} :
    e.key < x.key ↔ e.testtime - x.testtime < 0 ∨ e.testtime = x.testtime ∧ e.testtype.lt x.testtype := by
  rw [key, key]
  rcases he : e.testtype <;> rcases hx : x.testtype <;> simp [Testtype.lt] <;> omega

abbrev Sorted (q : List Test) : Prop :=
  q.Pairwise fun x y => x.key ≤ y.key

end Test

theorem long_eq {n m : Int} (h : long n = .ok m) : m = n := by
  rw [long] at h
  split at h
  · exact (Except.ok.inj h).symm
  · contradiction

theorem testenq_eq {e : Test} {q r : List Test} (h : testenq e q = .ok r) :
    r = q.orderedInsert (fun x y => x.key < y.key) e := by
  induction q generalizing r
  case nil => exact (Except.ok.inj h).symm
  case cons x q ih =>
    obtain ⟨diff, hd, h⟩ := Except.bind_eq_ok_iff.mp h
    rw [long_eq hd] at h
    rw [List.orderedInsert_cons]
    split at h
    case isTrue hlt => rw [if_pos (Test.key_lt_iff.mpr hlt), Except.ok.inj h]
    case isFalse hlt =>
      obtain ⟨r', hr, h⟩ := Except.bind_eq_ok_iff.mp h
      rw [if_neg (mt Test.key_lt_iff.mp hlt), ← ih hr]
      exact (Except.ok.inj h).symm

theorem testenq_perm {e : Test} {q r : List Test} (h : testenq e q = .ok r) : r.Perm (e :: q) :=
  testenq_eq h ▸ List.perm_orderedInsert _ e q

theorem testenq_sorted {e : Test} {q r : List Test} (hq : Test.Sorted q) (h : testenq e q = .ok r) :
    Test.Sorted r := by
  rw [testenq_eq h]
  exact hq.insert_of (fun _ _ => le_of_lt) (fun _ _ => le_of_not_gt) fun _ _ _ _ hlt hle => hlt.le.trans hle

theorem long_error {n : Int} {f : Fault} (h : long n = .error f) : f = .overflow := by
  rw [long] at h
  split at h
  · contradiction
  · exact (Except.error.inj h).symm

theorem testenq_error {e : Test} {q : List Test} {f : Fault} (h : testenq e q = .error f) : f = .overflow := by
  induction q
  case nil => contradiction
  case cons x q ih =>
    rcases Except.bind_eq_error_iff.mp h with h | ⟨_, -, h⟩
    · exact long_error h
    · split at h
      case isTrue => contradiction
      case isFalse =>
        rcases Except.bind_eq_error_iff.mp h with h | ⟨_, -, h⟩
        · exact ih h
        · contradiction

-- How far the test is with a task: `k` of its deadlines are past, and what comes next.
structure Stage where
  task : RtTask
  k    : Nat
  type : Testtype
deriving DecidableEq

namespace Stage

def time (x : Stage) : Int :=
  match x.type with
  | .Rl => x.k * x.task.T
  | .Dl => x.k * x.task.T + x.task.D

def test (x : Stage) : Test where
  toRtTask := x.task
  testtype := x.type
  testtime := x.time

def key (x : Stage) : Int := x.test.key

-- The key of what came last.
def last (x : Stage) : Int :=
  match x.type with
  | .Rl => 2 * ((x.k - 1) * x.task.T + x.task.D)
  | .Dl => 2 * (x.k * x.task.T) + 1

def released (x : Stage) : Nat :=
  match x.type with
  | .Rl => x.k
  | .Dl => x.k + 1

def next (x : Stage) : Stage :=
  match x.type with
  | .Rl => { x with type := .Dl }
  | .Dl => { x with k := x.k + 1, type := .Rl }

variable {x : Stage} {t b : Int}

theorem task_next : x.next.task = x.task := by
  rcases x with ⟨_, _, _ | _⟩ <;> rfl

theorem last_next : x.next.last = x.key := by
  rcases x with ⟨x, k, _ | _⟩
  · simp [next, last, key, test, time, Test.key]
  · simp [next, last, key, test, time, Test.key]

theorem key_le_next (h : x.task.Sound) : x.key ≤ x.next.key := by
  have := h.D_pos
  have := h.le_T
  rcases x with ⟨x, k, _ | _⟩
  · simp only [next, key, test, time, Test.key, Nat.cast_add, Nat.cast_one, add_mul] at *
    simp; omega
  · simp only [next, key, test, time, Test.key] at *
    simp; omega

theorem deadlines_le (h : x.task.Sound) (hk : 2 * t < x.key) : x.task.deadlines t ≤ x.k := by
  have := h.D_pos
  rw [RtTask.deadlines_le_iff h]
  rcases x with ⟨x, k, _ | _⟩
  · simp [key, test, time, Test.key] at *; omega
  · simp [key, test, time, Test.key] at *; omega

theorem le_deadlines (h : x.task.Sound) (hk : x.last ≤ 2 * t + 1) : x.k ≤ x.task.deadlines t := by
  have := h.le_T
  obtain ⟨x, k, type⟩ := x
  cases k
  case zero => exact Nat.zero_le _
  case succ k =>
    refine Nat.succ_le_of_lt <| (RtTask.lt_deadlines_iff h).mpr ?_
    cases type
    · simp only [last, Nat.cast_add, Nat.cast_one, add_mul] at *; omega
    · simp only [last, Nat.cast_add, Nat.cast_one, add_sub_cancel_right] at *; omega

theorem releases_le (h : x.task.Sound) (hk : 2 * b < x.key) : x.task.releases b ≤ x.released := by
  have := h.le_T
  rw [RtTask.releases_le_iff h]
  rcases x with ⟨x, k, _ | _⟩
  · simp [key, test, time, Test.key, released, add_mul] at *; omega
  · simp [key, test, time, Test.key, released] at *; omega

theorem released_le (h : x.task.Sound) (hk : x.last ≤ 2 * b + 1) (hb : ∀ j < x.released, j * x.task.T ≠ b) :
    x.released ≤ x.task.releases b := by
  have := h.D_pos
  obtain ⟨x, k, _ | _⟩ := x
  · refine Nat.succ_le_of_lt <| (RtTask.lt_releases_iff h).mpr ?_
    have := hb k (Nat.lt_succ_self k)
    simp [last] at *; omega
  · cases k
    case zero => exact Nat.zero_le _
    case succ k =>
      refine Nat.succ_le_of_lt <| (RtTask.lt_releases_iff h).mpr ?_
      simp [last] at *; omega

theorem key_le {c : Nat} (h : x.task.Sound) (hc : x.released ≤ c) : x.key ≤ 2 * (c * x.task.T) + 1 := by
  have hT : (x.released : Int) * x.task.T ≤ c * x.task.T :=
    Int.mul_le_mul_of_nonneg_right (Int.ofNat_le.mpr hc) h.T_pos.le
  have := h.le_T
  rcases x with ⟨x, k, _ | _⟩
  · simp [key, test, time, Test.key, released, add_mul] at *; omega
  · simp [key, test, time, Test.key, released] at *; omega

end Stage

-- What holds of the stages of the tasks, and of the sums that the test has made up to there.
structure Inv (l : List RtTask) (xs : List Stage) (H G : Int) (steps : Nat) : Prop where
  tasks : (xs.map Stage.task).Perm l
  cost  : H = (xs.map fun x => (x.k : Int) * x.task.C).sum
  asked : G = (xs.map fun x => (x.released : Int) * x.task.C).sum
  count : steps = (xs.map fun x => x.released + x.k).sum
  -- what came last is not later than what comes next
  past  : ∀ x ∈ xs, ∀ y ∈ xs, x.last ≤ y.key
  -- at none of the releases but the first was all done that had been asked for
  busy  : ∀ x ∈ xs, ∀ j < x.released, 0 < j → j * x.task.T < RtTask.work l (j * x.task.T)

-- All is done in time before what comes next.
def Met (l : List RtTask) (xs : List Stage) : Prop :=
  ∀ t, 0 ≤ t → (∀ x ∈ xs, 2 * t < x.key) → RtTask.demand l t ≤ t

namespace Inv

variable {l : List RtTask} {x : Stage} {xs ys : List Stage} {H G t b : Int} {steps : Nat}

theorem init (hl : ∀ x ∈ l, x.Sound) : Inv l (l.map fun x => ⟨x, 0, .Rl⟩) 0 0 0 where
  tasks := by simp [Function.comp_def]
  cost  := by simp [Function.comp_def]
  asked := by simp [Function.comp_def, Stage.released]
  count := by simp [Function.comp_def, Stage.released]
  past x hx y hy := by
    obtain ⟨a, ha, rfl⟩ := List.mem_map.mp hx
    obtain ⟨c, hc, rfl⟩ := List.mem_map.mp hy
    have := (hl a ha).le_T
    simp [Stage.last, Stage.key, Stage.test, Stage.time, Test.key]
    omega
  busy x hx j hj := by
    obtain ⟨a, ha, rfl⟩ := List.mem_map.mp hx
    exact absurd hj (Nat.not_lt_zero j)

theorem perm (hi : Inv l xs H G steps) (hp : xs.Perm ys) : Inv l ys H G steps where
  tasks := (hp.map _).symm.trans hi.tasks
  cost  := hi.cost.trans (hp.map _).sum_eq
  asked := hi.asked.trans (hp.map _).sum_eq
  count := hi.count.trans (hp.map _).sum_eq
  past x hx y hy := hi.past x (hp.mem_iff.mpr hx) y (hp.mem_iff.mpr hy)
  busy x hx := hi.busy x (hp.mem_iff.mpr hx)

theorem sound (hi : Inv l xs H G steps) (hl : ∀ x ∈ l, x.Sound) (hx : x ∈ xs) : x.task.Sound :=
  hl _ <| hi.tasks.mem_iff.mp <| List.mem_map_of_mem hx

theorem demand_eq (hi : Inv l xs H G steps) :
    RtTask.demand l t = (xs.map fun x => (x.task.deadlines t : Int) * x.task.C).sum := by
  rw [RtTask.demand, ← (hi.tasks.map _).sum_eq, List.map_map]
  rfl

theorem work_eq (hi : Inv l xs H G steps) :
    RtTask.work l b = (xs.map fun x => (x.task.releases b : Int) * x.task.C).sum := by
  rw [RtTask.work, ← (hi.tasks.map _).sum_eq, List.map_map]
  rfl

theorem events_eq (hi : Inv l xs H G steps) :
    RtTask.events l b = (xs.map fun x => x.task.releases b + x.task.deadlines b).sum := by
  rw [RtTask.events, ← (hi.tasks.map _).sum_eq, List.map_map]
  rfl

theorem demand_le (hi : Inv l xs H G steps) (hl : ∀ x ∈ l, x.Sound) (hk : ∀ x ∈ xs, 2 * t < x.key) :
    RtTask.demand l t ≤ H := by
  rw [hi.demand_eq, hi.cost]
  refine List.sum_le_sum fun x hx => ?_
  have hs := hi.sound hl hx
  exact mul_le_mul_of_nonneg_right (Nat.cast_le.mpr <| Stage.deadlines_le hs (hk x hx)) hs.pos.le

theorem le_demand (hi : Inv l xs H G steps) (hl : ∀ x ∈ l, x.Sound) (hk : ∀ x ∈ xs, x.last ≤ 2 * t + 1) :
    H ≤ RtTask.demand l t := by
  rw [hi.demand_eq, hi.cost]
  refine List.sum_le_sum fun x hx => ?_
  have hs := hi.sound hl hx
  exact mul_le_mul_of_nonneg_right (Nat.cast_le.mpr <| Stage.le_deadlines hs (hk x hx)) hs.pos.le

theorem work_le (hi : Inv l xs H G steps) (hl : ∀ x ∈ l, x.Sound) (hk : ∀ x ∈ xs, 2 * b < x.key) :
    RtTask.work l b ≤ G := by
  rw [hi.work_eq, hi.asked]
  refine List.sum_le_sum fun x hx => ?_
  have hs := hi.sound hl hx
  exact mul_le_mul_of_nonneg_right (Nat.cast_le.mpr <| Stage.releases_le hs (hk x hx)) hs.pos.le

-- A release that has been made is before `b`, or it is at `b` and there was work left then.
theorem released_le (hi : Inv l xs H G steps) (hl : ∀ x ∈ l, x.Sound) (hb : 0 < b)
    (hw : RtTask.work l b ≤ b) (hk : ∀ x ∈ xs, x.last ≤ 2 * b + 1) (hx : x ∈ xs) :
    x.released ≤ x.task.releases b := by
  refine Stage.released_le (hi.sound hl hx) (hk x hx) ?_
  rintro j hj rfl
  have hj0 : 0 < j := Nat.pos_of_ne_zero fun h0 => by simp [h0] at hb
  exact absurd (hi.busy x hx j hj hj0) (not_lt.mpr hw)

theorem le_work (hi : Inv l xs H G steps) (hl : ∀ x ∈ l, x.Sound) (hb : 0 < b)
    (hw : RtTask.work l b ≤ b) (hk : ∀ x ∈ xs, x.last ≤ 2 * b + 1) : G ≤ RtTask.work l b := by
  rw [hi.work_eq, hi.asked]
  refine List.sum_le_sum fun x hx => ?_
  exact mul_le_mul_of_nonneg_right (Nat.cast_le.mpr <| hi.released_le hl hb hw hk hx) (hi.sound hl hx).pos.le

theorem count_le (hi : Inv l xs H G steps) (hl : ∀ x ∈ l, x.Sound) (hb : 0 < b)
    (hw : RtTask.work l b ≤ b) (hk : ∀ x ∈ xs, x.last ≤ 2 * b + 1) : steps ≤ RtTask.events l b := by
  rw [hi.events_eq, hi.count]
  refine List.sum_le_sum fun x hx => ?_
  exact Nat.add_le_add (hi.released_le hl hb hw hk hx) (Stage.le_deadlines (hi.sound hl hx) (hk x hx))

theorem events_le (hi : Inv l xs H G steps) (hl : ∀ x ∈ l, x.Sound) (hk : ∀ x ∈ xs, 2 * b < x.key) :
    RtTask.events l b ≤ steps := by
  rw [hi.events_eq, hi.count]
  refine List.sum_le_sum fun x hx => ?_
  have hs := hi.sound hl hx
  exact Nat.add_le_add (Stage.releases_le hs (hk x hx)) (Stage.deadlines_le hs (hk x hx))

theorem past_next (hi : Inv l (x :: xs) H G steps) (hl : ∀ x ∈ l, x.Sound) (hmin : ∀ y ∈ xs, x.key ≤ y.key) :
    ∀ y ∈ x.next :: xs, ∀ z ∈ x.next :: xs, y.last ≤ z.key := by
  have hn : x.key ≤ x.next.key := Stage.key_le_next <| hi.sound hl List.mem_cons_self
  have hlast : ∀ y ∈ x.next :: xs, y.last ≤ x.key := by
    refine List.forall_mem_cons.mpr ⟨Stage.last_next.le, fun y hy => ?_⟩
    exact hi.past y (List.mem_cons_of_mem x hy) x List.mem_cons_self
  intro y hy z hz
  rcases List.mem_cons.mp hz with rfl | hz
  · exact (hlast y hy).trans hn
  · exact (hlast y hy).trans (hmin z hz)

theorem met_init (hl : ∀ x ∈ l, x.Sound) : Met l (l.map fun x => ⟨x, 0, .Rl⟩) :=
  fun _ ht hk => ((init hl).demand_le hl hk).trans ht

theorem dl (hi : Inv l (x :: xs) H G steps) (hl : ∀ x ∈ l, x.Sound) (hmin : ∀ y ∈ xs, x.key ≤ y.key)
    (hx : x.type = .Dl) : Inv l (x.next :: xs) (H + x.task.C) G (steps + 1) where
  tasks := by simpa [Stage.task_next] using hi.tasks
  cost  := by simp [hi.cost, Stage.next, hx, add_mul]; omega
  asked := by simp [hi.asked, Stage.next, Stage.released, hx]
  count := by simp [hi.count, Stage.next, Stage.released, hx]; omega
  past  := hi.past_next hl hmin
  busy  := by
    obtain ⟨h₁, h₂⟩ := List.forall_mem_cons.mp hi.busy
    refine List.forall_mem_cons.mpr ⟨?_, h₂⟩
    simpa [Stage.next, Stage.released, hx] using h₁

theorem rl (hi : Inv l (x :: xs) H G steps) (hl : ∀ x ∈ l, x.Sound) (hmin : ∀ y ∈ xs, x.key ≤ y.key)
    (hx : x.type = .Rl) (hb : x.time ≠ 0 → x.time < G) : Inv l (x.next :: xs) H (G + x.task.C) (steps + 1) where
  tasks := by simpa [Stage.task_next] using hi.tasks
  cost  := by simp [hi.cost, Stage.next, hx]
  asked := by simp [hi.asked, Stage.next, Stage.released, hx, add_mul]; omega
  count := by simp [hi.count, Stage.next, Stage.released, hx]; omega
  past  := hi.past_next hl hmin
  busy  := by
    obtain ⟨h₁, h₂⟩ := List.forall_mem_cons.mp hi.busy
    refine List.forall_mem_cons.mpr ⟨fun j hj hj0 => ?_, h₂⟩
    simp only [Stage.next, Stage.released, hx] at hj h₁ ⊢
    rcases Nat.lt_succ_iff_lt_or_eq.mp hj with hj | rfl
    · exact h₁ j hj hj0
    -- the release that has just come: all that was asked for is still to be done
    · have hT : 0 < (x.k : Int) * x.task.T :=
        Int.mul_pos (Int.natCast_pos.mpr hj0) (hi.sound hl List.mem_cons_self).T_pos
      have htime : x.time = x.k * x.task.T := by simp [Stage.time, hx]
      by_contra! hw
      refine absurd (hb (by omega)) (not_lt.mpr <| (hi.le_work hl hT hw fun y hy => ?_).trans <| htime ▸ hw)
      refine (hi.past y hy x List.mem_cons_self).trans ?_
      simp [Stage.key, Stage.test, Test.key, hx, htime]

theorem met_dl (hi : Inv l (x :: xs) H G steps) (hl : ∀ x ∈ l, x.Sound) (hmin : ∀ y ∈ xs, x.key ≤ y.key)
    (hm : Met l (x :: xs)) (hx : x.type = .Dl) (hH : H + x.task.C ≤ x.time) : Met l (x.next :: xs) := by
  intro t ht hk
  have htime : x.key = 2 * x.time := by simp [Stage.key, Stage.test, Test.key, hx]
  by_cases hlt : t < x.time
  · refine hm t ht <| List.forall_mem_cons.mpr ⟨by omega, fun y hy => hk y (List.mem_cons_of_mem _ hy)⟩
  · have := (hi.dl hl hmin hx).demand_le hl hk
    omega

theorem met_rl (hi : Inv l (x :: xs) H G steps) (hl : ∀ x ∈ l, x.Sound) (hmin : ∀ y ∈ xs, x.key ≤ y.key)
    (hm : Met l (x :: xs)) (hx : x.type = .Rl) (hb : x.time ≠ 0 → x.time < G) : Met l (x.next :: xs) := by
  intro t ht hk
  have htime : x.key = 2 * x.time + 1 := by simp [Stage.key, Stage.test, Test.key, hx]
  by_cases hlt : t ≤ x.time
  · refine hm t ht <| List.forall_mem_cons.mpr ⟨by omega, fun y hy => hk y (List.mem_cons_of_mem _ hy)⟩
  -- no deadline is between the release and `t`
  · have hH : H ≤ RtTask.demand l x.time :=
      hi.le_demand hl fun y hy => htime ▸ hi.past y hy x List.mem_cons_self
    have hx0 : 0 ≤ x.time := by
      simp only [Stage.time, hx]
      exact Int.mul_nonneg (Int.natCast_nonneg _) (hi.sound hl List.mem_cons_self).T_pos.le
    have hd : RtTask.demand l x.time ≤ x.time := by
      refine hm _ hx0 <| List.forall_mem_cons.mpr ⟨by omega, fun y hy => ?_⟩
      have := hmin y hy
      omega
    have := (hi.rl hl hmin hx hb).demand_le hl hk
    omega

end Inv

-- What the test has found out when it answers, if it has `N` steps.
inductive Answer (l : List RtTask) (N : Nat) : Option String → Prop
  | schedulable : (∀ t, 0 ≤ t → RtTask.demand l t ≤ t) → x ∈ l → 0 < b → x.T ∣ b → RtTask.work l b ≤ b →
      RtTask.events l b < N → Answer l N none
  | late : 0 < t → t < RtTask.demand l t → Answer l N (some "not schedulable")
  | steps : (∀ x ∈ l, ∀ b, 0 < b → x.T ∣ b → RtTask.work l b ≤ b → N ≤ RtTask.events l b) →
      Answer l N (some "probably not schedulable")

namespace Inv

variable {l : List RtTask} {x : Stage} {xs : List Stage} {H G : Int} {steps N : Nat}

theorem late (hi : Inv l (x :: xs) H G steps) (hl : ∀ x ∈ l, x.Sound) (hmin : ∀ y ∈ xs, x.key ≤ y.key)
    (hx : x.type = .Dl) (hH : x.time < H + x.task.C) : Answer l N (some "not schedulable") := by
  have hs := hi.sound hl List.mem_cons_self
  have htime : x.key = 2 * x.time := by simp [Stage.key, Stage.test, Test.key, hx]
  have hpos : 0 < x.time := by
    have := Int.mul_nonneg (Int.natCast_nonneg x.k) hs.T_pos.le
    have := hs.D_pos
    simp only [Stage.time, hx]
    omega
  have hd : H + x.task.C ≤ RtTask.demand l x.time := by
    refine (hi.dl hl hmin hx).le_demand hl <| List.forall_mem_cons.mpr ⟨?_, fun y hy => ?_⟩
    · rw [Stage.last_next]; omega
    · have := hi.past y (List.mem_cons_of_mem x hy) x List.mem_cons_self
      omega
  exact .late hpos (by omega)

theorem schedulable (hi : Inv l (x :: xs) H G steps) (hl : ∀ x ∈ l, x.Sound) (hmin : ∀ y ∈ xs, x.key ≤ y.key)
    (hm : Met l (x :: xs)) (hx : x.type = .Rl) (h0 : x.time ≠ 0) (hG : G ≤ x.time) (hN : steps < N) :
    Answer l N none := by
  have hs := hi.sound hl List.mem_cons_self
  have htime : x.key = 2 * x.time + 1 := by simp [Stage.key, Stage.test, Test.key, hx]
  have hT : x.time = x.k * x.task.T := by simp [Stage.time, hx]
  have hpos : 0 < x.time := by
    have := Int.mul_nonneg (Int.natCast_nonneg x.k) hs.T_pos.le
    omega
  have hkeys : ∀ y ∈ x :: xs, 2 * x.time < y.key := List.forall_mem_cons.mpr
    ⟨by omega, fun y hy => by have := hmin y hy; omega⟩
  have hw : RtTask.work l x.time ≤ x.time := (hi.work_le hl hkeys).trans hG
  refine .schedulable (fun t ht => ?_) (hi.tasks.mem_iff.mp <| List.mem_map_of_mem List.mem_cons_self) hpos
    (hT ▸ Int.dvd_mul_left _ _) hw ((hi.events_le hl hkeys).trans_lt hN)
  refine RtTask.demand_le_of_work_le hl hpos hw (fun t ht hlt => hm t ht fun y hy => ?_) ht
  have := hkeys y hy
  omega

theorem exhausted (hi : Inv l xs H G N) (hl : ∀ x ∈ l, x.Sound) :
    Answer l N (some "probably not schedulable") := by
  refine .steps fun z hz b hb hdvd hw => ?_
  obtain ⟨x, hx, rfl⟩ := List.mem_map.mp <| hi.tasks.mem_iff.mpr hz
  have hs := hi.sound hl hx
  obtain ⟨c, rfl⟩ := hdvd
  obtain ⟨c, rfl⟩ := Int.eq_ofNat_of_zero_le (Int.pos_of_mul_pos_right hb hs.T_pos).le
  have hc : 0 < c := Nat.pos_of_ne_zero fun h0 => by simp [h0] at hb
  rw [mul_comm] at hb hw ⊢
  have hle : x.released ≤ c := by
    by_contra! hlt
    exact absurd (hi.busy x hx c hlt hc) (not_lt.mpr hw)
  -- the task of the release is not past it, so no other is
  exact hi.count_le hl hb hw fun y hy => (hi.past y hy x hx).trans (Stage.key_le hs hle)

end Inv

theorem front {p : Test} {q : List Test} {xs : List Stage} (hq : Test.Sorted (p :: q))
    (hxs : (p :: q).Perm (xs.map Stage.test)) :
    ∃ x ys, p = x.test ∧ xs.Perm (x :: ys) ∧ q.Perm (ys.map Stage.test) ∧ ∀ y ∈ ys, x.key ≤ y.key := by
  obtain ⟨x, hx, rfl⟩ := List.mem_map.mp <| hxs.mem_iff.mp List.mem_cons_self
  have hp := List.perm_cons_erase hx
  have hrest : q.Perm ((xs.erase x).map Stage.test) := (hxs.trans (hp.map _)).cons_inv
  refine ⟨x, xs.erase x, rfl, hp, hrest, fun y hy => ?_⟩
  exact (List.pairwise_cons.mp hq).left _ <| hrest.mem_iff.mpr <| List.mem_map_of_mem hy

theorem simulate_answer {l : List RtTask} {N n steps : Nat} {q : List Test} {xs : List Stage} {H G : Int}
    {r : Option String} (hi : Inv l xs H G steps) (hl : ∀ x ∈ l, x.Sound) (hm : Met l xs)
    (hq : Test.Sorted q) (hxs : q.Perm (xs.map Stage.test)) (hN : steps + n = N)
    (h : simulate n q H G = .ok r) : Answer l N r := by
  induction n generalizing steps q xs H G
  case zero =>
    obtain rfl : steps = N := hN
    obtain rfl := Except.ok.inj h
    exact hi.exhausted hl
  case succ n ih =>
    cases q
    case nil => contradiction
    case cons p q =>
      obtain ⟨x, ys, rfl, hp, hys, hmin⟩ := front hq hxs
      replace hi := hi.perm hp
      replace hm : Met l (x :: ys) := fun t ht hk => hm t ht fun y hy => hk y (hp.mem_iff.mp hy)
      have hq' := (List.pairwise_cons.mp hq).right
      cases hx : x.type
      case Dl =>
        simp only [simulate, Stage.test, hx] at h
        obtain ⟨_, hH, h⟩ := Except.bind_eq_ok_iff.mp h
        obtain rfl := long_eq hH
        split at h
        case isTrue hlt =>
          obtain rfl := Except.ok.inj h
          exact hi.late hl hmin hx hlt
        case isFalse hlt =>
          obtain ⟨_, hs, h⟩ := Except.bind_eq_ok_iff.mp h
          obtain rfl := long_eq hs
          obtain ⟨_, ht, h⟩ := Except.bind_eq_ok_iff.mp h
          obtain rfl := long_eq ht
          obtain ⟨r', hr, h⟩ := Except.bind_eq_ok_iff.mp h
          have hnext : (⟨x.task, .Rl, x.time + (x.task.T - x.task.D)⟩ : Test) = x.next.test := by
            simp only [Stage.next, Stage.test, Stage.time, hx, Test.mk.injEq, true_and]
            push_cast
            rw [add_mul]
            omega
          rw [hnext] at hr
          exact ih (hi.dl hl hmin hx) (hi.met_dl hl hmin hm hx (not_lt.mp hlt)) (testenq_sorted hq' hr)
            ((testenq_perm hr).trans (hys.cons _)) (by omega) h
      case Rl =>
        simp only [simulate, Stage.test, hx] at h
        split at h
        case isTrue hdone =>
          obtain rfl := Except.ok.inj h
          exact hi.schedulable hl hmin hm hx hdone.left hdone.right (by omega)
        case isFalse hdone =>
          obtain ⟨_, hG, h⟩ := Except.bind_eq_ok_iff.mp h
          obtain rfl := long_eq hG
          obtain ⟨_, ht, h⟩ := Except.bind_eq_ok_iff.mp h
          obtain rfl := long_eq ht
          obtain ⟨r', hr, h⟩ := Except.bind_eq_ok_iff.mp h
          have hb : x.time ≠ 0 → x.time < G := fun h0 => not_le.mp fun hle => hdone ⟨h0, hle⟩
          have hnext : (⟨x.task, .Dl, x.time + x.task.D⟩ : Test) = x.next.test := by
            simp only [Stage.next, Stage.test, Stage.time, hx]
          rw [hnext] at hr
          exact ih (hi.rl hl hmin hx hb) (hi.met_rl hl hmin hm hx hb) (testenq_sorted hq' hr)
            ((testenq_perm hr).trans (hys.cons _)) (by omega) h

theorem simulate_error {n : Nat} {q : List Test} {H G : Int} {f : Fault} (hq : q ≠ [])
    (h : simulate n q H G = .error f) : f = .overflow := by
  induction n generalizing q H G
  case zero => contradiction
  case succ n ih =>
    obtain ⟨p, q, rfl⟩ := List.exists_cons_of_ne_nil hq
    have hnext : ∀ {e r}, testenq e q = .ok r → r ≠ [] := fun hr h0 => by
      have := testenq_perm hr
      rw [h0] at this
      exact List.cons_ne_nil _ _ this.nil_eq.symm
    rw [simulate] at h
    split at h
    case h_1 =>
      rcases Except.bind_eq_error_iff.mp h with h | ⟨_, -, h⟩
      · exact long_error h
      split at h
      case isTrue => contradiction
      case isFalse =>
        rcases Except.bind_eq_error_iff.mp h with h | ⟨_, -, h⟩
        · exact long_error h
        rcases Except.bind_eq_error_iff.mp h with h | ⟨_, -, h⟩
        · exact long_error h
        rcases Except.bind_eq_error_iff.mp h with h | ⟨_, hr, h⟩
        · exact testenq_error h
        · exact ih (hnext hr) h
    case h_2 =>
      split at h
      case isTrue => contradiction
      case isFalse =>
        rcases Except.bind_eq_error_iff.mp h with h | ⟨_, -, h⟩
        · exact long_error h
        rcases Except.bind_eq_error_iff.mp h with h | ⟨_, -, h⟩
        · exact long_error h
        rcases Except.bind_eq_error_iff.mp h with h | ⟨_, hr, h⟩
        · exact testenq_error h
        · exact ih (hnext hr) h

def start (x : RtTask) : Stage := ⟨x, 0, .Rl⟩

theorem tested_dead {theproc : Nat} {p : Proc} {procs : List Proc} (hd : p.dead) :
    tested (p :: procs) theproc = tested procs theproc := by
  simp [tested, hd]

theorem tested_other {theproc : Nat} {p : Proc} {procs : List Proc}
    (he : (p.edf.elim true fun e => !e.admitted) = true) (hp : p.pid ≠ theproc) :
    tested (p :: procs) theproc = tested procs theproc := by
  cases hpe : p.edf
  case none => simp [tested, hpe]
  case some e =>
    have ha : e.admitted = false := by simpa [hpe] using he
    simp [tested, hpe, ha, hp, Option.filter]

theorem tested_cons {theproc : Nat} {p : Proc} {procs : List Proc} {e : Edf} (hd : ¬p.dead) (he : p.edf = some e)
    (hp : ¬((p.edf.elim true fun e => !e.admitted) = true ∧ p.pid ≠ theproc)) :
    tested (p :: procs) theproc = e.toRtTask :: tested procs theproc := by
  have ha : e.admitted = true ∨ p.pid = theproc := by
    by_contra! hn
    exact hp ⟨by simpa [he] using hn.left, hn.right⟩
  simp [tested, hd, he, ha, Option.filter]

theorem enqueue_spec {theproc : Nat} {procs : List Proc} {q r : List Test} (hq : Test.Sorted q)
    (h : enqueue theproc procs q = .ok r) :
    Test.Sorted r ∧ r.Perm ((tested procs theproc).map (fun x => (start x).test) ++ q) := by
  induction procs generalizing q
  case nil =>
    obtain rfl := Except.ok.inj h
    exact ⟨hq, .refl _⟩
  case cons p procs ih =>
    rw [enqueue] at h
    split at h
    case isTrue hd =>
      rw [tested_dead hd]
      exact ih hq h
    case isFalse hd =>
      split at h
      case isTrue hn =>
        rw [tested_other hn.left hn.right]
        exact ih hq h
      case isFalse hn =>
        split at h
        case h_1 => contradiction
        case h_2 e he =>
          obtain ⟨q', hq', h⟩ := Except.bind_eq_ok_iff.mp h
          obtain ⟨hs, hp⟩ := ih (testenq_sorted hq hq') h
          have htest : (⟨e.toRtTask, .Rl, 0⟩ : Test) = (start e.toRtTask).test := by
            simp [start, Stage.test, Stage.time]
          refine ⟨hs, hp.trans ?_⟩
          rw [tested_cons hd he hn, List.map_cons, List.cons_append, ← htest]
          exact ((testenq_perm hq').append_left _).trans List.perm_middle

theorem enqueue_error {theproc : Nat} {procs : List Proc} {q : List Test} {f : Fault}
    (hp : ∀ p ∈ procs, p.pid = theproc → p.edf.isSome) (h : enqueue theproc procs q = .error f) :
    f = .overflow := by
  induction procs generalizing q
  case nil => contradiction
  case cons p procs ih =>
    obtain ⟨hp, hps⟩ := List.forall_mem_cons.mp hp
    rw [enqueue] at h
    split at h
    case isTrue => exact ih hps h
    case isFalse =>
      split at h
      case isTrue => exact ih hps h
      case isFalse hn =>
        split at h
        case h_1 hnone => simp_all
        case h_2 =>
          rcases Except.bind_eq_error_iff.mp h with h | ⟨_, -, h⟩
          · exact testenq_error h
          · exact ih hps h

-- The test of a set of processes that have proper parameters, one of which is the process to be admitted.
structure Admission (procs : List Proc) (theproc : Nat) : Prop where
  sound : ∀ x ∈ tested procs theproc, x.Sound
  proc  : ∃ p ∈ procs, p.pid = theproc ∧ ¬p.dead
  edf   : ∀ p ∈ procs, p.pid = theproc → p.edf.isSome

theorem Admission.tested_ne_nil {procs : List Proc} {theproc : Nat} (ha : Admission procs theproc) :
    tested procs theproc ≠ [] := by
  obtain ⟨p, hp, hpid, hd⟩ := ha.proc
  obtain ⟨e, he⟩ := Option.isSome_iff_exists.mp (ha.edf p hp hpid)
  refine List.ne_nil_of_mem (List.mem_filterMap.mpr ⟨p, hp, (?_ : _ = some e.toRtTask)⟩)
  simp [hd, he, hpid, Option.filter]

theorem testschedulability_answer {procs : List Proc} {theproc : Nat} (ha : Admission procs theproc)
    (ho : testschedulability procs theproc ≠ .error .overflow) :
    ∃ r, testschedulability procs theproc = .ok r ∧ Answer (tested procs theproc) Maxsteps r := by
  cases h : testschedulability procs theproc
  case error f =>
    rcases Except.bind_eq_error_iff.mp h with he | ⟨q, hq, he⟩
    · exact absurd (enqueue_error ha.edf he ▸ h) ho
    · refine absurd (simulate_error (fun h0 => ha.tested_ne_nil ?_) he ▸ h) ho
      have hp := (enqueue_spec List.Pairwise.nil hq).right
      rw [h0, List.append_nil] at hp
      exact List.map_eq_nil_iff.mp hp.nil_eq.symm
  case ok r =>
    obtain ⟨q, hq, h⟩ := Except.bind_eq_ok_iff.mp h
    obtain ⟨hs, hp⟩ := enqueue_spec List.Pairwise.nil hq
    rw [List.append_nil] at hp
    have hi : Inv (tested procs theproc) ((tested procs theproc).map start) 0 0 0 := .init ha.sound
    refine ⟨r, rfl, simulate_answer hi ha.sound (Inv.met_init ha.sound) hs ?_ (Nat.zero_add _) h⟩
    rwa [List.map_map]

-- A process is admitted when all demands can be met and the test comes, in the steps that it has, to a release
-- at which all is done. It is told to be not schedulable only when a demand cannot be met.
theorem testschedulability_eq_nil_iff {procs : List Proc} {theproc : Nat} (ha : Admission procs theproc)
    (ho : testschedulability procs theproc ≠ .error .overflow) :
    ∃ r, testschedulability procs theproc = .ok r ∧
      (r = none ↔ (∀ t, 0 < t → RtTask.demand (tested procs theproc) t ≤ t) ∧
        ∃ x ∈ tested procs theproc, ∃ b, 0 < b ∧ x.T ∣ b ∧ RtTask.work (tested procs theproc) b ≤ b ∧
          RtTask.events (tested procs theproc) b < Maxsteps) ∧
      (r = some "not schedulable" → ∃ t, 0 < t ∧ t < RtTask.demand (tested procs theproc) t) := by
  obtain ⟨r, hr, hans⟩ := testschedulability_answer ha ho
  refine ⟨r, hr, ?_⟩
  cases hans
  case schedulable hd hx hb hdvd hw hN =>
    exact ⟨⟨fun _ => ⟨fun t ht => hd t ht.le, _, hx, _, hb, hdvd, hw, hN⟩, fun _ => rfl⟩, nofun⟩
  case late t ht hlt =>
    refine ⟨⟨nofun, fun ⟨hd, _⟩ => absurd (hd t ht) (not_le.mpr hlt)⟩, fun _ => ⟨t, ht, hlt⟩⟩
  case steps hN =>
    refine ⟨⟨nofun, ?_⟩, fun he => absurd (Option.some.inj he) (by decide)⟩
    rintro ⟨-, x, hx, b, hb, hdvd, hw, hlt⟩
    exact absurd (hN x hx b hb hdvd hw) (not_le.mpr hlt)

theorem tested_setEdf {procs : List Proc} {theproc : Nat} (e : Edf) (admitted : Bool) :
    tested (setEdf procs theproc { e with admitted := admitted }) theproc = tested (setEdf procs theproc e) theproc := by
  rw [tested, tested, setEdf, setEdf, update, update, List.filterMap_map, List.filterMap_map]
  refine List.filterMap_congr fun p _ => ?_
  by_cases hp : p.pid = theproc
  · simp [hp, Option.filter]
  · simp [hp]

def proc (pid : Nat) (T C : Int) (admitted : Bool) : Proc where
  pid  := pid
  dead := false
  edf  := some { T := T, D := T, C := C, admitted := admitted }

def pair : List Proc := [proc 1 200 100 true, proc 2 500 250 false]

theorem demand_pair : testschedulability pair 2 = .ok none ∧ ∀ t, 0 < t → RtTask.demand (tested pair 2) t ≤ t :=
  have ht : testschedulability pair 2 = .ok none := by decide +kernel
  have ha : Admission pair 2 := ⟨by decide, by decide, by decide⟩
  have ⟨_, hr, hiff, _⟩ := testschedulability_eq_nil_iff ha (by decide +kernel)
  ⟨ht, (hiff.mp <| Except.ok.inj <| hr.symm.trans ht).left⟩

-- Two processes that take half of the time each. The second has so long a period that the steps are used up
-- before its first deadline.
def slow : List Proc := [proc 1 200 100 true, proc 2 5000000 2500000 false]

theorem long_of {n : Int} (h : 0 ≤ n ∧ n < 2 ^ 31) : long n = .ok n :=
  if_pos ⟨by omega, h.right⟩

theorem testenq_first {e x : Test} {l : List Test} (he : 0 ≤ e.testtime) (h : e.testtime < x.testtime)
    (hx : x.testtime < 2 ^ 31) : testenq e (x :: l) = .ok (e :: x :: l) := by
  have hl : long (e.testtime - x.testtime) = .ok (e.testtime - x.testtime) := if_pos ⟨by omega, by omega⟩
  simp only [testenq, hl, bind, Except.bind]
  rw [if_pos (.inl (by omega))]

-- The steps go to the first process, `j` of whose periods are over at its next release.
theorem simulate_slow (n : Nat) (j : Int) (hj : 0 < j) :
    (2 * j + n < 49999 → simulate n [⟨⟨200, 200, 100⟩, .Rl, 200 * j⟩, ⟨⟨5000000, 5000000, 2500000⟩, .Dl, 5000000⟩]
      (100 * j) (100 * j + 2500000) = .ok (some "probably not schedulable")) ∧
    (2 * j + n < 50000 → simulate n [⟨⟨200, 200, 100⟩, .Dl, 200 * j⟩, ⟨⟨5000000, 5000000, 2500000⟩, .Dl, 5000000⟩]
      (100 * (j - 1)) (100 * j + 2500000) = .ok (some "probably not schedulable")) := by
  induction n generalizing j
  case zero => exact ⟨fun _ => rfl, fun _ => rfl⟩
  case succ n ih =>
    constructor
    case left =>
      intro h
      have hG : long (100 * j + 2500000 + 100) = .ok (100 * (j + 1) + 2500000) :=
        (long_of (by omega)).trans (congrArg _ (by omega))
      have ht : long (200 * j + 200) = .ok (200 * (j + 1)) := (long_of (by omega)).trans (congrArg _ (by omega))
      have hH : 100 * j = 100 * ((j + 1) - 1) := by omega
      simp only [simulate, hG, ht, bind, Except.bind]
      rw [if_neg (by omega), testenq_first (by simp only; omega) (by simp only; omega) (by simp), hH]
      exact (ih (j + 1) (by omega)).right (by omega)
    case right =>
      intro h
      have hH : long (100 * (j - 1) + 100) = .ok (100 * j) := (long_of (by omega)).trans (congrArg _ (by omega))
      have hs : long (200 - 200) = .ok 0 := long_of (by omega)
      have ht : long (200 * j + 0) = .ok (200 * j) := (long_of (by omega)).trans (congrArg _ (by omega))
      simp only [simulate, hH, hs, ht, bind, Except.bind]
      rw [if_neg (by omega), testenq_first (by simp only; omega) (by simp only; omega) (by simp)]
      exact (ih j hj).left (by omega)

theorem simulate_start {N : Nat} (h3 : 3 ≤ N) (hN : N < 50000) :
    simulate N [⟨⟨200, 200, 100⟩, .Rl, 0⟩, ⟨⟨5000000, 5000000, 2500000⟩, .Rl, 0⟩] 0 0 =
      .ok (some "probably not schedulable") := by
  obtain ⟨n, rfl⟩ := Nat.exists_eq_add_of_le' h3
  exact (simulate_slow n 1 (by decide)).left (by omega)

theorem enqueue_slow :
    enqueue 2 slow [] = .ok [⟨⟨200, 200, 100⟩, .Rl, 0⟩, ⟨⟨5000000, 5000000, 2500000⟩, .Rl, 0⟩] := rfl

theorem testschedulability_slow : testschedulability slow 2 = .ok (some "probably not schedulable") :=
  Except.bind_eq_ok_iff.mpr ⟨_, enqueue_slow, simulate_start (by decide) (by decide)⟩

theorem slow_refused : Admission slow 2 ∧ testschedulability slow 2 = .ok (some "probably not schedulable") ∧
    ∀ t, 0 < t → RtTask.demand (tested slow 2) t ≤ t := by
  refine ⟨⟨by decide, by decide, by decide⟩, testschedulability_slow, fun t ht => ?_⟩
  have htasks : tested slow 2 = [⟨200, 200, 100⟩, ⟨5000000, 5000000, 2500000⟩] := rfl
  simp only [htasks, RtTask.demand, RtTask.deadlines, List.map_cons, List.map_nil, List.sum_cons, List.sum_nil]
  omega

end Port.EdfTest
