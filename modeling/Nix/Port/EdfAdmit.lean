import Nix.Lib.Machine
import Nix.Port.EdfDemand

namespace Port.EdfTest

structure State where
  procs    : List Proc
  pidalloc : Nat

inductive Param
  | period | deadline | cost

def Param.put (x : Param) (e : Edf) (time : Int) : Edf :=
  match x with
  | .period   => { e with T := time }
  | .deadline => { e with D := time }
  | .cost     => { e with C := time }

-- The requests to control files that are about EDF, each of which is taken whole, and what else becomes of
-- the processes. `time` is what `parsetime` finds, in ns.
inductive Op
  | newproc (slot : Nat)
  -- for "sporadic", "sendnotes" and "extratime"
  | edfinit (pid : Nat)
  | param (x : Param) (pid : Nat) (time : Option Nat)
  | admission (pid : Nat)
  -- for "expel", and for a process that is broken
  | edfstop (pid : Nat)
  | pexit (pid : Nat)

def edfinit (e : Option Edf) : Edf :=
  e.getD ⟨⟨0, 0, 0⟩, false⟩

def edfstop (e : Edf) : Edf :=
  { e with admitted := false }

-- The time is stored in a `long`, in µs.
def Param.request (x : Param) (e : Edf) : Option Nat → Edf
  | none      => e
  | some time => x.put (edfstop e) (Int.bmod (time / 1000 : Nat) (2 ^ 32))

namespace State

def newproc (s : State) (slot : Nat) : State where
  procs    := s.procs.take slot ++ ⟨s.pidalloc + 1, false, none⟩ :: s.procs.drop (slot + 1)
  pidalloc := s.pidalloc + 1

def update (s : State) (pid : Nat) (f : Proc → Proc) : State :=
  { s with procs := EdfTest.update s.procs pid f }

def admission (s : State) (pid : Nat) : Option State :=
  match (s.procs.find? fun p => p.pid = pid).bind Proc.edf with
  -- "edf params", or the process died
  | none   => some s
  | some e => match edfadmit s.procs pid e with
    | .ok (procs, _) => some { s with procs := procs }
    | .error _       => none

-- A process has no `pid` any more when it is dead.
def step (s : State) : Op → Option State
  | .newproc slot     => if s.procs[slot]?.all Proc.dead then some (s.newproc slot) else none
  | .edfinit pid      => some (s.update pid fun p => { p with edf := some (EdfTest.edfinit p.edf) })
  | .param x pid time => some (s.update pid fun p => { p with edf := some (x.request (EdfTest.edfinit p.edf) time) })
  | .admission pid        => if pid = 0 then none else s.admission pid
  | .edfstop pid      => some (s.update pid fun p => { p with edf := p.edf.map EdfTest.edfstop })
  | .pexit pid        => some (s.update pid fun _ => ⟨0, true, none⟩)

end State

def machine : Machine State Op where
  init s := s = ⟨[], 0⟩
  step   := State.step

-- No time is too large for a `long`.
def Small (_ : State) : Op → Prop
  | .param _ _ (some time) => time / 1000 < 2 ^ 31
  | _                      => True

-- What a process may ask for that was admitted.
def Proc.task (p : Proc) : Option RtTask :=
  if p.dead then none else (p.edf.filter Edf.admitted).map Edf.toRtTask

def admitted (procs : List Proc) : List RtTask :=
  procs.filterMap Proc.task

def Edf.Nneg (e : Edf) : Prop :=
  0 ≤ e.T ∧ 0 ≤ e.D ∧ 0 ≤ e.C

structure Proc.Fine (p : Proc) : Prop where
  pid   : p.dead → p.pid = 0
  nneg  : ∀ e ∈ p.edf, e.Nneg
  sound : ∀ e ∈ p.edf, e.admitted → e.Sound

structure Feasible (s : State) : Prop where
  fine : ∀ p ∈ s.procs, p.Fine
  le   : ∀ t, 0 < t → RtTask.demand (admitted s.procs) t ≤ t

theorem Proc.Fine.task_sound {p : Proc} (h : p.Fine) : ∀ x ∈ p.task, x.Sound := by
  intro x hx
  obtain ⟨-, hx⟩ := Option.ite_none_left_eq_some.mp hx
  obtain ⟨e, he, rfl⟩ := Option.map_eq_some_iff.mp hx
  obtain ⟨he, ha⟩ := Option.filter_eq_some_iff.mp he
  exact h.sound e he ha

theorem admitted_sound {procs : List Proc} (h : ∀ p ∈ procs, p.Fine) : ∀ x ∈ admitted procs, x.Sound := by
  intro x hx
  obtain ⟨p, hp, hx⟩ := List.mem_filterMap.mp hx
  exact (h p hp).task_sound x hx

theorem filterMap_sublist {f g : Proc → Option RtTask} {procs : List Proc}
    (h : ∀ p ∈ procs, f p = none ∨ f p = g p) : (procs.filterMap f).Sublist (procs.filterMap g) := by
  induction procs
  case nil => exact .slnil
  case cons p procs ih =>
    obtain ⟨hp, hps⟩ := List.forall_mem_cons.mp h
    rw [List.filterMap_cons, List.filterMap_cons]
    cases hg : g p
    case none =>
      rw [show f p = none by simpa [hg] using hp]
      exact ih hps
    case some x =>
      rcases hp with hp | hp
      · rw [hp]
        exact (ih hps).cons x
      · rw [hp, hg]
        exact (ih hps).cons_cons x

-- What may become of a process: it is not admitted, or nothing changes.
def Proc.Lets (p q : Proc) : Prop :=
  q.Fine ∧ (q.task = none ∨ q.task = p.task)

theorem Proc.Fine.stopped {p : Proc} (h : p.Fine) {e : Option Edf} (he : ∀ e' ∈ e, e'.Nneg ∧ e'.admitted = false) :
    p.Lets { p with edf := e } := by
  refine ⟨⟨h.pid, fun e' hm => (he e' hm).left, fun e' hm ha => absurd ha (by simp [(he e' hm).right])⟩, .inl ?_⟩
  have hn : e.filter Edf.admitted = none := by simpa [Option.filter_eq_none_iff] using fun e' hm => (he e' hm).right
  simp [task, hn]

theorem Proc.Fine.edfinit {p : Proc} (h : p.Fine) : p.Lets { p with edf := some (EdfTest.edfinit p.edf) } := by
  cases he : p.edf
  case none   => exact h.stopped (by simp [EdfTest.edfinit, Edf.Nneg])
  case some e =>
    rw [EdfTest.edfinit, Option.getD_some, ← he]
    exact ⟨h, .inr rfl⟩

theorem Proc.Fine.init_nneg {p : Proc} (h : p.Fine) : (EdfTest.edfinit p.edf).Nneg := by
  cases he : p.edf
  case none   => simp [EdfTest.edfinit, Edf.Nneg]
  case some e => exact h.nneg e he

theorem Param.put_nneg (x : Param) {e : Edf} {n : Int} (h : e.Nneg) (hn : 0 ≤ n) : (x.put (edfstop e) n).Nneg := by
  cases x
  case period   => exact ⟨hn, h.right⟩
  case deadline => exact ⟨h.left, hn, h.right.right⟩
  case cost     => exact ⟨h.left, h.right.left, hn⟩

theorem Proc.Fine.request {p : Proc} (h : p.Fine) (x : Param) {time : Option Nat}
    (ht : ∀ n ∈ time, n / 1000 < 2 ^ 31) : p.Lets { p with edf := some (x.request (EdfTest.edfinit p.edf) time) } := by
  cases time
  case none => exact h.edfinit
  case some time =>
    refine h.stopped fun e he => ?_
    have hlt := ht time rfl
    have hn : 0 ≤ Int.bmod (time / 1000 : Nat) (2 ^ 32) := by
      rw [Int.bmod_eq_of_le (by omega) (by omega)]
      omega
    obtain rfl := Option.some.inj he
    exact ⟨x.put_nneg h.init_nneg hn, by cases x <;> rfl⟩

theorem sanity_spec {e : Edf} (h : e.Nneg) : (sanity e).fst.Nneg ∧
    (e.admitted = true → (sanity e).fst = e) ∧ (sanity e).fst.admitted = e.admitted ∧
    ((sanity e).snd = none → e.admitted = false ∧ (sanity e).fst.Sound) := by
  obtain ⟨hT, hD, hC⟩ := h
  by_cases ha : e.admitted = true
  case pos => simp [sanity, ha, Edf.Nneg, hT, hD, hC]
  case neg =>
    rw [Bool.not_eq_true] at ha
    simp only [sanity, ha]
    grind [Edf.Nneg, RtTask.Sound]

theorem Proc.Fine.sanity {p : Proc} (h : p.Fine) :
    p.Lets { p with edf := p.edf.map fun e => (EdfTest.sanity e).fst } := by
  cases he : p.edf
  case none   => exact h.stopped nofun
  case some e =>
    obtain ⟨hn, hsame, ha, -⟩ := sanity_spec (h.nneg e he)
    cases hadm : e.admitted
    case false => exact h.stopped fun e' he' => Option.some.inj he' ▸ ⟨hn, ha.trans hadm⟩
    case true  =>
      rw [Option.map_some, hsame hadm, ← he]
      exact ⟨h, .inr rfl⟩

namespace Feasible

variable {s t : State}

theorem sublist {procs : List Proc} (h : Feasible s) (hf : ∀ p ∈ procs, p.Fine)
    (hs : (admitted procs).Sublist (admitted s.procs)) (n : Nat) : Feasible ⟨procs, n⟩ where
  fine     := hf
  le t ht := (RtTask.demand_sublist hs (admitted_sound h.fine)).trans (h.le t ht)

theorem update {f : Proc → Proc} (h : Feasible s) (pid : Nat) (hf : ∀ p : Proc, p.Fine → p.Lets (f p)) :
    Feasible (s.update pid f) := by
  have hlets : ∀ p ∈ s.procs, p.Lets (if p.pid = pid then f p else p) := by
    intro p hp
    split_ifs
    · exact hf p (h.fine p hp)
    · exact ⟨h.fine p hp, .inr rfl⟩
  refine h.sublist (List.forall_mem_map.mpr fun p hp => (hlets p hp).left) ?_ _
  rw [EdfTest.admitted, List.filterMap_map]
  exact filterMap_sublist fun p hp => (hlets p hp).right

theorem newproc (h : Feasible s) (slot : Nat) : Feasible (s.newproc slot) := by
  refine h.sublist (fun p hp => ?_) ?_ _
  case refine_1 =>
    rcases List.mem_append.mp hp with hp | hp
    · exact h.fine p (List.mem_of_mem_take hp)
    · rcases List.mem_cons.mp hp with rfl | hp
      · exact ⟨nofun, nofun, nofun⟩
      · exact h.fine p (List.mem_of_mem_drop hp)
  case refine_2 =>
    have he : admitted (s.procs.take slot ++ ⟨s.pidalloc + 1, false, none⟩ :: s.procs.drop (slot + 1)) =
        admitted (s.procs.eraseIdx slot) := by
      simp [admitted, List.eraseIdx_eq_take_drop_succ, Proc.task]
    exact he ▸ (List.eraseIdx_sublist s.procs slot).filterMap _

theorem tests {pid : Nat} {p : Proc} {e : Edf} (h : Feasible s) (hp : p ∈ s.procs) (hpid : p.pid = pid)
    (h0 : pid ≠ 0) (he : e.Sound) : Admission (setEdf s.procs pid e) pid := by
  constructor
  case proc =>
    refine ⟨_, List.mem_map_of_mem hp, ?_⟩
    rw [if_pos hpid]
    exact ⟨hpid, fun hd => h0 (hpid ▸ (h.fine p hp).pid hd)⟩
  case edf =>
    refine List.forall_mem_map.mpr fun r _ hr => ?_
    split_ifs at hr ⊢
    · rfl
    · contradiction
  case sound =>
    intro x hx
    rw [tested, setEdf, EdfTest.update, List.filterMap_map] at hx
    obtain ⟨r, hr, hx⟩ := List.mem_filterMap.mp hx
    by_cases hrp : r.pid = pid
    · have hx : r.dead = false ∧ e.toRtTask = x := by simpa [hrp, Option.filter] using hx
      exact hx.right ▸ he
    · exact (h.fine r hr).task_sound x (by simpa [Proc.task, hrp, Option.filter] using hx)

theorem admitted_setEdf {procs : List Proc} {pid : Nat} (e : Edf) :
    admitted (setEdf procs pid { e with admitted := true }) = tested (setEdf procs pid e) pid := by
  rw [← tested_setEdf e true, admitted, tested]
  refine List.filterMap_congr fun q hq => ?_
  obtain ⟨r, -, rfl⟩ := List.mem_map.mp hq
  by_cases hr : r.pid = pid <;> simp [hr, Proc.task, Option.filter]

theorem admitted {pid : Nat} {e : Edf} (h : Feasible s) (hn : e.Nneg) (he : e.Sound)
    (hans : Answer (tested (setEdf s.procs pid e) pid) Maxsteps none) :
    Feasible { s with procs := setEdf s.procs pid { e with admitted := true } } := by
  constructor
  case fine =>
    refine List.forall_mem_map.mpr fun r hr => ?_
    have hf := h.fine r hr
    split_ifs
    · exact ⟨hf.pid, fun e' he' => Option.some.inj he' ▸ hn, fun e' he' _ => Option.some.inj he' ▸ he⟩
    · exact hf
  case le =>
    cases hans
    case schedulable hd _ _ _ _ _ =>
      intro t ht
      rw [admitted_setEdf]
      exact hd t ht.le

theorem admission {pid : Nat} (h : Feasible s) (h0 : pid ≠ 0) (hs : s.admission pid = some t) : Feasible t := by
  rw [State.admission] at hs
  split at hs
  case h_1 => exact Option.some.inj hs ▸ h
  case h_2 e hfind =>
    obtain ⟨p, hp, he⟩ := Option.bind_eq_some_iff.mp hfind
    have hmem := List.mem_of_find?_eq_some hp
    obtain ⟨hn, -, ha, hsound⟩ := sanity_spec ((h.fine p hmem).nneg e he)
    split at hs
    case h_2 => contradiction
    case h_1 procs err heq =>
      obtain rfl := Option.some.inj hs
      rw [ edfadmit] at heq
      split at heq
      case h_1 =>
        obtain ⟨rfl, -⟩ := Prod.mk.inj (Except.ok.inj heq)
        exact h.update pid fun p hp => hp.sanity
      case h_2 e' hsane =>
        obtain ⟨hfalse, hsound⟩ := hsound (congrArg Prod.snd hsane)
        rw [hsane] at hn ha hsound
        obtain ⟨r, hr, heq⟩ := Except.bind_eq_ok_iff.mp heq
        split at heq
        case h_1 =>
          obtain ⟨rfl, -⟩ := Prod.mk.inj (Except.ok.inj heq)
          exact h.update pid fun p hp => hp.stopped fun _ he => Option.some.inj he ▸ ⟨hn, ha.trans hfalse⟩
        case h_2 =>
          obtain ⟨rfl, -⟩ := Prod.mk.inj (Except.ok.inj heq)
          have hpid : p.pid = pid := by simpa using List.find?_some hp
          obtain ⟨r, hr', hans⟩ := testschedulability_answer (h.tests hmem hpid h0 hsound) (by simp [hr])
          obtain rfl := Except.ok.inj (hr.symm.trans hr')
          exact h.admitted hn hsound hans

end Feasible

theorem invariant : machine.Invariant Small Feasible where
  init := by
    rintro s rfl
    exact ⟨nofun, fun t ht => ht.le⟩
  step := by
    intro s a t h hc hs
    cases a
    case newproc slot =>
      obtain ⟨-, hs⟩ := Option.ite_none_right_eq_some.mp hs
      exact Option.some.inj hs ▸ h.newproc slot
    case edfinit pid => exact Option.some.inj hs ▸ h.update pid fun p hp => hp.edfinit
    case param x pid time =>
      refine Option.some.inj hs ▸ h.update pid fun p hp => hp.request x fun n hn => ?_
      obtain rfl := hn
      exact hc
    case admission pid =>
      obtain ⟨h0, hs⟩ := Option.ite_none_left_eq_some.mp hs
      exact h.admission h0 hs
    case edfstop pid =>
      refine Option.some.inj hs ▸ h.update pid fun p hp => hp.stopped fun e' he' => ?_
      obtain ⟨e, he, rfl⟩ := Option.map_eq_some_iff.mp he'
      exact ⟨hp.nneg e he, rfl⟩
    case pexit pid =>
      exact Option.some.inj hs ▸ h.update pid fun _ _ => ⟨⟨fun _ => rfl, nofun, nofun⟩, .inl rfl⟩

def pairOps : List Op :=
  [.newproc 0, .param .period 1 (some 200000), .param .cost 1 (some 100000), .admission 1,
    .newproc 1, .param .period 2 (some 500000), .param .cost 2 (some 250000), .admission 2]

end Port.EdfTest
