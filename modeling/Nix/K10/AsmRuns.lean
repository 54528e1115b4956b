import Nix.K10.AsmLists

namespace K10.Asm

open Span

variable {s s' : State} {l fl pre post : List Nat} {i pp np addr size a b : Nat} {type align : Int} {e : Entry}

theorem uintmem_add (h : a + b < 2 ^ 64) : uintmem (a + b) = a + b := by
  rw [uintmem]
  omega

theorem uintmem_sub (h : b ≤ a) (ha : a < 2 ^ 64) : uintmem (a - b) = a - b := by
  rw [uintmem]
  omega

-- The map is in order and ends before the last address.
structure Holds (s : State) (l fl : List Nat) : Prop where
  lists : Lists s l fl
  laid  : Laid (l.map s.asm)
  lt    : ∀ e ∈ l.map s.asm, e.top < 2 ^ 64

namespace Holds

theorem of_added {l' fl' : List Nat} {es : List Entry} (h : Lists s' l' fl') (hadded : Added e es (l'.map s'.asm))
    (hlaid : Laid es) (hlt : ∀ x ∈ es, x.top < 2 ^ 64) (he : e.top < 2 ^ 64) : Holds s' l' fl' := by
  have hlaid' := hadded.laid hlaid
  refine ⟨h, hlaid', fun x hx => ?_⟩
  have hpos := hlaid'.pos x hx
  have hcov : Covers (l'.map s'.asm) x.type (x.top - 1) := ⟨x, hx, rfl, by unfold top; omega, by unfold top; omega⟩
  rcases hadded.covers.mp hcov with ⟨y, hy, -, -, hlast⟩ | ⟨-, -, hlast⟩
  · have := hlt y hy
    omega
  · omega

theorem stop_eq (h : Holds s l fl) (hi : i ∈ l) : (s.asm i).stop = (s.asm i).top :=
  uintmem_add (h.lt _ (List.mem_map_of_mem hi))

end Holds

-- What comes of `asmfree`: nothing, if the range is not apart or there is no entry for it.
inductive Frees (s : State) (es : List Entry) (e : Entry) : Int → State → List Entry → Prop
  | loses : (Apart e es → ¬s.Spare ∧ ∀ x ∈ es, x.type = e.type → x.addr ≠ e.top) → Frees s es e (-1) s es
  | adds {u : State} {es' : List Entry} : (∀ t n, Covers es' t n ↔ Covers es t n ∨ e.Has t n) → Frees s es e 0 u es'

theorem set_link_free {j k : Nat} : ((s.set pp e).link i j).free k = ((s.link i j).free k).set pp e := by
  unfold State.link
  split <;> rfl

theorem last_concat (h : Last pre pp) (hpp : pp ≠ nil) : ∃ l, pre = l ++ [pp] := by
  rcases h with ⟨-, h⟩ | ⟨l, rfl, -⟩
  · exact absurd h hpp
  · exact ⟨l, rfl⟩

theorem first_cons (h : First post np) (hnp : np ≠ nil) : ∃ l, post = np :: l := by
  rcases h with ⟨-, h⟩ | ⟨l, rfl, -⟩
  · exact absurd h hnp
  · exact ⟨l, rfl⟩

-- Of the entries before a range only the last can be next to it, and of those after it only the first.
theorem before_of_last {xs : List Entry} {x e : Entry} (hlaid : Laid (xs ++ [x])) (hx : x.Before e) :
    ∀ y ∈ xs ++ [x], y.Before e := by
  obtain ⟨-, hpos, hxs⟩ := laid_append.mp hlaid
  have hsize := hpos.pos x (List.mem_singleton_self x)
  intro y hy
  rcases List.mem_append.mp hy with hy | hy
  · have hyx := (hxs y hy x (List.mem_singleton_self x)).top_le
    have hxe := hx.top_le
    exact .inl (by unfold top at *; omega)
  · rwa [List.mem_singleton.mp hy]

theorem before_of_first {ys : List Entry} {y e : Entry} (hlaid : Laid (y :: ys)) (hy : e.Before y) :
    ∀ x ∈ y :: ys, e.Before x := by
  obtain ⟨hsize, hys, -⟩ := laid_cons.mp hlaid
  refine List.forall_mem_cons.mpr ⟨hy, fun x hx => ?_⟩
  have hyx := (hys x hx).top_le
  have hey := hy.top_le
  exact .inl (by unfold top at *; omega)

theorem Holds.asmfree (h : Holds s l fl) (hlt : addr + size < 2 ^ 64) :
    ∃ r s' l' fl', s.asmfree addr size type = some (r, s') ∧ Holds s' l' fl' ∧
      Frees s (l.map s.asm) ⟨addr, size, type⟩ r s' (l'.map s'.asm) := by
  by_cases h0 : size = 0
  case pos =>
    rw [State.asmfree, if_pos h0]
    refine ⟨0, s, l, fl, rfl, h, .adds fun t n => (or_iff_left fun hn => ?_).symm⟩
    obtain ⟨-, hle, hlt⟩ := hn
    unfold top at hlt
    dsimp only at hle hlt
    omega
  case neg =>
    obtain ⟨pre, post, pp, np, rfl, hpre, hnp, hnaddr, hpp, hfind⟩ := @find_eq s _ [] _ nil _ addr
      (.inl ⟨rfl, rfl⟩) h.lists.list (Nat.lt_succ_of_le h.lists.length_le)
    have hstop (hne : pp ≠ nil) : (s.asm pp).stop = (s.asm pp).top :=
      h.stop_eq (List.mem_append_left _ (hpp.mem hne))
    have hsum : uintmem (addr + size) = addr + size := uintmem_add hlt
    have hlaid := h.laid
    rw [List.map_append] at hlaid
    obtain ⟨hxs, hys, -⟩ := laid_append.mp hlaid
    have hpaddr (hne : pp ≠ nil) : (s.asm pp).addr ≤ addr :=
      (hpre pp (hpp.mem hne)).resolve_left (List.not_mem_nil)
    have hmemp (hne : pp ≠ nil) : s.asm pp ∈ (pre ++ post).map s.asm :=
      List.mem_map_of_mem (List.mem_append_left _ (hpp.mem hne))
    have hmemq (hne : np ≠ nil) : s.asm np ∈ (pre ++ post).map s.asm := by
      obtain ⟨l, rfl⟩ := first_cons hnp hne
      exact List.mem_map_of_mem (by simp)
    rw [State.asmfree, if_neg h0, hfind]
    dsimp only [Option.bind_eq_bind, Option.bind_some]
    by_cases hover : pp ≠ nil ∧ addr < (s.asm pp).stop ∨ np ≠ nil ∧ (s.asm np).addr < uintmem (addr + size)
    case pos =>
      rw [if_pos hover]
      refine ⟨-1, s, pre ++ post, fl, rfl, h, .loses fun hapart => ?_⟩
      rcases hover with ⟨hne, hlt'⟩ | ⟨hne, hlt'⟩
      · have := hpaddr hne
        rw [hstop hne] at hlt'
        rcases hapart _ (hmemp hne) with hle | hle
        · exact absurd hlt' hle.not_gt
        · unfold top at hle
          dsimp only at hle
          omega
      · have := hnaddr hne
        rw [hsum] at hlt'
        rcases hapart _ (hmemq hne) with hle | hle
        · unfold top at hle
          dsimp only at hle
          omega
        · exact absurd hlt' hle.not_gt
    case neg =>
      rw [if_neg hover]
      obtain ⟨hnp', hnq'⟩ := not_or.mp hover
      have hptop (hne : pp ≠ nil) : (s.asm pp).top ≤ addr := by
        have := fun hlt => hnp' ⟨hne, hlt⟩
        rw [hstop hne] at this
        exact Nat.le_of_not_lt this
      have hqtop (hne : np ≠ nil) : addr + size ≤ (s.asm np).addr := by
        have := fun hlt => hnq' ⟨hne, hlt⟩
        rw [hsum] at this
        exact Nat.le_of_not_lt this
      have hright (hno : ¬(np ≠ nil ∧ (s.asm np).type = type ∧ addr + size = (s.asm np).addr)) :
          ∀ y ∈ post.map s.asm, Before ⟨addr, size, type⟩ y := by
        by_cases hne : np = nil
        · rcases hnp with ⟨rfl, -⟩ | ⟨l, -, hne'⟩
          · simp
          · exact absurd hne hne'
        · obtain ⟨l, rfl⟩ := first_cons hnp hne
          refine before_of_first hys ?_
          rcases (hqtop hne).lt_or_eq with hlt | heq
          · exact .inl hlt
          · exact .inr ⟨heq, fun ht => hno ⟨hne, ht.symm, heq⟩⟩
      have hleft (hno : ¬(pp ≠ nil ∧ (s.asm pp).type = type ∧ (s.asm pp).stop = addr)) :
          ∀ x ∈ pre.map s.asm, x.Before ⟨addr, size, type⟩ := by
        by_cases hne : pp = nil
        · rcases hpp with ⟨rfl, -⟩ | ⟨l, -, hne'⟩
          · simp
          · exact absurd hne hne'
        · obtain ⟨l, rfl⟩ := last_concat hpp hne
          rw [List.map_append] at hxs ⊢
          refine before_of_last hxs ?_
          rcases (hptop hne).lt_or_eq with hlt | heq
          · exact .inl hlt
          · exact .inr ⟨heq, fun ht => hno ⟨hne, ht, (hstop hne).trans heq⟩⟩
      have hdone {r : Int × State} {l' fl' : List Nat} (hr : r.fst = 0) (hl : Lists r.snd l' fl')
          (hadded : Added ⟨addr, size, type⟩ (pre.map s.asm ++ post.map s.asm) (l'.map r.snd.asm)) :
          ∃ x s' l' fl', some r = some (x, s') ∧ Holds s' l' fl' ∧
            Frees s ((pre ++ post).map s.asm) ⟨addr, size, type⟩ x s' (l'.map s'.asm) := by
        obtain ⟨x, s'⟩ := r
        obtain rfl : x = 0 := hr
        rw [List.map_append]
        refine ⟨0, s', l', fl', rfl, of_added hl hadded hlaid ?_ hlt, .adds fun t n => hadded.covers⟩
        rw [← List.map_append]
        exact h.lt
      by_cases hmerge : pp ≠ nil ∧ (s.asm pp).type = type ∧ (s.asm pp).stop = addr
      case pos =>
        rw [if_pos hmerge]
        obtain ⟨hne, htype, heq⟩ := hmerge
        rw [hstop hne] at heq
        obtain ⟨l, rfl⟩ := last_concat hpp hne
        have hsize : uintmem ((s.asm pp).size + size) = (s.asm pp).size + size := by
          refine uintmem_add ?_
          unfold top at heq
          omega
        rw [hsize]
        by_cases hnext : np ≠ nil ∧ (s.asm np).type = type ∧ uintmem (addr + size) = (s.asm np).addr
        case pos =>
          rw [if_pos hnext]
          obtain ⟨hne', htype', heq'⟩ := hnext
          rw [hsum] at heq'
          obtain ⟨l', rfl⟩ := first_cons hnp hne'
          have hsize' : uintmem (((s.asm pp).size + size : Nat) + (s.asm np).size) =
              (s.asm pp).size + size + (s.asm np).size := by
            have := h.lt _ (hmemq hne')
            refine uintmem_add ?_
            unfold top at heq this
            omega
          rw [hsize', set_link_free]
          have hlists := h.lists.drop hpp
          rw [List.append_assoc, List.singleton_append] at hlists
          refine hdone rfl hlists.set ?_
          rw [hlists.map_set]
          simp only [State.free, link_asm]
          rw [List.map_append, List.map_singleton, List.map_cons, List.append_assoc, List.singleton_append] at hlaid ⊢
          exact Added.both hlaid htype heq htype' heq'
        case neg =>
          rw [if_neg hnext]
          rw [hsum] at hnext
          have hlists := h.lists
          rw [List.append_assoc, List.singleton_append] at hlists
          refine hdone rfl hlists.set ?_
          rw [hlists.map_set]
          rw [List.map_append, List.map_singleton, List.append_assoc, List.singleton_append] at hlaid ⊢
          exact Added.left hlaid htype heq (hright hnext)
      case neg =>
        rw [if_neg hmerge]
        by_cases hnext : np ≠ nil ∧ (s.asm np).type = type ∧ uintmem (addr + size) = (s.asm np).addr
        case pos =>
          rw [if_pos hnext]
          obtain ⟨hne, htype, heq⟩ := hnext
          rw [hsum] at heq
          obtain ⟨l, rfl⟩ := first_cons hnp hne
          have htop := h.lt _ (hmemq hne)
          have haddr : uintmem ((s.asm np).addr - size) = addr := by
            rw [uintmem_sub (by omega) (by unfold top at htop; omega)]
            omega
          have hsize : uintmem ((s.asm np).size + size) = (s.asm np).size + size := by
            refine uintmem_add ?_
            unfold top at htop
            omega
          rw [haddr, hsize]
          refine hdone rfl h.lists.set ?_
          rw [h.lists.map_set]
          rw [List.map_cons] at hlaid ⊢
          exact Added.right hlaid htype heq (hleft hmerge)
        case neg =>
          rw [if_neg hnext]
          rw [hsum] at hnext
          by_cases hspare : s.Spare
          case neg =>
            rw [Lists.asmnew_none hspare]
            refine ⟨-1, s, pre ++ post, fl, rfl, h, .loses fun _ => ⟨hspare, ?_⟩⟩
            rw [List.map_append]
            intro x hx ht heq
            rcases List.mem_append.mp hx with hx | hx
            · have := (hleft hmerge x hx).top_le
              have := (laid_append.mp hlaid).left.pos x hx
              unfold top at *
              dsimp only at *
              omega
            · rcases hright hnext x hx with hlt | ⟨-, hne⟩
              · exact hlt.ne heq.symm
              · exact hne ht.symm
          case pos =>
            obtain ⟨i, s', fl', hnew, hil, hi, hasm, hlist, hlists, hifl, hindex⟩ := h.lists.asmnew hspare
              (e := ⟨addr, size, type⟩)
            rw [hnew]
            refine hdone rfl (hlists.insert hpp hnp hil hi hifl hindex) ?_
            dsimp only
            rw [link_asm, hasm]
            have hold (j : Nat) (hj : j ∈ pre ++ post) : Function.update s.asm i ⟨addr, size, type⟩ j = s.asm j :=
              Function.update_of_ne (ne_of_mem_of_not_mem hj hil) ..
            rw [List.map_append, List.map_cons, Function.update_self,
              List.map_congr_left fun j hj => hold j (List.mem_append_left _ hj),
              List.map_congr_left fun j hj => hold j (List.mem_append_right _ hj)]
            exact Added.new (Nat.pos_of_ne_zero h0) (hleft hmerge) (hright hnext)

theorem left_eq (htop : e.top < 2 ^ 64) (ha : a < 2 ^ 64) :
    uintmem (e.addr + e.size - a) = if a ≤ e.top then e.top - a else 2 ^ 64 + e.top - a := by
  unfold top at *
  rw [uintmem]
  split <;> omega

theorem round_eq (ha : a < 2 ^ 64) (hal : 0 < align) : uintmem (a + align - 1) / align.toNat * align.toNat =
    if a + align.toNat ≤ 2 ^ 64 then Span.roundup a align.toNat else 0 := by
  split
  case isTrue hle =>
    have hval : uintmem (a + align - 1) = a + align.toNat - 1 := by
      rw [uintmem]
      omega
    rw [hval, Span.roundup]
  case isFalse hgt =>
    have hval : uintmem (a + align - 1) < align.toNat := by
      rw [uintmem]
      omega
    rw [Nat.div_eq_of_lt hval, Nat.zero_mul]

theorem fit_right (htop : e.top < 2 ^ 64) (ha : a = start addr e) (hmeets : Meets addr size type e)
    (hstray : ¬Astray addr size type align.toNat e 64) :
    Scan.Right addr size type align.toNat id e (fit size align e a) := by
  have hstops : ¬Stops addr size type e := fun h => h.right.right.right hmeets
  have hstart : start addr e ≤ e.top := by
    rw [start]
    split
    case isTrue     => exact Nat.le_add_right _ _
    case isFalse h0 => exact (hmeets.right.resolve_left h0).right.left
  have hor : addr = 0 ∨ e.addr ≤ addr := hmeets.right.imp_right And.left
  -- where the place is what it is to be, and not after the end
  have hplace (r : Nat) (hr : r = place addr align.toNat e) (hle : r ≤ e.top) :
      Scan.Right addr size type align.toNat id e
        (if uintmem (e.addr + e.size - r) < size then .next else .take r) := by
    rw [left_eq htop (by omega), if_pos hle]
    split
    case isTrue hnext =>
      refine ⟨fun hroom => ?_, hstops⟩
      have := hroom.right.right
      omega
    case isFalse htake =>
      exact ⟨⟨hmeets.left, hor, by omega⟩, hr⟩
  rw [fit]
  by_cases hal : 0 < align
  case neg =>
    rw [if_neg hal]
    refine hplace a ?_ (ha.trans_le hstart)
    rw [place, if_pos (by omega), ha]
  case pos =>
    rw [if_pos hal, round_eq (by omega) hal]
    have hpad : align.toNat ≠ 0 := by omega
    by_cases hle : a + align.toNat ≤ 2 ^ 64
    case pos =>
      rw [if_pos hle]
      have hval : Span.roundup a align.toNat = place addr align.toNat e := by
        rw [place, if_neg hpad, ha]
      have hlt : Span.roundup a align.toNat < 2 ^ 64 := (roundup_lt (Nat.pos_of_ne_zero hpad)).trans_le hle
      by_cases hend : Span.roundup a align.toNat ≤ e.top
      case pos => exact hplace _ hval hend
      case neg =>
        have hno : ¬place addr align.toNat e + size ≤ e.top + 2 ^ 64 := fun hfit =>
          hstray ⟨hpad, hmeets, .inr ⟨ha ▸ hle, .inl ⟨by omega, hfit⟩⟩⟩
        rw [left_eq htop hlt, if_neg hend, if_pos (by omega)]
        refine ⟨fun hroom => ?_, hstops⟩
        have := hroom.right.right
        omega
    case neg =>
      have hno : ¬size ≤ e.top := fun hfit => hstray ⟨hpad, hmeets, .inl ⟨by omega, hfit⟩⟩
      rw [if_neg hle]
      rw [left_eq htop (by decide), if_pos (Nat.zero_le _), if_pos (by omega)]
      refine ⟨fun hroom => ?_, hstops⟩
      have := hroom.right.right
      omega

theorem scan_right (htop : e.top < 2 ^ 64) (hsize : size < 2 ^ 64)
    (hstray : ¬Astray addr size type align.toNat e 64) :
    Scan.Right addr size type align.toNat id e (scan addr size type align e) := by
  rw [scan]
  by_cases ht : e.type = type
  case neg =>
    rw [if_pos ht]
    exact ⟨fun hroom => ht hroom.left, fun hstops => ht hstops.left⟩
  case pos =>
    rw [if_neg (not_not_intro ht)]
    by_cases h0 : addr = 0
    case pos =>
      rw [if_neg (not_not_intro h0)]
      exact fit_right htop (by rw [start, if_pos h0]) ⟨ht, .inl h0⟩ hstray
    case neg =>
      rw [if_pos h0]
      have hmeets : Meets addr size type e ↔ e.addr ≤ addr ∧ addr ≤ e.top ∧ (addr + size ≤ e.top ∨ e.size < size) :=
        ⟨fun h => h.right.resolve_left h0, fun h => ⟨ht, .inr h⟩⟩
      by_cases hlt : addr < e.addr
      case pos =>
        rw [if_pos hlt]
        refine ⟨ht, h0, hlt.le.trans (Nat.le_add_right _ _), fun h => ?_⟩
        exact absurd hlt (hmeets.mp h).left.not_gt
      case neg =>
        rw [if_neg hlt]
        by_cases hnext : e.size < addr - e.addr
        case pos =>
          rw [if_pos hnext]
          refine ⟨fun hroom => ?_, fun hstops => ?_⟩
          · have := (hmeets.mp hroom.meets).right.left
            unfold top at *
            omega
          · have := hstops.right.right.left
            unfold top at *
            omega
        case neg =>
          rw [if_neg hnext]
          have hrest : uintmem (e.size - size) = if size ≤ e.size then e.size - size else 2 ^ 64 + e.size - size := by
            unfold top at htop
            rw [uintmem]
            split <;> omega
          rw [hrest]
          by_cases hstop : (if size ≤ e.size then e.size - size else 2 ^ 64 + e.size - size) < addr - e.addr
          case pos =>
            rw [if_pos hstop]
            refine ⟨ht, h0, by unfold top; omega, fun h => ?_⟩
            have := (hmeets.mp h).right.right
            unfold top at *
            split at hstop <;> omega
          case neg =>
            rw [if_neg hstop]
            refine fit_right htop (by rw [start, if_neg h0]) (hmeets.mpr ⟨by omega, ?_, ?_⟩) hstray
            · unfold top
              omega
            · unfold top
              split at hstop <;> omega

-- What is left of the entry that a range is taken from the beginning of, with the part before the range.
theorem Holds.cut (h : Holds s (pre ++ i :: post) fl) (hpp : Last pre pp) (hle : (s.asm i).addr ≤ a)
    (htop : a + size ≤ (s.asm i).top) (hhead : a + size = (s.asm i).top → pre ≠ []) :
    let e := s.asm i
    let e' : Entry := { e with addr := uintmem (a + size), size := uintmem (e.size - (a - e.addr + size)) }
    ∃ s' l fl', (if e'.size = 0 then (s.set i e').drop pp i else s.set i e') = s' ∧ Holds s' l fl' ∧
      l.map s'.asm = pre.map s.asm ++ ((s.asm i).rest (a + size) ++ post.map s.asm) ∧
      (a + size = (s.asm i).top ∨ s.Spare → s'.Spare) := by
  have hi := h.lt (s.asm i) (List.mem_map_of_mem (by simp))
  have hsum : (s.asm i).top = (s.asm i).addr + (s.asm i).size := rfl
  have haddr : uintmem (a + size) = a + size := uintmem_add (by omega)
  have hsize : uintmem ((s.asm i).size - (a - (s.asm i).addr + size)) = (s.asm i).top - (a + size) := by
    rw [uintmem]
    omega
  have hlaid := h.laid
  rw [List.map_append, List.map_cons] at hlaid
  have hrest := laid_rest hlaid (hle.trans (Nat.le_add_right _ _)) htop
  have hlt : ∀ x ∈ pre.map s.asm ++ ((s.asm i).rest (a + size) ++ post.map s.asm), x.top < 2 ^ 64 := fun x hx => by
    rcases List.mem_append.mp hx with hx | hx
    · exact h.lt x (by rw [List.map_append]; exact List.mem_append_left _ hx)
    · rcases List.mem_append.mp hx with hx | hx
      · rw [(mem_rest hx htop).right.left]
        exact hi
      · exact h.lt x (by rw [List.map_append, List.map_cons]; simp [hx])
  dsimp only
  rw [haddr, hsize]
  by_cases heq : a + size = (s.asm i).top
  case pos =>
    have hnil : pp ≠ nil := by
      rcases hpp with ⟨hpre, -⟩ | ⟨_, -, hne⟩
      · exact absurd hpre (hhead heq)
      · exact hne
    have hlists := h.lists.drop hpp
    have hmap (e' : Entry) : (pre ++ post).map (((s.link pp (s.next i)).free i).set i e').asm =
        pre.map s.asm ++ post.map s.asm := by
      rw [← List.map_append]
      refine List.map_congr_left fun j hj => (Function.update_of_ne (fun hji => ?_) ..).trans (congrFun link_asm j)
      exact (List.nodup_append'.mp hlists.nodup).right.right (hji ▸ hj) List.mem_cons_self
    rw [rest, if_pos heq] at hrest hlt ⊢
    have hdrop (e' : Entry) : (s.set i e').drop pp i = ((s.link pp (s.next i)).free i).set i e' := by
      rw [State.drop, if_pos hnil]
      exact set_link_free
    have hne : i ≠ nil := h.lists.ne_nil (by simp)
    rw [if_pos (by omega), hdrop]
    refine ⟨_, _, _, rfl, ⟨hlists.set, ?_, ?_⟩, hmap _, fun _ => .inl hne⟩
    · rwa [hmap]
    · rwa [hmap]
  case neg =>
    rw [rest, if_neg heq] at hrest hlt ⊢
    rw [if_neg (by omega)]
    refine ⟨_, _, _, rfl, ⟨h.lists.set, ?_, ?_⟩, h.lists.map_set, fun hor => hor.resolve_left heq⟩
    · rwa [h.lists.map_set]
    · rwa [h.lists.map_set]

theorem Holds.asmalloc (h : Holds s l fl) (hsize : size < 2 ^ 64) (hc : Allocs s addr size type align) :
    ∃ r s' l' fl', s.asmalloc addr size type align = some (r, s') ∧ Holds s' l' fl' ∧
      Allocates addr size type align (l.map s.asm) (l'.map s'.asm) r := by
  obtain ⟨hupto, hheads⟩ := hc _ h.lists.entries
  have hsearch := @search_eq s _ [] _ nil _ addr size type align
    (.inl ⟨rfl, rfl⟩) h.lists.list (Nat.lt_succ_of_le h.lists.length_le)
  rcases @Scan.find_right _ _ _ _ (scan addr size type align ∘ s.asm) _ id _ _ _ _ _ h.laid hupto fun i hi es hn =>
      scan_right (h.lt _ (List.mem_map_of_mem hi)) hsize hn.left with
    ⟨hnone, -⟩ | ⟨pre, i, post, a, hsome, rfl, hyes, hval, ⟨hstray, hsplit⟩, -⟩
  case inl =>
    rw [State.asmalloc, hsearch.left hnone]
    exact ⟨none, s, l, fl, rfl, h, rfl⟩
  case inr =>
    obtain ⟨pp, hpp, hs⟩ := hsearch.right _ _ _ _ hsome
    obtain rfl : a = place addr align.toNat (s.asm i) := hval
    have hle := hyes.addr_le
    have htop := hyes.right.right
    generalize ha : place addr align.toNat (s.asm i) = a at *
    have hlaid := h.laid
    rw [List.map_append, List.map_cons] at hlaid
    obtain ⟨s₂, l₂, fl₂, hcut, hholds, hmap, hspare⟩ := h.cut hpp hle htop fun heq hpre => by
      subst hpre
      exact hheads _ rfl hyes (ha.symm ▸ heq)
    have hi := h.lt (s.asm i) (List.mem_map_of_mem (by simp))
    have hal (hpos : 0 < align) : align ∣ a := by
      have := @dvd_place _ (s.asm i) addr align.toNat (by omega)
      rw [ha] at this
      simpa [Int.toNat_of_nonneg hpos.le] using Int.natCast_dvd_natCast.mpr this
    have haddr (h0 : addr ≠ 0) : a = addr := by
      by_contra hmove
      rw [← ha] at hmove htop
      by_cases hpad : align.toNat = 0
      · rw [place, if_pos hpad, start, if_neg h0] at hmove
        exact hmove rfl
      · refine hstray ⟨hpad, hyes.meets, ?_⟩
        by_cases hfit : start addr (s.asm i) + align.toNat ≤ 2 ^ 64
        · exact .inr ⟨hfit, .inr ⟨h0, hmove, htop⟩⟩
        · exact .inl ⟨by omega, by omega⟩
    have hmem : ∃ e ∈ (pre ++ i :: post).map s.asm, e.type = type ∧ e.addr ≤ a ∧ a + size ≤ e.top :=
      ⟨s.asm i, List.mem_map_of_mem (by simp), hyes.left, hle, htop⟩
    have htype := hyes.left
    rw [State.asmalloc, hs]
    dsimp only [Option.bind_eq_bind, Option.bind_some]
    rw [hcut, List.map_append, List.map_cons]
    by_cases hea : (s.asm i).addr = a
    case pos =>
      rw [if_neg (not_not_intro hea)]
      refine ⟨some a, s₂, l₂, fl₂, rfl, hholds, hal, haddr, ?_, fun t n => ?_⟩
      · rwa [List.map_append, List.map_cons] at hmem
      · rw [hmap, covers_rest hlaid (hle.trans (Nat.le_add_right _ _)) htop, hea, htype, eq_comm]
    case neg =>
      have hlt : (s.asm i).addr < a := lt_of_le_of_ne hle hea
      have hfront : uintmem (a - (s.asm i).addr) = a - (s.asm i).addr := uintmem_sub hle (by omega)
      rw [if_pos hea, hfront]
      obtain ⟨r, s₃, l₃, fl₃, hfree, hholds₃, hfrees⟩ := @Holds.asmfree _ _ _ (s.asm i).addr
        (a - (s.asm i).addr) type hholds (by omega)
      rw [hfree]
      refine ⟨some a, s₃, l₃, fl₃, rfl, hholds₃, hal, haddr, ?_, ?_⟩
      · rwa [List.map_append, List.map_cons] at hmem
      rw [hmap] at hfrees
      generalize l₃.map s₃.asm = es₃ at hfrees ⊢
      cases hfrees
      case adds hcovers =>
        intro t n
        have := covers_front (t := t) (n := n) hlaid hle (Nat.le_add_right a size) htop
        rw [htype] at this
        rw [hcovers, this]
      case loses hno =>
        have htopf : a = (s.asm i).addr + (a - (s.asm i).addr) := (Nat.add_sub_cancel' hle).symm
        obtain ⟨hspare', hnone⟩ := hno (apart_rest hlaid (Nat.le_add_right a size) htop rfl htopf.ge)
        have hend : a + size ≠ (s.asm i).top := fun heq => hspare' (hspare (.inl heq))
        by_cases h0 : size = 0
        · have hrest : { s.asm i with addr := a + size, size := (s.asm i).top - (a + size) } ∈
              pre.map s.asm ++ ((s.asm i).rest (a + size) ++ post.map s.asm) := by
            rw [rest, if_neg hend]
            simp
          refine absurd ?_ (hnone _ hrest htype)
          unfold top
          dsimp only
          omega
        · exact absurd (hspare (.inr (hsplit hyes h0 (Ne.symm hea) hend))) hspare'

-- What there is to be after an `asmfree`, and after an `asmalloc`.
theorem Holds.kept_asmfree (h : Holds s l fl) (hlt : addr + size < 2 ^ 64) {o : Owned}
    (ho : ∀ t n, Covers (l.map s.asm) t n ↔ o t n) :
    ∃ r s' l' fl', s.asmfree addr size type = some (r, s') ∧ Holds s' l' fl' ∧
      ∀ t n, Covers (l'.map s'.asm) t n ↔ o.asmfree s addr size type t n := by
  obtain ⟨r, s', l', fl', hfree, hholds, hfrees⟩ := @Holds.asmfree s l fl addr size type h hlt
  refine ⟨r, s', l', fl', hfree, hholds, fun t n => ?_⟩
  rw [Owned.asmfree, hfree, Option.map_some]
  generalize l'.map s'.asm = es' at hfrees ⊢
  cases hfrees
  case loses _      => simp [ho]
  case adds hcovers =>
    rw [hcovers, ho]
    unfold Has top
    simp only [true_and, eq_comm]

theorem Holds.kept_asmalloc (h : Holds s l fl) (hsize : size < 2 ^ 64) (hc : Allocs s addr size type align) {o : Owned}
    (ho : ∀ t n, Covers (l.map s.asm) t n ↔ o t n) :
    ∃ r s' l' fl', s.asmalloc addr size type align = some (r, s') ∧ Holds s' l' fl' ∧
      ∀ t n, Covers (l'.map s'.asm) t n ↔ o.asmalloc s addr size type align t n := by
  obtain ⟨r, s', l', fl', halloc, hholds, hallocs⟩ := h.asmalloc hsize hc
  refine ⟨r, s', l', fl', halloc, hholds, fun t n => ?_⟩
  rw [Owned.asmalloc, halloc, Option.map_some]
  cases r
  case none   => rw [hallocs, ho]; simp
  case some a => rw [hallocs.right.right.right, ho]; simp

-- What holds all along.
def Good (s : State × Owned) : Prop :=
  ∃ l fl, Holds s.fst l fl ∧ ∀ t n, Covers (l.map s.fst.asm) t n ↔ s.snd t n

theorem initial_holds : Holds initial [0] [] := by
  refine ⟨⟨⟨rfl, by decide, rfl⟩, rfl, by decide, by decide, by decide⟩, ⟨List.pairwise_singleton _ _, ?_⟩, ?_⟩
  · exact List.forall_mem_singleton.mpr (by decide)
  · exact List.forall_mem_singleton.mpr (by decide)

theorem Holds.asminsert (h : Holds s l fl) {o : Owned} (ho : ∀ t n, Covers (l.map s.asm) t n ↔ o t n)
    (hsize : size < 2 ^ 64) (hfair : type ≠ AsmNONE → addr + size < 2 ^ 64 ∧ Allocs s addr size AsmNONE 0)
    (hs : s.asminsert addr size type = some s') : Good (s', o.asminsert s addr size type) := by
  rw [State.asminsert] at hs
  rw [Owned.asminsert]
  by_cases ht : type = AsmNONE
  case pos =>
    rw [if_pos ht] at hs ⊢
    obtain rfl := Option.some.inj hs
    exact ⟨l, fl, h, ho⟩
  case neg =>
    obtain ⟨hlt, hc⟩ := hfair ht
    obtain ⟨r, s₁, l₁, fl₁, halloc, h₁, ho₁⟩ := h.kept_asmalloc hsize hc ho
    rw [if_neg ht, halloc] at hs ⊢
    dsimp only [Option.bind_eq_bind, Option.bind_some] at hs ⊢
    by_cases hr : r.getD 0 = 0
    case pos =>
      rw [if_pos hr] at hs ⊢
      obtain rfl := Option.some.inj hs
      exact ⟨l₁, fl₁, h₁, ho₁⟩
    case neg =>
      obtain ⟨r₂, s₂, l₂, fl₂, hfree, h₂, ho₂⟩ := @Holds.kept_asmfree _ _ _ _ _ type h₁ hlt _ ho₁
      rw [if_neg hr, hfree] at hs ⊢
      dsimp only [Option.bind_some] at hs ⊢
      by_cases hr₂ : r₂ = 0
      case pos =>
        rw [if_pos hr₂] at hs ⊢
        obtain rfl := Option.some.inj hs
        exact ⟨l₂, fl₂, h₂, ho₂⟩
      case neg =>
        have ho₂' (t : Int) (n : Nat) : Covers (l₂.map s₂.asm) t n ↔ o.asmalloc s addr size AsmNONE 0 t n := by
          rw [ho₂, Owned.asmfree, hfree]
          simp [hr₂]
        obtain ⟨r₃, s₃, l₃, fl₃, hfree₃, h₃, ho₃⟩ := @Holds.kept_asmfree _ _ _ _ _ AsmNONE h₂ hlt _ ho₂'
        rw [if_neg hr₂, hfree₃] at hs
        rw [if_neg hr₂]
        obtain rfl := Option.some.inj hs
        exact ⟨l₃, fl₃, h₃, ho₃⟩

theorem good_invariant : tracked.Invariant (fun s a => Fair s.fst a) Good where
  init := by
    rintro ⟨s, o⟩ ⟨hs, ho⟩
    obtain rfl : s = initial := hs
    obtain rfl : o = fun t n => t = AsmNONE ∧ n < 2 ^ 64 - 1 := ho
    refine ⟨[0], [], initial_holds, fun t n => ?_⟩
    rw [List.map_singleton, covers_cons, or_iff_left covers_nil]
    have hasm : initial.asm 0 = ⟨0, 2 ^ 64 - 1, AsmNONE⟩ := by decide
    rw [hasm, Has, eq_comm]
    exact and_congr_right fun _ => and_iff_right (Nat.zero_le n)
  step := by
    rintro ⟨s, o⟩ act ⟨s', o'⟩ ⟨l, fl, h, ho⟩ hfair hstep
    obtain ⟨hact, rfl : o' = _⟩ := Machine.track_step_eq.mp hstep
    clear hstep
    cases act
    case asmfree addr size type =>
      obtain ⟨r, s₁, l₁, fl₁, hfree, h₁, ho₁⟩ := @Holds.kept_asmfree _ _ _ _ _ type h hfair _ ho
      change (s.asmfree addr size type).map Prod.snd = some s' at hact
      rw [hfree] at hact
      obtain rfl := Option.some.inj hact
      exact ⟨l₁, fl₁, h₁, ho₁⟩
    case asmalloc addr size type align =>
      obtain ⟨r, s₁, l₁, fl₁, halloc, h₁, ho₁⟩ := h.kept_asmalloc size.isLt hfair ho
      change (s.asmalloc addr size type align).map Prod.snd = some s' at hact
      rw [halloc] at hact
      obtain rfl := Option.some.inj hact
      exact ⟨l₁, fl₁, h₁, ho₁⟩
    case asminsert addr size type =>
      exact h.asminsert ho size.isLt (fun ht => (hfair ht).right) hact

-- Where no `asmalloc` goes wrong the map is what it is to be.
theorem asm_kept {s : State × Owned} (hr : tracked.Reachable (fun s a => Fair s.fst a) s) : Kept Fair s := by
  obtain ⟨l, fl, h, ho⟩ := good_invariant.holds hr
  refine ⟨⟨_, h.lists.entries, h.laid, ho⟩, fun addr size type align es hfair hes => ?_⟩
  obtain rfl := Option.some.inj (h.lists.entries.symm.trans hes)
  obtain ⟨r, s', l', fl', halloc, h', hallocs⟩ := h.asmalloc size.isLt hfair
  exact ⟨r, s', _, halloc, h'.lists.entries, hallocs⟩

theorem initial_init : tracked.init (initial, fun t n => t = AsmNONE ∧ n < 2 ^ 64 - 1) :=
  ⟨rfl, rfl⟩

-- A page is taken from the middle, and memory is put there.
theorem asm_kept_middle : ∃ s : State × Owned, s.fst.entries =
    some [⟨0, 0x1000, AsmNONE⟩, ⟨0x1000, 0x1000, AsmMEMORY⟩, ⟨0x2000, 2 ^ 64 - 1 - 0x2000, AsmNONE⟩] ∧ Kept Fair s := by
  have hrun : ((tracked.guarded fun s a => Fair s.fst a).exec (initial, fun t n => t = AsmNONE ∧ n < 2 ^ 64 - 1)
      [.asmalloc 0x1000 0x1000 AsmNONE 0, .asmfree 0x1000 0x1000 AsmMEMORY]).any (fun s => s.fst.entries =
        some [⟨0, 0x1000, AsmNONE⟩, ⟨0x1000, 0x1000, AsmMEMORY⟩, ⟨0x2000, 2 ^ 64 - 1 - 0x2000, AsmNONE⟩]) = true := by
    decide
  obtain ⟨s, hr, hs⟩ := Machine.exists_reachable initial_init hrun
  exact ⟨s, of_decide_eq_true hs, asm_kept hr⟩

-- When the first entry is used up the list goes on to the free list, and the rest of the map is lost.
theorem not_asm_kept : ∃ s : State × Owned, tracked.Reachable (fun _ _ => True) s ∧ ¬Kept (fun _ _ => True) s := by
  have hrun : ((tracked.guarded fun _ _ => True).exec (initial, fun t n => t = AsmNONE ∧ n < 2 ^ 64 - 1)
      [.asmalloc 0x1000 0x1000 AsmNONE 0, .asmalloc 0 0x1000 AsmNONE 0]).any (fun s => s.fst.entries =
        some [⟨0x1000, 0, AsmNONE⟩]) = true := by
    decide
  obtain ⟨s, hr, hs⟩ := Machine.exists_reachable initial_init hrun
  refine ⟨s, hr, fun hkept => ?_⟩
  obtain ⟨es, hes, hlaid, -⟩ := hkept.entries
  obtain rfl := Option.some.inj ((of_decide_eq_true hs).symm.trans hes)
  exact (hlaid.pos _ (List.mem_singleton_self _)).false

end K10.Asm
