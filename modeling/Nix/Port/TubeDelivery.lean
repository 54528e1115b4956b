import Nix.Port.Tube

namespace Port.Tube

variable {P : Type*} [Fintype P] [DecidableEq P] {t : Tube} {s s' : State P}

namespace Inv

theorem receive (h : Inv t s) (hpc : s.pc p = .hd) (hr : t.InRange s.takers.length) :
    Inv t ({ s with hd := int32 (s.hd + 1), takers := s.takers ++ [p] }.goto p
      (.spin s.takers.length (t.slot (int32 (s.hd + 1))))) := by
  have hnew : s.takers.length ∉ s.got.map Prod.fst := by
    intro hg
    obtain ⟨x, hx, he⟩ := List.mem_map.mp hg
    have := h.taken x hx
    omega
  have hget {n : Nat} {q : P} (hn : s.takers[n]? = some q) : (s.takers ++ [p])[n]? = some q := by
    rw [List.getElem?_append_left (List.getElem?_eq_some_iff.mp hn).choose, hn]
  refine ⟨h.tl, ?hhd, fun p' => ?valid, h.sizes, h.freed, fun n p' m hn hg => ?written, h.empty, h.got,
    fun x hx => ?taken, h.nodup, ?tickets, ?served, fun r hr => ?inorder⟩
  case hhd =>
    change int32 (s.hd + 1) = int32 _
    rw [h.hd, int32_add, State.goto, List.length_append]
    rfl
  case valid =>
    by_cases hp : p' = p
    case pos =>
      rw [hp]
      simp only [State.goto, Function.update_self, Pc.Valid]
      exact ⟨by simp, by rw [h.hd, slot_eq hr], hnew⟩
    case neg =>
      have hv := h.valid p'
      simp only [State.goto, Function.update_of_ne hp]
      cases hc : s.pc p' <;> rw [hc] at hv <;> simp only [Pc.Valid] at hv ⊢ <;> try exact hv
      case spin => exact ⟨hget hv.left, hv.right⟩
      case read => exact ⟨hget hv.left, hv.right⟩
  case written =>
    refine (h.written n p' m hn hg).imp_left (Exists.imp fun k hk => ?_)
    have hp : p' ≠ p := fun hp => by rw [hp, hpc] at hk; contradiction
    rw [State.goto, ← hk]
    exact Function.update_of_ne hp ..
  case taken =>
    change x.fst < (s.takers ++ [p]).length
    rw [List.length_append]
    exact Nat.lt_add_right _ <| h.taken x hx
  case tickets =>
    have := h.tickets
    have htally := tally_update Pc.pending s.pc p (.spin s.takers.length (t.slot (int32 (s.hd + 1))))
    rw [hpc] at htally
    simp only [State.goto, htally, Pc.pending, List.length_append, List.length_singleton]
    omega
  case served =>
    have := h.served
    have htally := tally_update Pc.receiving s.pc p (.spin s.takers.length (t.slot (int32 (s.hd + 1))))
    rw [hpc] at htally
    simp only [State.goto, htally, Pc.receiving, Pc.taking, List.length_append, List.length_singleton]
    simp only [Option.isSome_some, Option.isSome_none, if_true, Bool.false_eq_true, if_false]
    omega
  case inorder =>
    obtain ⟨hgot, hlen, _⟩ := h.inorder r fun q hq => hr q <| List.mem_append_left _ hq
    have hpr : p = r := hr p <| List.mem_append_right _ <| List.mem_singleton_self p
    rw [← hpr, hpc] at hlen
    simp only [Pc.taking, Option.isSome_none, Bool.false_eq_true, if_false, Nat.add_zero] at hlen
    refine ⟨hgot, ?_, fun n hn => ?_⟩
    · simp [State.goto, ← hpr, Pc.taking, hlen]
    · simp only [State.goto, ← hpr, Function.update_self, Pc.taking] at hn
      exact (Option.some.inj hn).symm.trans hlen

-- The slot of a receiver's turn has all of the message of that turn, once it has one.
omit [DecidableEq P] in
theorem message {i : Int} (h : Inv t s) (hn : s.takers[n]? = some p) (hi : i = (n % t.tsz : Nat)) (hg : n ∉ s.got.map Prod.fst)
    (hf : s.full i = true) :
    ∃ p' m, s.sent[n]? = some (p', m) ∧ m.length = t.msz ∧ ∀ j < m.length, m[j]? = some (s.data i j) := by
  have hlt := Nat.lt_of_lt_of_le (List.getElem?_eq_some_iff.mp hn).choose h.takers_le
  obtain ⟨⟨p', m⟩, hm⟩ : ∃ x, s.sent[n]? = some x := ⟨_, List.getElem?_eq_getElem hlt⟩
  refine ⟨p', m, hm, h.sizes _ <| List.mem_of_getElem? hm, ?_⟩
  rcases h.written n p' m hm hg with ⟨k, hk⟩ | ⟨_, hdata⟩
  · have hv := h.valid p'
    rw [hk] at hv
    simp only [Pc.Valid] at hv
    rw [hi, hv.right.right.right.left] at hf
    contradiction
  · exact hi ▸ hdata

theorem see (h : Inv t s) (hpc : s.pc p = .spin n i) (hf : s.full i = true) : Inv t (s.goto p (.read n i [])) := by
  have ⟨hn, hi, hg⟩ : Pc.Valid t s p (.spin n i) := hpc ▸ h.valid p
  have ⟨p', m, hm, _⟩ := h.message hn hi hg hf
  exact h.move (c := .read n i []) hpc id rfl ⟨hn, hi, hg, hf, p', m, hm, rfl⟩ rfl rfl

theorem read (h : Inv t s) (hpc : s.pc p = .read n i m) (hlt : m.length < t.msz) :
    Inv t (s.goto p (.read n i (m ++ [s.data i m.length]))) := by
  have ⟨hn, hi, hg, hf, p', m', hm, he⟩ : Pc.Valid t s p (.read n i m) := hpc ▸ h.valid p
  refine h.move (c := .read n i (m ++ [s.data i m.length])) hpc id rfl ⟨hn, hi, hg, hf, p', m', hm, ?_⟩ rfl rfl
  obtain ⟨p'', m'', hm', hlen, hdata⟩ := h.message hn hi hg hf
  cases Option.some.inj (hm.symm.trans hm')
  have hb := hdata m.length (hlen ▸ hlt)
  rw [List.length_append, List.length_singleton, List.take_add_one, hb, ← he]
  rfl

theorem clear (h : Inv t s) (hpc : s.pc p = .read n i m) (hge : ¬m.length < t.msz) :
    Inv t ({ s with full := Function.update s.full i false, got := s.got ++ [(n, m)] }.goto p .uphole) := by
  obtain ⟨hn, hi, hg, hf, q, m', hm, he⟩ : Pc.Valid t s p (.read n i m) := hpc ▸ h.valid p
  have hall : m = m' := by
    have hlen : m'.length = t.msz := h.sizes _ <| List.mem_of_getElem? hm
    rwa [List.take_of_length_le <| show m'.length ≤ m.length by omega] at he
  subst hall
  have hgot {n' : Nat} (hn' : n' ∈ s.got.map Prod.fst) : n' ∈ (s.got ++ [(n, m)]).map Prod.fst := by
    rw [List.map_append]
    exact List.mem_append_left _ hn'
  have hnot {n' : Nat} (hn' : n' ∉ s.got.map Prod.fst) (hne : n' ≠ n) : n' ∉ (s.got ++ [(n, m)]).map Prod.fst := by
    simpa [hne] using hn'
  have hslot {n' : Nat} {x : P × Msg} (hn' : s.sent[n']? = some x) (hg' : n' ∉ s.got.map Prod.fst) (hne : n' ≠ n) :
      ((n' % t.tsz : Nat) : Int) ≠ i := hi ▸ h.slot_ne hm hn' hg hg' (.inl hne)
  refine ⟨h.tl, h.hd, fun p' => ?valid, h.sizes, fun n' hn' => hgot (h.freed n' hn'), fun n' p' m' hn' hg' => ?written,
    fun j hj => ?empty, fun x hx => ?got, fun x hx => ?taken, ?nodup, ?tickets, ?served, fun r hr => ?inorder⟩
  case valid =>
    by_cases hp : p' = p
    case pos =>
      rw [hp]
      simp only [State.goto, Function.update_self, Pc.Valid]
    case neg =>
      have hv := h.valid p'
      have hother {n' : Nat} (hn' : s.takers[n']? = some p') : n' ≠ n := by
        rintro rfl
        exact hp <| Option.some.inj <| hn'.symm.trans hn
      simp only [State.goto, Function.update_of_ne hp]
      cases hc : s.pc p' <;> rw [hc] at hv <;> simp only [Pc.Valid] at hv ⊢ <;> try exact hv
      case write m' n' i' k' =>
        obtain ⟨hn', rfl, hg', hf', hdata'⟩ := hv
        have hne : n' ≠ n := by
          rintro rfl
          rw [← hi, hf] at hf'
          contradiction
        exact ⟨hn', rfl, hnot hg' hne, by rwa [Function.update_of_ne (hslot hn' hg' hne)], hdata'⟩
      case spin => exact ⟨hv.left, hv.right.left, hnot hv.right.right (hother hv.left)⟩
      case read n' i' m' =>
        obtain ⟨hn', rfl, hg', hf', q', m'', hm', he'⟩ := hv
        have hne := hother hn'
        exact ⟨hn', rfl, hnot hg' hne, by rwa [Function.update_of_ne (hslot hm' hg' hne)], q', m'', hm', he'⟩
  case written =>
    have hne : n' ≠ n := by
      rintro rfl
      simp [State.goto] at hg'
    have hold : n' ∉ s.got.map Prod.fst := fun hold => hg' (hgot hold)
    rcases h.written n' p' m' hn' hold with ⟨k, hk⟩ | ⟨hf', hdata⟩
    · have hp : p' ≠ p := fun hp => by rw [hp, hpc] at hk; contradiction
      exact .inl ⟨k, by rw [State.goto, ← hk]; exact Function.update_of_ne hp ..⟩
    · refine .inr ⟨?_, hdata⟩
      rw [State.goto]
      exact (Function.update_of_ne (hslot hn' hold hne) ..).trans hf'
  case empty =>
    by_cases hij : (j : Int) = i
    case pos =>
      rw [hij, State.goto]
      exact Function.update_self ..
    case neg =>
      rw [State.goto]
      refine (Function.update_of_ne hij ..).trans <| h.empty j fun n' hn' he' => ?_
      have := hj n' hn' he'
      rw [State.goto, List.map_append] at this
      rcases List.mem_append.mp this with hold | hnew
      · exact hold
      · have hne : n' = n := List.mem_singleton.mp hnew
        exact absurd (by rw [hi, ← he', hne]) hij
  case got =>
    rcases List.mem_append.mp hx with hx | hx
    · exact h.got x hx
    · obtain rfl := List.mem_singleton.mp hx
      exact ⟨q, hm⟩
  case taken =>
    rcases List.mem_append.mp hx with hx | hx
    · exact h.taken x hx
    · obtain rfl := List.mem_singleton.mp hx
      exact (List.getElem?_eq_some_iff.mp hn).choose
  case nodup =>
    rw [State.goto, List.map_append, List.map_singleton, List.nodup_append_comm]
    exact List.nodup_cons.mpr ⟨hg, h.nodup⟩
  case tickets =>
    have := h.tickets
    have htally := tally_update Pc.pending s.pc p .uphole
    rw [hpc] at htally
    simp only [State.goto, htally, Pc.pending]
    omega
  case served =>
    have := h.served
    have htally := tally_update Pc.receiving s.pc p .uphole
    rw [hpc] at htally
    simp only [State.goto, htally, Pc.receiving, Pc.taking, List.length_append, List.length_singleton]
    simp only [Option.isSome_some, Option.isSome_none, if_true, Bool.false_eq_true, if_false]
    omega
  case inorder =>
    obtain ⟨hrange, hlen, hturn⟩ := h.inorder r hr
    have hpr : p = r := hr p <| List.mem_of_getElem? hn
    rw [← hpr, hpc] at hlen hturn
    have hlast : n = s.got.length := hturn n rfl
    refine ⟨?_, ?_, fun n' hn' => ?_⟩
    · rw [State.goto, List.map_append, hrange, List.length_append, List.length_singleton, List.range_succ, hlast]
      rfl
    · simpa [State.goto, ← hpr, Pc.taking] using hlen
    · simp [State.goto, ← hpr, Pc.taking] at hn'

theorem takehole (h : Inv t s) (hold : s.pc p = .idle ∨ ∃ m nb, s.pc p = .nhole m nb) (hm : m.length = t.msz)
    (hs : s.takehole p m = some s') : Inv t s' := by
  obtain ⟨_, hs⟩ := Option.ite_none_right_eq_some.mp hs
  obtain rfl := Option.some.inj hs
  rcases hold with hold | ⟨_, _, hold⟩
  · exact h.move (c := .tl m) hold id rfl hm rfl rfl
  · exact h.move (c := .tl m) hold id rfl hm rfl rfl

theorem takemsg (h : Inv t s) (hold : s.pc p = .idle ∨ ∃ nb, s.pc p = .nmsg nb) (hs : s.takemsg p = some s') :
    Inv t s' := by
  obtain ⟨hpos, hs⟩ := Option.ite_none_right_eq_some.mp hs
  obtain rfl := Option.some.inj hs
  have hnmsg : ((s.nmsg - 1 : Nat) : Int) + 1 = s.nmsg + 0 := by omega
  rcases hold with hold | ⟨_, hold⟩
  · exact h.move (c := .hd) hold id rfl trivial hnmsg rfl
  · exact h.move (c := .hd) hold id rfl trivial hnmsg rfl

theorem run (h : Inv t s) (hc : Free t s (.run p)) (hs : s.run t p = some s') : Inv t s' := by
  rw [State.run.eq_def] at hs
  rw [Free.eq_def] at hc
  dsimp only at hc
  split at hs
  case h_1 => contradiction
  case h_2 m nb hpc =>
    have hm : m.length = t.msz := by
      have := h.valid p
      rwa [hpc] at this
    rcases (Option.orElse_eq_some ..).mp hs with hs | ⟨_, hs⟩
    · exact h.takehole (.inr ⟨m, nb, hpc⟩) hm hs
    · obtain ⟨_, hs⟩ := Option.ite_none_right_eq_some.mp hs
      obtain rfl := Option.some.inj hs
      exact h.move (c := .idle) hpc id rfl trivial rfl rfl
  case h_3 hpc =>
    obtain rfl := Option.some.inj hs
    rw [hpc] at hc
    exact h.send hpc hc.left hc.right
  case h_4 hpc =>
    split at hs
    case h_1 hb =>
      obtain rfl := Option.some.inj hs
      exact h.write hpc hb
    case h_2 hb =>
      obtain rfl := Option.some.inj hs
      exact h.mark hpc hb
  case h_5 hpc =>
    obtain rfl := Option.some.inj hs
    exact h.move (c := .idle) hpc id rfl trivial rfl rfl
  case h_6 nb hpc =>
    rcases (Option.orElse_eq_some ..).mp hs with hs | ⟨_, hs⟩
    · exact h.takemsg (.inr ⟨nb, hpc⟩) hs
    · obtain ⟨_, hs⟩ := Option.ite_none_right_eq_some.mp hs
      obtain rfl := Option.some.inj hs
      exact h.move (c := .idle) hpc id rfl trivial rfl rfl
  case h_7 hpc =>
    obtain rfl := Option.some.inj hs
    rw [hpc] at hc
    exact h.receive hpc hc
  case h_8 hpc =>
    obtain ⟨hf, hs⟩ := Option.ite_none_right_eq_some.mp hs
    obtain rfl := Option.some.inj hs
    exact h.see hpc hf
  case h_9 hpc =>
    split at hs
    case isTrue hlt =>
      obtain rfl := Option.some.inj hs
      exact h.read hpc hlt
    case isFalse hge =>
      obtain rfl := Option.some.inj hs
      exact h.clear hpc hge
  case h_10 hpc =>
    obtain rfl := Option.some.inj hs
    exact h.move (c := .idle) hpc id rfl trivial rfl rfl

theorem step (h : Inv t s) (hc : Free t s act) (hs : step t s act = some s') : Inv t s' := by
  cases act
  case xsend p m nb =>
    obtain ⟨⟨hpc, hm⟩, hs⟩ := Option.ite_none_right_eq_some.mp hs
    split at hs
    case isTrue => exact h.takehole (.inl hpc) hm hs
    case isFalse =>
      obtain rfl := Option.some.inj hs
      exact h.move (c := .nhole m nb) hpc id rfl hm rfl rfl
  case xrecv p nb =>
    obtain ⟨hpc, hs⟩ := Option.ite_none_right_eq_some.mp hs
    split at hs
    case isTrue => exact h.takemsg (.inl hpc) hs
    case isFalse =>
      obtain rfl := Option.some.inj hs
      exact h.move (c := .nmsg nb) hpc id rfl trivial rfl rfl
  case run p => exact h.run hc hs

omit [DecidableEq P] in
theorem tally_idle {f : P → Pc} (h : ∀ p, f p = .idle) : tally Pc.pending f = 0 ∧ tally Pc.receiving f = 0 :=
  ⟨tally_eq_zero fun p => by rw [h p]; rfl, tally_eq_zero fun p => by rw [h p]; rfl⟩

omit [DecidableEq P] in
theorem created (h : Created t s) : Inv t s where
  tl        := by simp [h.tl, h.sent, int32]
  hd        := by simp [h.hd, h.takers, int32]
  valid p   := by rw [h.pc]; trivial
  sizes     := by simp [h.sent]
  freed     := by simp [h.sent]
  written   := by simp [h.sent]
  empty i _ := h.full i
  got       := by simp [h.got]
  taken     := by simp [h.got]
  nodup     := by simp [h.got]
  tickets   := by simp [h.takers, h.nmsg, h.sent, tally_idle h.pc]
  served    := by simp [h.takers, h.got, tally_idle h.pc]
  inorder r := by simp [h.got, h.takers, h.pc, Pc.taking]

theorem invariant : (machine t).Invariant (Free t) (Inv (P := P) t) where
  init := created
  step := step

end Inv

-- The messages go through the tube.
structure Delivers (t : Tube) (s : State P) : Prop where
  -- Every message that was received was sent, and was received once.
  received : (s.got.map Prod.snd).Subperm (s.sent.map Prod.snd)
  -- A message that was not received is being sent or is in its slot,
  kept     : ∀ n p m, s.sent[n]? = some (p, m) → (n, m) ∈ s.got ∨ (∃ i k, s.pc p = .write m n i k) ∨
    s.full (n % t.tsz : Nat) = true ∧ ∀ j < m.length, m[j]? = some (s.data (n % t.tsz : Nat) j)
  -- and it can be received when no call is under way.
  counted  : (∀ p, s.pc p = .idle) → s.got.length + s.nmsg = s.sent.length
  -- A sender writes where all messages that were there before it were received.
  sender   : ∀ p m n i k, s.pc p = .write m n i k → 0 ≤ i ∧ i < t.tsz ∧
    ∀ n' < n, i = (n' % t.tsz : Nat) → n' ∈ s.got.map Prod.fst
  -- A receiver waits for a slot of the tube,
  waiting  : ∀ p n i, s.pc p = .spin n i → 0 ≤ i ∧ i < t.tsz
  -- and reads where all of its message is.
  receiver : ∀ p n i m, s.pc p = .read n i m → 0 ≤ i ∧ i < t.tsz ∧
    ∃ p' m', s.sent[n]? = some (p', m') ∧ m = m'.take m.length ∧ ∀ j < m'.length, m'[j]? = some (s.data i j)
  -- A receiver that is alone gets the messages in the order of their turns.
  order    : ∀ r, (∀ p ∈ s.takers, p = r) → s.got.map Prod.snd <+: s.sent.map Prod.snd

namespace Inv

omit [Fintype P] [DecidableEq P] in
theorem map_getD_range {l : List Msg} (hk : k ≤ l.length) : (List.range k).map (fun n => l.getD n []) = l.take k := by
  refine List.ext_getElem (by simp [hk]) fun i hi _ => ?_
  have hlt : i < l.length := by
    rw [List.length_map, List.length_range] at hi
    omega
  simp [hlt]

omit [DecidableEq P] in
theorem got_eq_map (h : Inv t s) :
    s.got.map Prod.snd = (s.got.map Prod.fst).map fun n => (s.sent.map Prod.snd).getD n [] := by
  rw [List.map_map]
  refine List.map_congr_left fun x hx => ?_
  have ⟨p, hp⟩ := h.got x hx
  simp [hp]

omit [DecidableEq P] in
theorem received (h : Inv t s) : (s.got.map Prod.snd).Subperm (s.sent.map Prod.snd) := by
  have hsub : s.got.map Prod.fst ⊆ List.range (s.sent.map Prod.snd).length := by
    intro n hn
    obtain ⟨x, hx, rfl⟩ := List.mem_map.mp hn
    have ⟨p, hp⟩ := h.got x hx
    rw [List.mem_range, List.length_map]
    exact (List.getElem?_eq_some_iff.mp hp).choose
  have ⟨l, hperm, hl⟩ := List.subperm_of_subset h.nodup hsub
  have hall := map_getD_range (l := s.sent.map Prod.snd) le_rfl
  rw [List.take_length] at hall
  rw [h.got_eq_map]
  refine ⟨_, hperm.map _, ?_⟩
  have hsub := hl.map fun n => (s.sent.map Prod.snd).getD n []
  rwa [hall] at hsub

omit [DecidableEq P] in
theorem order (h : Inv t s) (hr : ∀ p ∈ s.takers, p = r) : s.got.map Prod.snd <+: s.sent.map Prod.snd := by
  have ⟨hrange, hlen, _⟩ := h.inorder r hr
  have hle : s.got.length ≤ (s.sent.map Prod.snd).length := by
    have := h.takers_le
    rw [List.length_map]
    omega
  rw [h.got_eq_map, hrange, map_getD_range hle]
  exact List.take_prefix ..

omit [DecidableEq P] in
theorem delivers (h : Inv t s) : Delivers t s where
  received := h.received
  kept n p m hn := by
    by_cases hg : n ∈ s.got.map Prod.fst
    case pos =>
      obtain ⟨⟨n', m'⟩, hx, rfl⟩ := List.mem_map.mp hg
      obtain ⟨q, hq⟩ := h.got _ hx
      cases Option.some.inj (hn.symm.trans hq)
      exact .inl hx
    case neg => exact .inr <| (h.written n p m hn hg).imp_left fun ⟨k, hk⟩ => ⟨_, k, hk⟩
  counted hidle := by
    have ⟨hpending, hreceiving⟩ := tally_idle hidle
    have htickets := h.tickets
    have hserved := h.served
    omega
  sender p m n i k hpc := by
    have ⟨hn, hi, _⟩ : Pc.Valid t s p (.write m n i k) := hpc ▸ h.valid p
    refine ⟨by omega, hi ▸ Int.ofNat_lt.mpr (Nat.mod_lt _ t.pos), fun n' hlt hi' => h.freed n' ?_⟩
    have hmod : n % t.tsz = n' % t.tsz := Int.ofNat.inj <| hi.symm.trans hi'
    have hle := Nat.le_of_dvd (by omega) <| Nat.dvd_of_mod_eq_zero <| Nat.sub_mod_eq_zero_of_mod_eq hmod
    have := (List.getElem?_eq_some_iff.mp hn).choose
    omega
  waiting p n i hpc := by
    have ⟨_, hi, _⟩ : Pc.Valid t s p (.spin n i) := hpc ▸ h.valid p
    exact ⟨by omega, hi ▸ Int.ofNat_lt.mpr (Nat.mod_lt _ t.pos)⟩
  receiver p n i m hpc := by
    have ⟨hn, hi, hg, hf, p', m', hm, he⟩ : Pc.Valid t s p (.read n i m) := hpc ▸ h.valid p
    refine ⟨by omega, hi ▸ Int.ofNat_lt.mpr (Nat.mod_lt _ t.pos), p', m', hm, he, ?_⟩
    obtain ⟨p'', m'', hm', _, hdata⟩ := h.message hn hi hg hf
    cases Option.some.inj (hm.symm.trans hm')
    exact hdata
  order r hr := h.order hr

end Inv

theorem tube_delivers (hr : (machine t).Reachable (Free t) s) : Delivers t s :=
  (Inv.invariant.holds hr).delivers

def pair : Tube where
  msz := 2
  tsz := 2
  pos := by decide

def new : State (Fin 3) where
  nhole  := 2
  nmsg   := 0
  hd     := 0
  tl     := 0
  full   := fun _ => false
  data   := fun _ _ => 0
  pc     := fun _ => .idle
  sent   := []
  takers := []
  got    := []

theorem new_created : Created pair new where
  nhole  := rfl
  nmsg   := rfl
  hd     := rfl
  tl     := rfl
  full _ := rfl
  pc _   := rfl
  sent   := rfl
  takers := rfl
  got    := rfl

-- A receiver is slow, so that its slot gets the third message when it has read half of the first.
def slow : List (Act (Fin 3)) :=
  Act.xsend 0 [1, 1] .block :: List.replicate 6 (Act.run 0) ++ Act.xsend 0 [2, 2] .block :: List.replicate 6 (Act.run 0) ++
    Act.xrecv 1 .block :: List.replicate 4 (Act.run 1) ++ Act.xrecv 2 .block :: List.replicate 7 (Act.run 2) ++
    Act.xsend 0 [3, 3] .block :: List.replicate 4 (Act.run 0) ++ List.replicate 2 (Act.run 1)

def mixed : State (Fin 3) :=
  ((machine pair).exec new slow).get (by decide +kernel)

theorem mixed_bytes : (machine pair).Reachable (fun _ _ => True) mixed ∧ ¬Delivers pair mixed := by
  refine ⟨(Machine.Reachable.init new_created).exec (fun _ _ _ => trivial) (Option.some_get _).symm, fun h => ?_⟩
  have hgot : mixed.got = [(1, [2, 2]), (0, [1, 3])] := by decide +kernel
  have hsent : mixed.sent = [(0, [1, 1]), (0, [2, 2]), (0, [3, 3])] := by decide +kernel
  have := h.received
  rw [hgot, hsent] at this
  exact absurd (this.subset <| List.mem_cons_of_mem _ <| List.mem_singleton_self _) (by decide)

theorem tube_delivers_pair : ∃ s : State (Fin 3), s.got = [(0, [1, 1])] ∧ Delivers pair s := by
  have hinit : (machine pair).Reachable (Free pair) _ := .init new_created
  have hsent := ((((((hinit.step (a := Act.xsend 0 [1, 1] .block) (by trivial) rfl).step (a := Act.run 0) (by trivial) rfl).step
    (a := Act.run 0) (by exact ⟨nofun, .inl (by decide)⟩) rfl).step (a := Act.run 0) (by trivial) rfl).step
    (a := Act.run 0) (by trivial) rfl).step (a := Act.run 0) (by trivial) rfl).step (a := Act.run 0) (by trivial) rfl
  have hgot := ((((((hsent.step (a := Act.xrecv 1 .block) (by trivial) rfl).step (a := Act.run 1) (by trivial) rfl).step
    (a := Act.run 1) (by exact .inl (by decide)) rfl).step (a := Act.run 1) (by trivial) rfl).step (a := Act.run 1) (by trivial) rfl).step
    (a := Act.run 1) (by trivial) rfl).step (a := Act.run 1) (by trivial) rfl
  exact ⟨_, rfl, tube_delivers hgot⟩

end Port.Tube
