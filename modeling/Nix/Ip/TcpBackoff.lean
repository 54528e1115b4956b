import Nix.Ip.TcpCongestion

namespace Ip.TcpUpdate

variable {tcb t t' : Tcpctl} {seg : Tcp} {ticks : Int} {env : Nat → Tcpctl.Round} {newstate : State}

namespace Tcpctl

section Interval

theorem backoff_eq {n : UInt8} (h : n.toNat < 31) : Ip.TcpUpdate.backoff n = 2 ^ n.toNat := by
  have hlt : 2 ^ n.toNat < 2 ^ 31 := Nat.pow_lt_pow_right (by decide) h
  rw [Ip.TcpUpdate.backoff, Nat.mod_eq_of_lt (by omega), Nat.one_shiftLeft, int32_eq_self hlt]
  exact Int.natCast_pow 2 n.toNat

theorem interval_bounds (tcb : Tcpctl) : 10 ≤ tcb.interval ∧ tcb.interval ≤ 1280 := by
  have hmin : 500 / MSPTICK = 10 := by decide
  have hmax : 64000 / MSPTICK = 1280 := by decide
  rw [interval, hmin, hmax]
  split
  case isTrue => omega
  case isFalse => split <;> omega

-- The next interval, where the product that it is made of is an `int`.
def Fits (tcb : Tcpctl) : Prop :=
  tcb.backoff.toNat + 1 < 31 ∧ -2 ^ 31 ≤ 2 ^ (tcb.backoff.toNat + 1) * tcb.base ∧
    2 ^ (tcb.backoff.toNat + 1) * tcb.base < 2 ^ 31

instance : Decidable tcb.Fits := inferInstanceAs <| Decidable (_ ∧ _)

theorem interval_le (h : tcb.Fits) (hb : t.backoff = tcb.backoff + 1) (hbase : t.base = tcb.base) :
    tcb.interval ≤ t.interval := by
  obtain ⟨hlt, hlo, hhi⟩ := h
  have hb' : t.backoff.toNat = tcb.backoff.toNat + 1 := by
    rw [hb, UInt8.toNat_add]
    exact Nat.mod_eq_of_lt (by have : (1 : UInt8).toNat = 1 := rfl; omega)
  have hdouble : (2 : Int) ^ (tcb.backoff.toNat + 1) * tcb.base = 2 * (2 ^ tcb.backoff.toNat * tcb.base) := by
    rw [Int.pow_succ, Int.mul_comm (2 ^ tcb.backoff.toNat) 2, Int.mul_assoc]
  obtain ⟨x, hx⟩ : ∃ x, x = 2 ^ tcb.backoff.toNat * tcb.base := ⟨_, rfl⟩
  have hint {n : Int} (hlo : -2 ^ 31 ≤ n) (hhi : n < 2 ^ 31) : int32 n = n := by
    rw [int32, Int.bmod_eq_of_le] <;> omega
  rw [hdouble, ← hx] at hlo hhi
  have ht : int32 (Ip.TcpUpdate.backoff t.backoff * t.base) = 2 * x := by
    rw [backoff_eq (by omega), hb', hbase, hdouble, ← hx, hint hlo hhi]
  have htcb : int32 (Ip.TcpUpdate.backoff tcb.backoff * tcb.base) = x := by
    rw [backoff_eq (by omega), ← hx, hint (by omega) (by omega)]
  have hmin : 500 / MSPTICK = 10 := by decide
  have hmax : 64000 / MSPTICK = 1280 := by decide
  have hle : x.tdiv MSPTICK < 10 ∨ x.tdiv MSPTICK ≤ (2 * x).tdiv MSPTICK := by
    rcases Int.lt_or_le x 0 with hneg | hpos
    · have := Int.tdiv_le_tdiv (a := x) (b := 0) (c := MSPTICK) (by decide) (by omega)
      rw [Int.zero_tdiv] at this
      exact .inl (by omega)
    · exact .inr <| Int.tdiv_le_tdiv (by decide) (by omega)
  rw [interval, interval, ht, htcb, hmin, hmax]
  split
  case isTrue => split <;> [omega; split <;> omega]
  case isFalse => split <;> split <;> [omega; split <;> omega; omega; split <;> omega]

end Interval

-- The connection is at its end.
def Over (tcb : Tcpctl) : Prop :=
  tcb.state = .Closed ∨ tcb.state = .Time_wait

-- What does not bear on the interval.
structure Held (tcb t : Tcpctl) : Prop where
  ended   : tcb.Over → t.Over
  backoff : t.backoff = tcb.backoff
  start   : t.timer.start = tcb.timer.start
  srtt    : t.srtt = tcb.srtt
  mdev    : t.mdev = tcb.mdev

@[refl]
theorem Held.refl (tcb : Tcpctl) : tcb.Held tcb :=
  ⟨id, rfl, rfl, rfl, rfl⟩

theorem Held.trans (h : tcb.Held t) (h' : t.Held t') : tcb.Held t' where
  ended   := h'.ended ∘ h.ended
  backoff := h'.backoff.trans h.backoff
  start   := h'.start.trans h.start
  srtt    := h'.srtt.trans h.srtt
  mdev    := h'.mdev.trans h.mdev

theorem Sent.held (h : tcb.Sent t) : tcb.Held t where
  ended hover := h.state.elim (fun heq => hover.imp heq.trans heq.trans) .inl
  backoff     := h.backoff
  start       := h.start
  srtt        := h.srtt
  mdev        := h.mdev

theorem base_eq (hsrtt : t.srtt = tcb.srtt) (hmdev : t.mdev = tcb.mdev) : t.base = tcb.base := by
  rw [base, base, hsrtt, hmdev]

-- The interval is the one that `tcpsettimer` makes.
def Computed (tcb : Tcpctl) : Prop :=
  tcb.timer.start = tcb.interval

theorem Held.interval (h : tcb.Held t) : t.interval = tcb.interval := by
  rw [Tcpctl.interval, Tcpctl.interval, h.backoff, base_eq h.srtt h.mdev]

theorem Held.computed (h : tcb.Held t) (hc : tcb.Computed) : t.Computed := by
  rw [Computed, h.start, h.interval]
  exact hc

theorem held_dupack (tcb : Tcpctl) (seg : Tcp) (env : Nat → Round) : tcb.Held (tcb.dupack seg env) := by
  rw [dupack]
  split
  case isTrue =>
    dsimp only
    split
    case isTrue =>
      have h := sent_tcprxmit
        { tcb with
          snd := { tcb.snd with dupacks := tcb.snd.dupacks + 1, recovery := true, rxt := tcb.snd.nxt } }.tcpcongestion env
      exact ⟨h.held.ended, h.backoff, h.start, h.srtt, h.mdev⟩
    case isFalse => exact ⟨id, rfl, rfl, rfl, rfl⟩
  case isFalse => rfl

theorem held_update (h : ¬ tcb.Acks seg) (hu : tcb.update seg ticks env = some t) : tcb.Held t := by
  rw [update] at hu
  split at hu
  case isTrue =>
    cases hu
    exact ⟨id, rfl, rfl, rfl, rfl⟩
  case isFalse hle =>
    obtain ⟨huna, -⟩ := dupack_cases tcb seg env
    have hheld := held_dupack tcb seg env
    obtain ⟨u, hu'⟩ : ∃ u, u = tcb.dupack seg env := ⟨_, rfl⟩
    obtain ⟨wnd, wl2, hw⟩ := window_eq u seg
    rw [← hu'] at huna hheld
    rw [← hu', hw] at hu
    dsimp only at hu
    rw [if_neg fun hgt => h ⟨hle, by rwa [huna] at hgt⟩] at hu
    cases hu
    exact ⟨hheld.ended, hheld.backoff, hheld.start, hheld.srtt, hheld.mdev⟩

theorem not_over {state : State} (h : tcb.state = state) (hclosed : state ≠ .Closed) (htime : state ≠ .Time_wait) :
    ¬ tcb.Over
  | .inl hs => hclosed <| h.symm.trans hs
  | .inr hs => htime <| h.symm.trans hs

theorem held_tcpclose (tcb : Tcpctl) (env : Nat → Round) : tcb.Held (tcb.tcpclose env) := by
  have hfinish (newstate : State) (h : ¬ tcb.Over) : tcb.Held (tcpclose.finish tcb env newstate) := by
    obtain ⟨t, ht⟩ : ∃ t, t = tcpsetstate
        { tcb with flgcnt := tcb.flgcnt + 1, snd := { tcb.snd with nxt := tcb.snd.nxt + 1 } } newstate := ⟨_, rfl⟩
    have hheld : tcb.Held t := ht ▸ ⟨fun hover => absurd hover h, rfl, rfl, rfl, rfl⟩
    rw [tcpclose.finish, ← ht]
    exact hheld.trans (sent_tcpoutput ..).held
  rw [tcpclose]
  split
  case h_7 => rfl
  case h_1 | h_2 | h_3 => exact (sent_localclose _).held
  case h_4 hs | h_5 hs | h_6 hs => exact hfinish _ <| not_over hs (by simp) (by simp)

theorem held_tcpkick (tcb : Tcpctl) (env : Nat → Round) : tcb.Held (tcb.tcpkick env) := by
  rw [tcpkick]
  split
  case h_5 => exact (sent_localclose _).held
  all_goals exact (sent_tcpoutput ..).held

theorem held_receive (h : tcb.receive newstate = some t) : (tcb.Over → t.Over) ∧ (t.Over ∨ tcb.Held t) := by
  have htime : (receive.timewait tcb).Over := .inr rfl
  have hmoved (rtt_timer : Tcptimer) (newstate : State) (hno : ¬ tcb.Over) :
      (tcb.Over → (tcpsetstate { tcb with rtt_timer } newstate).Over) ∧
        ((tcpsetstate { tcb with rtt_timer } newstate).Over ∨ tcb.Held (tcpsetstate { tcb with rtt_timer } newstate)) :=
    ⟨fun hover => absurd hover hno, .inr ⟨fun hover => absurd hover hno, rfl, rfl, rfl, rfl⟩⟩
  rw [receive.eq_def] at h
  split at h
  case h_7 hs =>
    obtain ⟨-, h⟩ := Option.ite_none_right_eq_some.mp h
    cases h
    exact hmoved _ _ <| not_over hs (by simp) (by simp)
  case h_8 | h_9 =>
    obtain ⟨-, h⟩ := Option.ite_none_right_eq_some.mp h
    cases h
    exact ⟨fun _ => htime, .inl htime⟩
  case h_10 =>
    cases h
    exact ⟨fun _ => htime, .inl htime⟩
  case h_11 hs =>
    cases h
    exact ⟨fun _ => .inr hs, .inl <| .inr hs⟩
  case h_12 => contradiction
  case h_1 hs | h_2 hs | h_3 hs | h_4 hs | h_5 hs | h_6 hs =>
    cases h
    exact hmoved _ _ <| not_over hs (by simp) (by simp)

end Tcpctl

open Tcpctl

-- Nothing new is acknowledged, and no other connection is made.
def Quiet (tcb : Tcpctl) : Action → Prop
  | .tcpconnect .. | .tcpincoming .. | .tcpsynackrtt .. => False
  | .update seg .. => ¬ tcb.Acks seg
  | _              => True

-- The products of the timeouts are numbers of type `int`.
def Fits (tcb : Tcpctl) : Action → Prop
  | .tcptimeout _ => tcb.Fits
  | _             => True

theorem held_step (hq : Quiet tcb a) (ha : ∀ env, a ≠ .tcptimeout env) (hs : step tcb a = some t) :
    (tcb.Over → t.Over) ∧ (t.Over ∨ tcb.Held t) := by
  have hheld (h : tcb.Held t) : (tcb.Over → t.Over) ∧ (t.Over ∨ tcb.Held t) := ⟨h.ended, .inr h⟩
  cases a
  case tcpconnect => exact absurd hq id
  case tcpincoming => exact absurd hq id
  case tcpsynackrtt => exact absurd hq id
  case tcptimeout env => exact absurd rfl (ha env)
  case procsyn seg =>
    obtain ⟨-, hs⟩ := Option.ite_none_right_eq_some.mp hs
    cases hs
    refine hheld ?_
    rw [procsyn, limitmss]
    exact ⟨id, rfl, rfl, rfl, rfl⟩
  case tcpsetscale rcvscale =>
    obtain ⟨-, hs⟩ := Option.ite_none_right_eq_some.mp hs
    cases hs
    exact hheld ⟨id, rfl, rfl, rfl, rfl⟩
  case update seg ticks env =>
    rw [step] at hs
    exact hheld <| held_update hq hs
  case receive newstate => exact held_receive hs
  case qwrite n =>
    obtain ⟨-, hs⟩ := Option.ite_none_left_eq_some.mp hs
    cases hs
    exact hheld ⟨id, rfl, rfl, rfl, rfl⟩
  case expire =>
    obtain ⟨-, hs⟩ := Option.ite_none_right_eq_some.mp hs
    cases hs
    exact hheld ⟨id, rfl, rfl, rfl, rfl⟩
  all_goals cases hs
  case force => exact hheld ⟨id, rfl, rfl, rfl, rfl⟩
  case tcpoutput env => exact hheld (sent_tcpoutput ..).held
  case tcpkick env => exact hheld <| held_tcpkick ..
  case tcpclose env => exact hheld <| held_tcpclose ..
  case localclose => exact hheld (sent_localclose _).held

namespace Tcpctl

section Bounds

-- A connection stays closed, and an interval that is new is within the bounds.
structure Timed (tcb t : Tcpctl) : Prop where
  state : tcb.state = .Closed → t.state = .Closed
  start : t.timer.start = tcb.timer.start ∨ 10 ≤ t.timer.start ∧ t.timer.start ≤ 1280

theorem Timed.trans (h : tcb.Timed t) (h' : t.Timed t') : tcb.Timed t' where
  state := h'.state ∘ h.state
  start := h'.start.elim (fun hs => hs ▸ h.start) .inr

theorem Sent.timed (h : tcb.Sent t) : tcb.Timed t where
  state hs := h.state.elim (fun heq => heq.trans hs) id
  start    := .inl h.start

def Bounded (tcb : Tcpctl) : Prop :=
  tcb.state ≠ .Closed → 10 ≤ tcb.timer.start ∧ tcb.timer.start ≤ 1280

theorem Bounded.timed (h : tcb.Bounded) (ht : tcb.Timed t) : t.Bounded := by
  intro hno
  have hno' : tcb.state ≠ .Closed := fun hs => hno <| ht.state hs
  exact ht.start.elim (fun heq => heq ▸ h hno') id

theorem timed_started (tcb : Tcpctl) (timer : Tcptimer)
    (h : timer.start = tcb.timer.start ∨ 10 ≤ timer.start ∧ timer.start ≤ 1280) : tcb.Timed { tcb with timer } :=
  ⟨id, h⟩

theorem timed_tcpsettimer (tcb : Tcpctl) : tcb.Timed tcb.tcpsettimer := by
  have h := tcb.interval_bounds
  rw [tcpsettimer]
  obtain ⟨start, hstart⟩ : ∃ start, start = tcb.interval := ⟨_, rfl⟩
  rw [← hstart] at h ⊢
  exact timed_started tcb _ (.inr h)

theorem timed_dupack (tcb : Tcpctl) (seg : Tcp) (env : Nat → Round) : tcb.Timed (tcb.dupack seg env) := by
  rw [dupack]
  split
  case isTrue =>
    dsimp only
    split
    case isTrue =>
      have h := sent_tcprxmit
        { tcb with
          snd := { tcb.snd with dupacks := tcb.snd.dupacks + 1, recovery := true, rxt := tcb.snd.nxt } }.tcpcongestion env
      exact ⟨h.timed.state, h.timed.start⟩
    case isFalse => exact ⟨id, .inl rfl⟩
  case isFalse => exact ⟨id, .inl rfl⟩

theorem timed_roundtrip (tcb : Tcpctl) (seg : Tcp) (ticks : Int) : tcb.Timed (tcb.roundtrip seg ticks) := by
  rw [roundtrip]
  dsimp only
  split
  case isTrue =>
    split
    case isTrue => exact ⟨id, .inl rfl⟩
    case isFalse =>
      split
      all_goals
        refine Timed.trans ?_ <| timed_tcpsettimer _
        exact ⟨id, .inl rfl⟩
  case isFalse => exact ⟨id, .inl rfl⟩

theorem timed_settimers (tcb : Tcpctl) : tcb.Timed tcb.settimers := by
  have hmoved (timer : Tcptimer) (ptr : UInt32) (retran : Bool) (h : timer.start = tcb.timer.start) :
      tcb.Timed { tcb with timer, retran, snd := { tcb.snd with ptr }, backoff := 0, backedoff := 0 } := ⟨id, .inl h⟩
  refine hmoved _ _ _ ?_
  split
  case isTrue => rfl
  case isFalse => exact tcpgo_start _

theorem timed_done (tcb : Tcpctl) (seg : Tcp) (acked : UInt32) (env : Nat → Round) :
    tcb.Timed (tcb.done seg acked env) := by
  have h : tcb.Timed (tcb.qdiscard seg acked) := ⟨id, .inl rfl⟩
  rw [done]
  split
  case isTrue => exact (h.trans (sent_tcprxmit ..).timed).trans <| timed_settimers _
  case isFalse => exact h.trans <| timed_settimers _

theorem timed_clamp (tcb : Tcpctl) : tcb.Timed tcb.clamp := by
  rw [clamp]
  split <;> exact ⟨id, .inl rfl⟩

theorem timed_update (h : tcb.update seg ticks env = some t) : tcb.Timed t := by
  rw [update] at h
  split at h
  case isTrue =>
    cases h
    exact ⟨id, .inl rfl⟩
  case isFalse =>
    have hdup := timed_dupack tcb seg env
    obtain ⟨u, hu⟩ : ∃ u, u = tcb.dupack seg env := ⟨_, rfl⟩
    obtain ⟨wnd, wl2, hw⟩ := window_eq u seg
    rw [← hu] at hdup
    rw [← hu, hw] at h
    dsimp only at h
    split at h
    case isTrue =>
      split at h
      case isTrue =>
        obtain ⟨v, hc, rfl⟩ := Option.map_eq_some_iff.mp h
        obtain ⟨cwind, abcbytes, dupacks, recovery, hv, -⟩ := congestion_some hc
        have huv : u.Timed v := hv ▸ ⟨id, .inl rfl⟩
        exact (((hdup.trans huv).trans <| timed_clamp _).trans <| timed_roundtrip ..).trans <| timed_done ..
      case isFalse =>
        cases h
        refine hdup.trans <| Timed.trans ?_ <| timed_done ..
        exact ⟨id, .inl rfl⟩
    case isFalse =>
      cases h
      exact hdup.trans ⟨id, .inl rfl⟩

theorem timed_tcptimeout (tcb : Tcpctl) (env : Nat → Round) : tcb.Timed (tcb.tcptimeout env) := by
  have hback : tcb.Timed tcb.backingoff := ⟨id, .inl rfl⟩
  rw [tcptimeout]
  split
  case h_1 => exact (sent_localclose _).timed
  case h_2 => exact ⟨id, .inl rfl⟩
  case h_3 =>
    dsimp only
    split
    case isTrue => exact hback.trans (sent_localclose _).timed
    case isFalse =>
      obtain ⟨t, ht⟩ : ∃ t, t = tcb.backingoff.tcpsettimer := ⟨_, rfl⟩
      have h : tcb.Timed t := ht ▸ hback.trans (timed_tcpsettimer _)
      obtain ⟨u, hu⟩ : ∃ u, u = t.tcpcongestion.tcprxmit env := ⟨_, rfl⟩
      have h' : t.tcpcongestion.Timed u := hu ▸ (sent_tcprxmit ..).timed
      rw [startover, ← ht, ← hu]
      exact (h.trans ⟨h'.state, h'.start⟩).trans ⟨id, .inl rfl⟩

theorem timed_tcpclose (tcb : Tcpctl) (env : Nat → Round) : tcb.Timed (tcb.tcpclose env) := by
  have hfinish (newstate : State) (h : tcb.state ≠ .Closed) : tcb.Timed (tcpclose.finish tcb env newstate) := by
    obtain ⟨t, ht⟩ : ∃ t, t = tcpsetstate
        { tcb with flgcnt := tcb.flgcnt + 1, snd := { tcb.snd with nxt := tcb.snd.nxt + 1 } } newstate := ⟨_, rfl⟩
    have htimed : tcb.Timed t := ht ▸ ⟨fun hs => absurd hs h, .inl rfl⟩
    rw [tcpclose.finish, ← ht]
    exact htimed.trans (sent_tcpoutput ..).timed
  rw [tcpclose]
  split
  case h_7 => exact ⟨id, .inl rfl⟩
  case h_1 | h_2 | h_3 => exact (sent_localclose _).timed
  case h_4 hs | h_5 hs | h_6 hs => exact hfinish _ fun h => absurd (hs.symm.trans h) (by simp)

theorem timed_receive (h : tcb.receive newstate = some t) : tcb.Timed t := by
  have hstart : (receive.timewait tcb).timer.start = MSL2 * (1000 / MSPTICK) := tcpgo_start _
  have htime (hno : tcb.state ≠ .Closed) : tcb.Timed (receive.timewait tcb) :=
    ⟨fun hs => absurd hs hno, .inr <| by rw [hstart]; decide⟩
  have hmoved (rtt_timer : Tcptimer) (newstate : State) (hno : tcb.state ≠ .Closed) :
      tcb.Timed (tcpsetstate { tcb with rtt_timer } newstate) := ⟨fun hs => absurd hs hno, .inl rfl⟩
  rw [receive.eq_def] at h
  split at h
  case h_7 hs =>
    obtain ⟨-, h⟩ := Option.ite_none_right_eq_some.mp h
    cases h
    exact hmoved _ _ fun hc => absurd (hs.symm.trans hc) (by simp)
  case h_8 hs | h_9 hs =>
    obtain ⟨-, h⟩ := Option.ite_none_right_eq_some.mp h
    cases h
    exact htime fun hc => absurd (hs.symm.trans hc) (by simp)
  case h_10 hs =>
    cases h
    exact htime fun hc => absurd (hs.symm.trans hc) (by simp)
  case h_11 hs =>
    cases h
    exact timed_started _ _ <| .inl <| tcpgo_start _
  case h_12 => contradiction
  case h_1 hs | h_2 hs | h_3 hs | h_4 hs | h_5 hs | h_6 hs =>
    cases h
    exact hmoved _ _ fun hc => absurd (hs.symm.trans hc) (by simp)

end Bounds

end Tcpctl

theorem bounded_invariant : machine.Invariant (fun _ _ => True) Bounded where
  init {tcb} h := by
    cases h
    exact fun hno => absurd rfl hno
  step {tcb a t} h _ hs := by
    replace hs : step tcb a = some t := hs
    cases a
    case tcpconnect v6 iss mtu scale env =>
      obtain ⟨-, hs⟩ := Option.ite_none_right_eq_some.mp hs
      cases hs
      have hstart : 10 ≤ DEF_RTT.tdiv MSPTICK ∧ DEF_RTT.tdiv MSPTICK ≤ 1280 := by decide
      refine Bounded.timed ?_ (sent_tcpoutput ..).timed
      exact fun _ => hstart
    case tcpincoming iss mss rcvscale sndscale wnd delta =>
      obtain ⟨-, hs⟩ := Option.ite_none_right_eq_some.mp hs
      cases hs
      have hstart : 10 ≤ DEF_RTT.tdiv MSPTICK ∧ DEF_RTT.tdiv MSPTICK ≤ 1280 := by decide
      exact fun _ => hstart
    case procsyn seg =>
      obtain ⟨-, hs⟩ := Option.ite_none_right_eq_some.mp hs
      cases hs
      exact h
    case tcpsynackrtt delta =>
      obtain ⟨-, hs⟩ := Option.ite_none_right_eq_some.mp hs
      cases hs
      exact h
    case tcpsetscale rcvscale =>
      obtain ⟨-, hs⟩ := Option.ite_none_right_eq_some.mp hs
      cases hs
      exact h
    case update seg ticks env =>
      rw [step] at hs
      exact h.timed <| timed_update hs
    case receive newstate => exact h.timed <| timed_receive hs
    case tcpkick env =>
      cases hs
      rw [tcpkick]
      split
      case h_5 => exact h.timed (sent_localclose _).timed
      all_goals exact h.timed (sent_tcpoutput ..).timed
    case qwrite n =>
      obtain ⟨-, hs⟩ := Option.ite_none_left_eq_some.mp hs
      cases hs
      exact h
    case expire =>
      obtain ⟨-, hs⟩ := Option.ite_none_right_eq_some.mp hs
      cases hs
      exact h
    all_goals cases hs
    case force => exact h
    case tcpoutput env => exact h.timed (sent_tcpoutput ..).timed
    case tcpclose env => exact h.timed <| timed_tcpclose tcb env
    case localclose => exact h.timed (sent_localclose _).timed
    case tcptimeout env => exact h.timed <| timed_tcptimeout tcb env

-- A timeout that does not end the connection leaves the interval that belongs to the new factor.
theorem computed_tcptimeout (tcb : Tcpctl) (env : Nat → Tcpctl.Round) :
    (tcb.tcptimeout env).Over ∨ ¬ tcb.Over ∧ (tcb.tcptimeout env).Computed ∧
      (tcb.tcptimeout env).backoff = tcb.backoff + 1 ∧ (tcb.tcptimeout env).base = tcb.base := by
  rw [tcptimeout]
  split
  case h_1 => exact .inl <| .inl rfl
  case h_2 hs => exact .inl <| .inl hs
  case h_3 htime hclosed =>
    dsimp only
    split
    case isTrue => exact .inl <| .inl rfl
    case isFalse =>
      obtain ⟨t, ht⟩ : ∃ t, t = tcb.backingoff.tcpsettimer := ⟨_, rfl⟩
      obtain ⟨start, hstart⟩ : ∃ start, start = tcb.backingoff.interval := ⟨_, rfl⟩
      have hb : t.backoff = tcb.backoff + 1 := by
        rw [ht, tcpsettimer, ← hstart]
        rfl
      have hbase : t.base = tcb.base := by
        rw [ht, tcpsettimer, ← hstart]
        rfl
      have hcomp : t.Computed := by
        have hi : t.interval = tcb.backingoff.interval := by
          rw [interval, interval, hb, hbase]
          rfl
        rw [Computed, hi, ht, tcpsettimer]
      obtain ⟨u, hu⟩ : ∃ u, u = t.tcpcongestion.tcprxmit env := ⟨_, rfl⟩
      have h : t.tcpcongestion.Sent u := hu ▸ sent_tcprxmit ..
      have hheld : t.Held u := ⟨h.held.ended, h.backoff, h.start, h.srtt, h.mdev⟩
      rw [startover, ← ht, ← hu]
      exact .inr ⟨fun hover => hover.elim hclosed htime, hheld.computed hcomp, hheld.backoff.trans hb,
        (base_eq hheld.srtt hheld.mdev).trans hbase⟩

instance : ∀ a, Decidable (Quiet tcb a)
  | .tcpconnect .. | .tcpincoming .. | .tcpsynackrtt .. => inferInstanceAs <| Decidable False
  | .update seg .. => inferInstanceAs <| Decidable (¬ tcb.Acks seg)
  | .procsyn .. | .tcpsetscale .. | .receive .. | .force | .tcpoutput .. | .tcpkick .. | .qwrite .. | .tcpclose ..
  | .localclose | .expire | .tcptimeout .. => inferInstanceAs <| Decidable True

instance : ∀ a, Decidable (Fits tcb a)
  | .tcptimeout _ => inferInstanceAs <| Decidable tcb.Fits
  | .tcpconnect .. | .tcpincoming .. | .tcpsynackrtt .. | .update .. | .procsyn .. | .tcpsetscale .. | .receive ..
  | .force | .tcpoutput .. | .tcpkick .. | .qwrite .. | .tcpclose .. | .localclose | .expire => inferInstanceAs <| Decidable True

instance : Decidable tcb.Over := inferInstanceAs <| Decidable (_ ∨ _)

instance : Decidable tcb.Computed := inferInstanceAs <| Decidable (_ = _)

-- The runs that go on from a state.
def afterwards (tcb : Tcpctl) : Machine Tcpctl Action :=
  { machine with init := (· = tcb) }

theorem computed_invariant (tcb : Tcpctl) (h : tcb.Computed) :
    (afterwards tcb).Invariant (fun t a => Quiet t a ∧ Fits t a)
      fun t => t.Over ∨ t.Computed ∧ tcb.timer.start ≤ t.timer.start where
  init {t} ht := by
    cases ht
    exact .inr ⟨h, Int.le_refl _⟩
  step {t a u} hi hc hs := by
    replace hs : step t a = some u := hs
    by_cases ha : ∃ env, a = .tcptimeout env
    case pos =>
      obtain ⟨env, rfl⟩ := ha
      cases hs
      refine (computed_tcptimeout t env).imp_right fun ⟨hno, hcomp, hb, hbase⟩ => ?_
      obtain ⟨hcomp', hle⟩ := hi.resolve_left hno
      rw [Computed] at hcomp hcomp'
      have := interval_le hc.right hb hbase
      exact ⟨hcomp, by omega⟩
    case neg =>
      obtain ⟨hover, hheld⟩ := held_step hc.left (fun env heq => ha ⟨env, heq⟩) hs
      cases hi
      case inl hi => exact .inl <| hover hi
      case inr hi =>
        refine hheld.imp_right fun hheld => ⟨hheld.computed hi.left, ?_⟩
        rw [hheld.start]
        exact hi.right

-- The interval is always within the bounds. As long as the products are numbers of type `int` it does not fall until
-- something new is acknowledged.
theorem retransmission_interval (hr : machine.Reachable (fun _ _ => True) tcb) :
    (tcb.state ≠ .Closed → 10 ≤ tcb.timer.start ∧ tcb.timer.start ≤ 1280) ∧
    (∀ env, (tcb.tcptimeout env).Over ∨ (tcb.tcptimeout env).Computed) ∧
    (tcb.Computed → ∀ t, (afterwards tcb).Reachable (fun s a => Quiet s a ∧ Fits s a) t → ¬ t.Over →
      t.Computed ∧ tcb.timer.start ≤ t.timer.start ∧ t.timer.start ≤ 1280) := by
  refine ⟨bounded_invariant.holds hr, fun env => ?_, fun hcomp t ht hno => ?_⟩
  · exact (computed_tcptimeout tcb env).imp_right fun h => h.right.left
  · obtain ⟨hcomp', hle⟩ := ((computed_invariant tcb hcomp).holds ht).resolve_left hno
    refine ⟨hcomp', hle, ?_⟩
    rw [hcomp']
    exact t.interval_bounds.right

-- The receiver has no room, and says so whenever it is asked.
def probing : List Action :=
  [.expire, .tcptimeout fun _ => {}, .update { ack := 1, wnd := 0 } 0 fun _ => {}, .tcpoutput fun _ => {}]

def stalled (n : Nat) : List Action :=
  [Action.tcpconnect false 0 1460 0 fun _ => {}, .procsyn { ack := 1, wnd := 0, mss := 1460 },
    .update { ack := 1, wnd := 0, mss := 1460 } 0 fun _ => {}, .tcpsynackrtt 100, .receive .Established, .tcpsetscale 0,
    .tcpoutput fun _ => {}, .qwrite 100, .tcpkick fun _ => {}] ++ (List.replicate n probing).flatten

theorem exists_stalled : ∃ tcb, machine.Reachable (fun _ _ => True) tcb ∧
    decide (tcb.Computed ∧ tcb.timer.start = 1280 ∧
      (((afterwards tcb).guarded fun s a => Quiet s a ∧ Fits s a).exec tcb probing).any (fun t => ¬ t.Over) ∧
      (((afterwards tcb).guarded Quiet).exec tcb (probing ++ [.tcptimeout fun _ => {}])).any fun t =>
        ¬ t.Over ∧ t.srtt = tcb.srtt ∧ t.mdev = tcb.mdev ∧ tcb.backoff < t.backoff ∧ t.timer.start = 10) = true := by
  have hrun : ((machine.guarded fun _ _ => True).exec {} (stalled 20)).any (fun tcb =>
      decide (tcb.Computed ∧ tcb.timer.start = 1280 ∧
        (((afterwards tcb).guarded fun s a => Quiet s a ∧ Fits s a).exec tcb probing).any (fun t => ¬ t.Over) ∧
        (((afterwards tcb).guarded Quiet).exec tcb (probing ++ [.tcptimeout fun _ => {}])).any fun t =>
          ¬ t.Over ∧ t.srtt = tcb.srtt ∧ t.mdev = tcb.mdev ∧ tcb.backoff < t.backoff ∧ t.timer.start = 10)) = true := by
    decide +kernel
  exact Machine.exists_reachable rfl hrun

theorem retransmission_interval_stalled : ∃ tcb t, tcb.timer.start = 1280 ∧ ¬ t.Over ∧
    (afterwards tcb).Reachable (fun s a => Quiet s a ∧ Fits s a) t ∧ t.Computed ∧ t.timer.start = 1280 := by
  obtain ⟨tcb, hr, h⟩ := exists_stalled
  obtain ⟨hcomp, hstart, hrun, -⟩ := of_decide_eq_true h
  obtain ⟨t, ht, hno⟩ := Machine.exists_reachable rfl hrun
  have hno := of_decide_eq_true hno
  obtain ⟨hcomp', hle, hmax⟩ := (retransmission_interval hr).right.right hcomp t ht hno
  exact ⟨tcb, t, hstart, hno, ht, hcomp', by omega⟩

-- The product overflows, and the interval is the shortest one again.
theorem retransmission_interval_falls : ∃ tcb t, machine.Reachable (fun _ _ => True) tcb ∧ tcb.Computed ∧
    (afterwards tcb).Reachable Quiet t ∧ ¬ t.Over ∧ t.srtt = tcb.srtt ∧ t.mdev = tcb.mdev ∧ tcb.backoff < t.backoff ∧
    tcb.timer.start = 1280 ∧ t.timer.start = 10 := by
  obtain ⟨tcb, hr, h⟩ := exists_stalled
  obtain ⟨hcomp, hstart, -, hrun⟩ := of_decide_eq_true h
  obtain ⟨t, ht, hfell⟩ := Machine.exists_reachable rfl hrun
  obtain ⟨hno, hsrtt, hmdev, hb, hstart'⟩ := of_decide_eq_true hfell
  exact ⟨tcb, t, hr, hcomp, ht, hno, hsrtt, hmdev, hb, hstart, hstart'⟩

end Ip.TcpUpdate
