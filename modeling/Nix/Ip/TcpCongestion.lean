import Nix.Ip.TcpUpdate

namespace Ip.TcpUpdate

namespace Tcpctl

variable {tcb t t' : Tcpctl} {seg : Tcp} {ticks : Int} {env : Nat → Round} {ssize acked limit : UInt32}

-- What `tcpoutput` leaves as it was.
structure Sent (tcb t : Tcpctl) : Prop where
  state    : t.state = tcb.state ∨ t.state = .Closed
  una      : t.snd.una = tcb.snd.una
  wnd      : t.snd.wnd = tcb.snd.wnd
  recovery : t.snd.recovery = tcb.snd.recovery
  cwind    : t.cwind = tcb.cwind
  ssthresh : t.ssthresh = tcb.ssthresh
  mss      : t.mss = tcb.mss
  backoff  : t.backoff = tcb.backoff
  start    : t.timer.start = tcb.timer.start
  srtt     : t.srtt = tcb.srtt
  mdev     : t.mdev = tcb.mdev

@[refl]
theorem Sent.refl (tcb : Tcpctl) : tcb.Sent tcb := by
  constructor <;> first | rfl | exact .inl rfl

theorem Sent.trans (h : tcb.Sent t) (h' : t.Sent t') : tcb.Sent t' where
  state    := h'.state.elim (fun hs => hs ▸ h.state) .inr
  una      := h'.una.trans h.una
  wnd      := h'.wnd.trans h.wnd
  recovery := h'.recovery.trans h.recovery
  cwind    := h'.cwind.trans h.cwind
  ssthresh := h'.ssthresh.trans h.ssthresh
  mss      := h'.mss.trans h.mss
  backoff  := h'.backoff.trans h.backoff
  start    := h'.start.trans h.start
  srtt     := h'.srtt.trans h.srtt
  mdev     := h'.mdev.trans h.mdev

@[simp]
theorem tcpgo_start (t : Tcptimer) : t.tcpgo.start = t.start := by
  rw [Tcptimer.tcpgo]
  split <;> rfl

theorem sent_localclose (tcb : Tcpctl) : tcb.Sent tcb.localclose := by
  constructor <;> first | rfl | exact .inr rfl

theorem sent_moved (tcb : Tcpctl) (force : Bool) (ptr nxt : UInt32) :
    tcb.Sent { tcb with force, snd := { tcb.snd with ptr, nxt } } := by
  constructor <;> first | rfl | exact .inl rfl

theorem sent_tcpgo (tcb : Tcpctl) (ssize : UInt32) : tcb.Sent (tcb.tcpgo ssize) := by
  rw [tcpgo]
  split
  case isTrue => rfl
  case isFalse =>
    split <;> dsimp only <;> split <;> constructor <;> first | rfl | exact .inl rfl | exact tcpgo_start _

theorem sent_send (tcb : Tcpctl) (r : Round) (ssize : UInt32) : tcb.Sent (tcb.send r ssize).fst := by
  rw [send]
  split
  case isTrue =>
    dsimp only
    split
    case isTrue => exact (sent_moved ..).trans <| sent_tcpgo ..
    case isFalse => exact ((sent_moved ..).trans <| sent_tcpgo ..).trans <| sent_localclose _
  case isFalse => exact sent_moved ..

theorem sent_round (tcb : Tcpctl) (r : Round) : tcb.Sent (tcb.round r).fst := by
  rw [round]
  split
  case isTrue => rfl
  case isFalse =>
    split
    case isTrue => rfl
    case isFalse =>
      obtain ⟨t, ht⟩ : ∃ t, t = if r.opened then { tcb with force := true } else tcb := ⟨_, rfl⟩
      have h : tcb.Sent t := by
        rw [ht]
        split <;> constructor <;> first | rfl | exact .inl rfl
      rw [← ht]
      dsimp only
      split
      case h_1 => exact h
      case h_2 =>
        split
        case isTrue => exact h
        case isFalse => exact h.trans <| sent_send ..

theorem sent_rounds (tcb : Tcpctl) (env : Nat → Round) (n : Nat) : tcb.Sent (tcb.rounds env n) := by
  induction n generalizing tcb env
  case zero => rfl
  case succ n hi =>
    have h := sent_round tcb (env 0)
    rw [rounds]
    split
    case h_1 heq =>
      rw [heq] at h
      exact h.trans <| hi ..
    case h_2 heq =>
      rw [heq] at h
      exact h

theorem sent_tcpoutput (tcb : Tcpctl) (env : Nat → Round) : tcb.Sent (tcb.tcpoutput env) :=
  sent_rounds ..

theorem sent_tcprxmit (tcb : Tcpctl) (env : Nat → Round) : tcb.Sent (tcb.tcprxmit env) := by
  have h := sent_tcpoutput
    { tcb with
      retran := true
      force  := true
      snd    := { tcb.snd with ptr := tcb.snd.una }
      cwind  := tcb.mss.toUInt32 } env
  exact
    { state := h.state, una := h.una, wnd := h.wnd, recovery := h.recovery, cwind := rfl, ssthresh := h.ssthresh
      mss := h.mss, backoff := h.backoff, start := h.start, srtt := h.srtt, mdev := h.mdev }

-- A new threshold allows two segments.
structure Threshold (tcb t : Tcpctl) : Prop where
  mss      : t.mss = tcb.mss
  ssthresh : t.ssthresh = tcb.ssthresh ∨ 2 * tcb.mss.toNat ≤ t.ssthresh.toNat

@[refl]
theorem Threshold.refl (tcb : Tcpctl) : tcb.Threshold tcb where
  mss      := rfl
  ssthresh := .inl rfl

theorem Threshold.trans (h : tcb.Threshold t) (h' : t.Threshold t') : tcb.Threshold t' where
  mss      := h'.mss.trans h.mss
  ssthresh := h'.ssthresh.elim (fun hs => hs ▸ h.ssthresh) fun hs => .inr <| h.mss ▸ hs

theorem Sent.threshold (h : tcb.Sent t) : tcb.Threshold t where
  mss      := h.mss
  ssthresh := .inl h.ssthresh

theorem two_mss (mss : UInt16) : (2 * mss.toUInt32).toNat = 2 * mss.toNat := by
  have h := mss.toNat_lt
  rw [UInt32.toNat_mul, UInt16.toNat_toUInt32]
  exact Nat.mod_eq_of_lt (by simp; omega)

theorem tcpcongestion_ssthresh (tcb : Tcpctl) : 2 * tcb.mss.toNat ≤ tcb.tcpcongestion.ssthresh.toNat := by
  obtain ⟨inflight, h⟩ : ∃ inflight, tcb.tcpcongestion.ssthresh =
      if inflight / 2 < 2 * tcb.mss.toUInt32 then 2 * tcb.mss.toUInt32 else inflight / 2 := ⟨_, rfl⟩
  rw [h, ← two_mss]
  split
  case isTrue => exact Nat.le_refl _
  case isFalse h => exact UInt32.le_iff_toNat_le.mp <| UInt32.not_lt.mp h

theorem dupack_cases (tcb : Tcpctl) (seg : Tcp) (env : Nat → Round) :
    (tcb.dupack seg env).snd.una = tcb.snd.una ∧ (tcb.dupack seg env).snd.wnd = tcb.snd.wnd ∧
      tcb.Threshold (tcb.dupack seg env) ∧
        ((tcb.dupack seg env).snd.recovery = tcb.snd.recovery ∨
          2 * tcb.mss.toNat ≤ (tcb.dupack seg env).ssthresh.toNat) := by
  rw [dupack]
  split
  case isTrue =>
    dsimp only
    split
    case isTrue =>
      have h := sent_tcprxmit
        { tcb with
          snd := { tcb.snd with dupacks := tcb.snd.dupacks + 1, recovery := true, rxt := tcb.snd.nxt } }.tcpcongestion env
      have hle := tcpcongestion_ssthresh
        { tcb with
          snd := { tcb.snd with dupacks := tcb.snd.dupacks + 1, recovery := true, rxt := tcb.snd.nxt } }
      rw [← h.ssthresh] at hle
      exact ⟨h.una, h.wnd, ⟨h.mss, .inr hle⟩, .inr hle⟩
    case isFalse => exact ⟨rfl, rfl, ⟨rfl, .inl rfl⟩, .inl rfl⟩
  case isFalse => exact ⟨rfl, rfl, .refl _, .inl rfl⟩

theorem dupack_eq (h : seq_gt seg.ack tcb.snd.una) (env : Nat → Round) : tcb.dupack seg env = tcb := by
  rw [dupack, if_neg]
  rintro ⟨heq, -⟩
  rw [heq, seq_gt, UInt32.sub_self] at h
  exact absurd h (by decide)

theorem window_eq (tcb : Tcpctl) (seg : Tcp) :
    ∃ wnd wl2, tcb.window seg = { tcb with snd := { tcb.snd with wnd, wl2 } } := by
  rw [window]
  split
  case isTrue => exact ⟨_, _, rfl⟩
  case isFalse => exact ⟨tcb.snd.wnd, tcb.snd.wl2, rfl⟩

section Congestion

theorem tcpabcincr_some (h : tcb.tcpabcincr acked limit = some t) :
    ∃ cwind abcbytes, t = { tcb with cwind, abcbytes } := by
  rw [tcpabcincr] at h
  split at h
  case isTrue =>
    split at h
    case isTrue => contradiction
    case isFalse =>
      cases h
      exact ⟨_, _, rfl⟩
  case isFalse =>
    cases h
    exact ⟨tcb.cwind, _, rfl⟩

theorem exists_tcpabcincr (tcb : Tcpctl) (acked : UInt32) (h : limit ≠ 0) : ∃ t, tcb.tcpabcincr acked limit = some t := by
  rw [tcpabcincr]
  rw [if_neg h]
  split <;> exact ⟨_, rfl⟩

theorem congestion_some (h : tcb.congestion seg acked = some t) :
    ∃ cwind abcbytes dupacks recovery,
      t = { tcb with cwind, abcbytes, snd := { tcb.snd with dupacks, recovery } } ∧ (recovery → tcb.snd.recovery) := by
  rw [congestion] at h
  split at h
  case isTrue hrec =>
    split at h <;> cases h
    case isTrue => exact ⟨_, tcb.abcbytes, _, _, rfl, fun _ => hrec⟩
    case isFalse => exact ⟨_, tcb.abcbytes, tcb.snd.dupacks, tcb.snd.recovery, rfl, id⟩
  case isFalse =>
    dsimp only at h
    split at h
    all_goals
      obtain ⟨cwind, abcbytes, rfl⟩ := tcpabcincr_some h
      exact ⟨cwind, abcbytes, 0, tcb.snd.recovery, rfl, id⟩

theorem congestion_partial (h : tcb.snd.recovery) (h' : seq_ge seg.ack tcb.snd.rxt = false) :
    tcb.congestion seg acked = some { tcb with cwind := tcb.cwind - acked + tcb.mss.toUInt32 } := by
  rw [congestion, if_pos h, if_neg (by rw [h']; decide)]

theorem exists_congestion (tcb : Tcpctl) (seg : Tcp) (acked : UInt32) (hmss : tcb.mss ≠ 0) (hs : tcb.ssthresh ≠ 0) :
    ∃ t, tcb.congestion seg acked = some t := by
  rw [congestion]
  split
  case isTrue => split <;> exact ⟨_, rfl⟩
  case isFalse =>
    dsimp only
    split
    case isTrue =>
      refine exists_tcpabcincr _ _ fun h => hmss <| UInt16.toNat_inj.mp ?_
      have h₂ := two_mss tcb.mss
      rw [h] at h₂
      rw [UInt16.toNat_zero]
      have : (0 : UInt32).toNat = 0 := rfl
      omega
    case isFalse hle =>
      refine exists_tcpabcincr _ _ fun h => hs <| UInt32.toNat_inj.mp ?_
      have hle := UInt32.le_iff_toNat_le.mp <| UInt32.not_lt.mp hle
      rw [h] at hle
      exact Nat.le_zero.mp hle

end Congestion

-- What the rest of `update` does after an acknowledgement was seen to be for new data.
structure After (tcb t : Tcpctl) : Prop where
  mss      : t.mss = tcb.mss
  ssthresh : t.ssthresh = tcb.ssthresh
  recovery : t.snd.recovery = tcb.snd.recovery
  cwind    : t.cwind ≤ tcb.cwind

theorem After.trans (h : tcb.After t) (h' : t.After t') : tcb.After t' where
  mss      := h'.mss.trans h.mss
  ssthresh := h'.ssthresh.trans h.ssthresh
  recovery := h'.recovery.trans h.recovery
  cwind    := UInt32.le_trans h'.cwind h.cwind

theorem after_clamp (tcb : Tcpctl) : tcb.After tcb.clamp := by
  rw [clamp]
  split
  case isTrue h => exact ⟨rfl, rfl, rfl, UInt32.le_of_lt h⟩
  case isFalse => exact ⟨rfl, rfl, rfl, UInt32.le_refl _⟩

theorem after_roundtrip (tcb : Tcpctl) (seg : Tcp) (ticks : Int) : tcb.After (tcb.roundtrip seg ticks) := by
  have h : ∀ t, t.mss = tcb.mss ∧ t.ssthresh = tcb.ssthresh ∧ t.snd = tcb.snd ∧ t.cwind = tcb.cwind → tcb.After t :=
    fun t ⟨hmss, hs, hsnd, hc⟩ => ⟨hmss, hs, hsnd ▸ rfl, hc ▸ UInt32.le_refl _⟩
  rw [roundtrip]
  dsimp only
  split
  case isTrue =>
    split
    case isTrue => exact h _ ⟨rfl, rfl, rfl, rfl⟩
    case isFalse => split <;> exact h _ ⟨rfl, rfl, rfl, rfl⟩
  case isFalse => exact h _ ⟨rfl, rfl, rfl, rfl⟩

theorem after_moved (tcb : Tcpctl) (timer : Tcptimer) (ptr : UInt32) (retran : Bool) :
    tcb.After { tcb with timer, retran, snd := { tcb.snd with ptr }, backoff := 0, backedoff := 0 } :=
  ⟨rfl, rfl, rfl, UInt32.le_refl _⟩

theorem after_tcprxmit (tcb : Tcpctl) (env : Nat → Round) : tcb.After (tcb.tcprxmit env) := by
  have h := sent_tcprxmit tcb env
  exact ⟨h.mss, h.ssthresh, h.recovery, h.cwind ▸ UInt32.le_refl _⟩

theorem after_done (tcb : Tcpctl) (seg : Tcp) (acked : UInt32) (env : Nat → Round) :
    tcb.After (tcb.done seg acked env) := by
  have h : tcb.After (tcb.qdiscard seg acked) := ⟨rfl, rfl, rfl, UInt32.le_refl _⟩
  have h' (t : Tcpctl) : t.After t.settimers := after_moved ..
  rw [done]
  split
  case isTrue => exact (h.trans <| after_tcprxmit ..).trans <| h' _
  case isFalse => exact h.trans <| h' _

theorem after_end (tcb : Tcpctl) (seg : Tcp) (ticks : Int) (acked : UInt32) (env : Nat → Round) :
    tcb.After ((tcb.clamp.roundtrip seg ticks).done seg acked env) :=
  ((after_clamp tcb).trans <| after_roundtrip ..).trans <| after_done ..

section Update

theorem update_acks (h : tcb.Acks seg) (ticks : Int) (env : Nat → Round) :
    ∃ wnd wl2, tcb.update seg ticks env =
      let t : Tcpctl := { tcb with snd := { tcb.snd with wnd, wl2 } }
      if tcb.synack then
        (t.congestion seg (seg.ack - tcb.snd.una)).map fun u =>
          (u.clamp.roundtrip seg ticks).done seg (seg.ack - tcb.snd.una) env
      else
        some <| done { t with synack := true, flgcnt := tcb.flgcnt - 1 } seg (seg.ack - tcb.snd.una - 1) env := by
  obtain ⟨wnd, wl2, hw⟩ := window_eq tcb seg
  refine ⟨wnd, wl2, ?_⟩
  rw [update, if_neg h.left, dupack_eq h.right, hw]
  exact if_pos h.right

theorem update_other (h : ¬ tcb.Acks seg) (ticks : Int) (env : Nat → Round) :
    ∃ t, tcb.update seg ticks env = some t ∧
      tcb.Threshold t ∧ (t.snd.recovery → tcb.snd.recovery ∨ 2 * tcb.mss.toNat ≤ t.ssthresh.toNat) := by
  rw [update]
  split
  case isTrue => exact ⟨_, rfl, ⟨rfl, .inl rfl⟩, .inl⟩
  case isFalse hle =>
    obtain ⟨huna, -, hth, hrec⟩ := dupack_cases tcb seg env
    obtain ⟨u, hu⟩ : ∃ u, u = tcb.dupack seg env := ⟨_, rfl⟩
    obtain ⟨wnd, wl2, hw⟩ := window_eq u seg
    rw [← hu] at huna hth hrec
    rw [← hu, hw]
    dsimp only
    rw [if_neg fun hgt => h ⟨hle, by rwa [huna] at hgt⟩]
    refine ⟨_, rfl, ⟨hth.mss, hth.ssthresh⟩, fun hr => ?_⟩
    refine hrec.imp (fun heq => ?_) id
    rwa [← heq]

theorem exists_update (tcb : Tcpctl) (seg : Tcp) (ticks : Int) (env : Nat → Round) (hmss : tcb.mss ≠ 0)
    (hs : tcb.ssthresh ≠ 0) : ∃ t, tcb.update seg ticks env = some t := by
  by_cases h : tcb.Acks seg
  case pos =>
    obtain ⟨wnd, wl2, hu⟩ := update_acks h ticks env
    obtain ⟨t, ht⟩ := exists_congestion { tcb with snd := { tcb.snd with wnd, wl2 } } seg (seg.ack - tcb.snd.una) hmss hs
    rw [hu]
    dsimp only
    split
    case isTrue => exact ⟨_, congrArg (Option.map _) ht⟩
    case isFalse => exact ⟨_, rfl⟩
  case neg =>
    obtain ⟨t, ht, -⟩ := update_other h ticks env
    exact ⟨t, ht⟩

theorem threshold_update (h : tcb.update seg ticks env = some t) :
    tcb.Threshold t ∧ (t.snd.recovery → tcb.snd.recovery ∨ 2 * tcb.mss.toNat ≤ t.ssthresh.toNat) := by
  by_cases ha : tcb.Acks seg
  case pos =>
    obtain ⟨wnd, wl2, hu⟩ := update_acks ha ticks env
    rw [hu] at h
    dsimp only at h
    split at h
    case isTrue =>
      obtain ⟨u, hc, rfl⟩ := Option.map_eq_some_iff.mp h
      obtain ⟨cwind, abcbytes, dupacks, recovery, hu', hrec⟩ := congestion_some hc
      have hafter := after_end u seg ticks (seg.ack - tcb.snd.una) env
      rw [hu'] at hafter ⊢
      refine ⟨⟨hafter.mss, .inl hafter.ssthresh⟩, fun hr => .inl <| hrec ?_⟩
      rwa [hafter.recovery] at hr
    case isFalse =>
      cases h
      have hafter := after_done
        { tcb with snd := { tcb.snd with wnd, wl2 }, synack := true, flgcnt := tcb.flgcnt - 1 } seg
        (seg.ack - tcb.snd.una - 1) env
      refine ⟨⟨hafter.mss, .inl hafter.ssthresh⟩, fun hr => .inl ?_⟩
      rwa [hafter.recovery] at hr
  case neg =>
    obtain ⟨u, hu, hth⟩ := update_other ha ticks env
    cases hu.symm.trans h
    exact hth

-- An acknowledgement of some of the data that was in flight when the recovery began.
def Partial (tcb : Tcpctl) (seg : Tcp) : Prop :=
  tcb.Acks seg ∧ tcb.synack ∧ tcb.snd.recovery ∧ seq_ge seg.ack tcb.snd.rxt = false

instance : Decidable (tcb.Partial seg) := inferInstanceAs <| Decidable (_ ∧ _)

theorem update_partial (h : tcb.Partial seg) (hu : tcb.update seg ticks env = some t) :
    t.cwind ≤ tcb.cwind - (seg.ack - tcb.snd.una) + tcb.mss.toUInt32 := by
  obtain ⟨ha, hsyn, hrec, hge⟩ := h
  obtain ⟨wnd, wl2, hupd⟩ := update_acks ha ticks env
  dsimp only at hupd
  rw [hupd, if_pos hsyn, congestion_partial (by exact hrec) (by exact hge)] at hu
  cases hu
  exact (after_end ..).cwind

end Update

section Threshold

-- The congestion window has something to be compared with.
def Opened (tcb : Tcpctl) : Prop :=
  tcb.mss ≠ 0 → tcb.ssthresh ≠ 0

theorem Opened.threshold (h : tcb.Opened) (ht : tcb.Threshold t) : t.Opened := by
  intro hmss hs
  have hmss' : tcb.mss ≠ 0 := ht.mss ▸ hmss
  cases ht.ssthresh
  case inl heq => exact h hmss' <| heq ▸ hs
  case inr hle =>
    refine hmss' <| UInt16.toNat_inj.mp ?_
    rw [hs] at hle
    have : (0 : UInt32).toNat = 0 := rfl
    have : (0 : UInt16).toNat = 0 := rfl
    omega

theorem scaled_ne_zero (n : UInt32) : QMAX <<< n ≠ 0 := by
  intro h
  have hshift : ∀ k < 32, 65535 <<< k % 2 ^ 32 ≠ 0 := by decide
  refine hshift (n.toNat % 32) (Nat.mod_lt _ (by decide)) ?_
  rw [← UInt32.toNat_inj, UInt32.toNat_shiftLeft] at h
  exact h

theorem opened_tcpsetscale (tcb : Tcpctl) (rcvscale sndscale : UInt16) : (tcb.tcpsetscale rcvscale sndscale).Opened := by
  intro _
  rw [tcpsetscale]
  dsimp only
  split
  case isTrue => exact scaled_ne_zero _
  case isFalse => decide

theorem Opened.limitmss (h : tcb.Opened) (mss : UInt16) : (tcb.limitmss mss).Opened := by
  rw [Tcpctl.limitmss]
  split
  case isTrue hlt =>
    refine fun _ => h fun hz => ?_
    have hlt := hlt.right
    rw [hz] at hlt
    exact absurd hlt (UInt16.not_lt_zero)
  case isFalse => exact h

theorem tcpsettimer_eq (tcb : Tcpctl) : ∃ start, tcb.tcpsettimer = { tcb with timer := { tcb.timer with start } } :=
  ⟨_, rfl⟩

theorem threshold_startover (tcb : Tcpctl) (env : Nat → Round) :
    tcb.Threshold (tcb.startover env) ∧ 2 * tcb.mss.toNat ≤ (tcb.startover env).ssthresh.toNat := by
  obtain ⟨start, hstart⟩ := tcpsettimer_eq tcb
  obtain ⟨u, hu⟩ : ∃ u, u = ({ tcb with timer := { tcb.timer with start } } : Tcpctl) := ⟨_, rfl⟩
  have hmss : u.mss = tcb.mss := hu ▸ rfl
  obtain ⟨t, ht⟩ : ∃ t, t = u.tcpcongestion.tcprxmit env := ⟨_, rfl⟩
  have h : u.tcpcongestion.Sent t := ht ▸ sent_tcprxmit ..
  have hle : 2 * tcb.mss.toNat ≤ t.ssthresh.toNat := by
    rw [h.ssthresh, ← hmss]
    exact u.tcpcongestion_ssthresh
  rw [startover, hstart, ← hu, ← ht]
  exact ⟨⟨h.mss.trans hmss, .inr hle⟩, hle⟩

theorem threshold_tcptimeout (tcb : Tcpctl) (env : Nat → Round) :
    tcb.Threshold (tcb.tcptimeout env) ∧
      ((tcb.tcptimeout env).state = .Closed ∨ 2 * tcb.mss.toNat ≤ (tcb.tcptimeout env).ssthresh.toNat) := by
  have hback : tcb.Threshold tcb.backingoff := ⟨rfl, .inl rfl⟩
  rw [tcptimeout]
  split
  case h_1 => exact ⟨(sent_localclose _).threshold, .inl rfl⟩
  case h_2 hstate => exact ⟨.refl _, .inl hstate⟩
  case h_3 =>
    dsimp only
    split
    case isTrue => exact ⟨hback.trans (sent_localclose _).threshold, .inl rfl⟩
    case isFalse =>
      obtain ⟨hth, hle⟩ := threshold_startover tcb.backingoff env
      exact ⟨hback.trans hth, .inr hle⟩

theorem opened_tcpclose (h : tcb.Opened) (env : Nat → Round) : (tcb.tcpclose env).Opened := by
  have hfinish (newstate : State) : tcb.Threshold (tcpclose.finish tcb env newstate) := by
    obtain ⟨t, ht⟩ : ∃ t, t = tcpsetstate
        { tcb with flgcnt := tcb.flgcnt + 1, snd := { tcb.snd with nxt := tcb.snd.nxt + 1 } } newstate := ⟨_, rfl⟩
    have h : tcb.Threshold t := ht ▸ ⟨rfl, .inl rfl⟩
    rw [tcpclose.finish, ← ht]
    exact h.trans (sent_tcpoutput ..).threshold
  rw [tcpclose]
  split
  case h_7 => exact h
  all_goals first | exact h.threshold (sent_localclose _).threshold | exact h.threshold <| hfinish _

theorem opened_receive (h : tcb.Opened) (hr : tcb.receive newstate = some t) : t.Opened := by
  rw [receive.eq_def] at hr
  split at hr
  case h_7 | h_8 | h_9 =>
    obtain ⟨-, hr⟩ := Option.ite_none_right_eq_some.mp hr
    cases hr
    exact h
  all_goals first | contradiction | (cases hr; exact h)

end Threshold

end Tcpctl

open Tcpctl

theorem opened_invariant : machine.Invariant (fun _ _ => True) Opened where
  init {tcb} h := by
    cases h
    exact fun hmss => absurd rfl hmss
  step {tcb a t} h _ hs := by
    replace hs : step tcb a = some t := hs
    cases a
    case tcpconnect v6 iss mtu scale env =>
      obtain ⟨-, hs⟩ := Option.ite_none_right_eq_some.mp hs
      cases hs
      refine Opened.threshold ?_ (sent_tcpoutput ..).threshold
      have hmax : QMAX ≠ 0 := by decide
      exact fun _ => hmax
    case tcpincoming iss mss rcvscale sndscale wnd delta =>
      obtain ⟨-, hs⟩ := Option.ite_none_right_eq_some.mp hs
      cases hs
      exact opened_tcpsetscale _ rcvscale sndscale
    case procsyn seg =>
      obtain ⟨-, hs⟩ := Option.ite_none_right_eq_some.mp hs
      cases hs
      exact Opened.limitmss h seg.mss
    case tcpsynackrtt delta =>
      obtain ⟨-, hs⟩ := Option.ite_none_right_eq_some.mp hs
      cases hs
      exact h
    case tcpsetscale rcvscale =>
      obtain ⟨-, hs⟩ := Option.ite_none_right_eq_some.mp hs
      cases hs
      exact opened_tcpsetscale tcb rcvscale tcb.scale
    case update seg ticks env =>
      rw [step] at hs
      exact h.threshold (threshold_update hs).left
    case receive newstate => exact opened_receive h hs
    case tcpkick env =>
      cases hs
      rw [tcpkick]
      split
      case h_5 => exact h.threshold (sent_localclose _).threshold
      all_goals exact h.threshold (sent_tcpoutput ..).threshold
    case qwrite n =>
      obtain ⟨-, hs⟩ := Option.ite_none_left_eq_some.mp hs
      cases hs
      exact h
    case tcpclose env =>
      cases hs
      exact opened_tcpclose h env
    case expire =>
      obtain ⟨-, hs⟩ := Option.ite_none_right_eq_some.mp hs
      cases hs
      exact h
    all_goals cases hs
    case force => exact h
    case tcpoutput env => exact h.threshold (sent_tcpoutput ..).threshold
    case localclose => exact h
    case tcptimeout env => exact h.threshold (threshold_tcptimeout tcb env).left

-- What the arithmetic of the congestion window does with an acknowledgement that is right.
structure Tcpctl.Sound (tcb : Tcpctl) (seg : Tcp) (ticks : Int) (env : Nat → Round) : Prop where
  -- there is no division by zero
  divides : ∃ t, tcb.update seg ticks env = some t
  -- the subtraction is the one of the numbers
  wraps   : tcb.Partial seg → ((tcb.cwind - (seg.ack - tcb.snd.una)).toNat : Int) =
    tcb.cwind.toNat - (seg.ack - tcb.snd.una).toNat
  grows   : tcb.Partial seg → ∀ t, tcb.update seg ticks env = some t → t.cwind.toNat ≤ tcb.cwind.toNat + tcb.mss.toNat
  halves  : 2 * tcb.mss.toNat ≤ tcb.tcpcongestion.ssthresh.toNat
  begins  : ∀ t, tcb.update seg ticks env = some t → t.snd.recovery → ¬ tcb.snd.recovery →
    2 * tcb.mss.toNat ≤ t.ssthresh.toNat
  timeout : (tcb.tcptimeout env).state = .Closed ∨ 2 * tcb.mss.toNat ≤ (tcb.tcptimeout env).ssthresh.toNat

-- An acknowledgement in a recovery for more than the congestion window is the one that is not dealt with.
theorem congestion_window (hr : machine.Reachable (fun _ _ => True) tcb) (hmss : tcb.mss ≠ 0) (seg : Tcp) (ticks : Int)
    (env : Nat → Round) :
    tcb.Sound seg ticks env ↔ ¬ (tcb.Partial seg ∧ tcb.cwind < seg.ack - tcb.snd.una) := by
  have hc := tcb.cwind.toNat_lt
  have hacked := (seg.ack - tcb.snd.una).toNat_lt
  constructor
  · rintro h ⟨hp, hlt⟩
    have hwraps := h.wraps hp
    have := UInt32.lt_iff_toNat_lt.mp hlt
    omega
  · intro h
    have hsub (hp : tcb.Partial seg) :
        (tcb.cwind - (seg.ack - tcb.snd.una)).toNat = tcb.cwind.toNat - (seg.ack - tcb.snd.una).toNat :=
      UInt32.toNat_sub_of_le _ _ <| UInt32.not_lt.mp fun hlt => h ⟨hp, hlt⟩
    have hle (hp : tcb.Partial seg) : (seg.ack - tcb.snd.una).toNat ≤ tcb.cwind.toNat :=
      UInt32.le_iff_toNat_le.mp <| UInt32.not_lt.mp fun hlt => h ⟨hp, hlt⟩
    exact
      { divides := exists_update tcb seg ticks env hmss <| opened_invariant.holds hr hmss
        wraps   := fun hp => by
          have := hsub hp
          have := hle hp
          omega
        grows   := fun hp t hu => by
          have hcwind := UInt32.le_iff_toNat_le.mp <| update_partial hp hu
          rw [UInt32.toNat_add, UInt16.toNat_toUInt32, hsub hp] at hcwind
          have hmod := Nat.mod_le (tcb.cwind.toNat - (seg.ack - tcb.snd.una).toNat + tcb.mss.toNat) (2 ^ 32)
          omega
        halves  := tcb.tcpcongestion_ssthresh
        begins  := fun t hu hrec hno => ((threshold_update hu).right hrec).resolve_left hno
        timeout := (threshold_tcptimeout tcb env).right }

-- Four segments are in flight, the first of which is lost, and the next two may be sent for the acknowledgements that
-- the others bring.
def lossy : List Action :=
  let dup : List Action := [.update { ack := 1, wnd := 60000 } 0 fun _ => {}, .tcpoutput fun _ => {}]
  [Action.tcpconnect false 0 1460 0 fun _ => {}, .procsyn { ack := 1, wnd := 60000, mss := 512 },
    .update { ack := 1, wnd := 60000, mss := 512 } 0 fun _ => {}, .tcpsynackrtt 100, .receive .Established,
    .tcpsetscale 0, .tcpoutput fun _ => {}, .qwrite 8192, .tcpkick fun _ => {}] ++ dup ++ dup ++ dup

def acks (n : UInt32) : Tcp where
  ack := 1 + n * 512
  wnd := 60000

theorem exists_lossy : ∃ tcb, machine.Reachable (fun _ _ => True) tcb ∧ decide (tcb.mss ≠ 0 ∧
    tcb.Partial (acks 2) ∧ ¬ tcb.cwind < (acks 2).ack - tcb.snd.una ∧
    tcb.Partial (acks 5) ∧ tcb.cwind < (acks 5).ack - tcb.snd.una ∧
    (tcb.update (acks 5) 0 fun _ => {}).any fun t => tcb.cwind.toNat + tcb.mss.toNat < t.cwind.toNat) = true := by
  have hrun : ((machine.guarded fun _ _ => True).exec {} lossy).any (fun tcb => decide (tcb.mss ≠ 0 ∧
      tcb.Partial (acks 2) ∧ ¬ tcb.cwind < (acks 2).ack - tcb.snd.una ∧
      tcb.Partial (acks 5) ∧ tcb.cwind < (acks 5).ack - tcb.snd.una ∧
      (tcb.update (acks 5) 0 fun _ => {}).any fun t => tcb.cwind.toNat + tcb.mss.toNat < t.cwind.toNat)) = true := by
    decide +kernel
  exact Machine.exists_reachable rfl hrun

theorem congestion_window_partial : ∃ tcb, machine.Reachable (fun _ _ => True) tcb ∧
    tcb.Partial (acks 2) ∧ tcb.Sound (acks 2) 0 fun _ => {} := by
  obtain ⟨tcb, hr, h⟩ := exists_lossy
  obtain ⟨hmss, hp, hle, -⟩ := of_decide_eq_true h
  exact ⟨tcb, hr, hp, (congestion_window hr hmss ..).mpr fun h => hle h.right⟩

-- The congestion window is as large as the window of the receiver after an acknowledgement that should have closed it.
theorem congestion_window_wraps : ∃ tcb, machine.Reachable (fun _ _ => True) tcb ∧ tcb.mss ≠ 0 ∧
    tcb.Partial (acks 5) ∧ tcb.cwind < (acks 5).ack - tcb.snd.una ∧ ¬ tcb.Sound (acks 5) 0 fun _ => {} := by
  obtain ⟨tcb, hr, h⟩ := exists_lossy
  obtain ⟨hmss, -, -, hp, hlt, hany⟩ := of_decide_eq_true h
  refine ⟨tcb, hr, hmss, hp, hlt, fun hsound => ?_⟩
  obtain ⟨t, ht, hcwind⟩ := (Option.any_eq_true ..).mp hany
  have := hsound.grows hp t ht
  have := of_decide_eq_true hcwind
  omega

end Ip.TcpUpdate
