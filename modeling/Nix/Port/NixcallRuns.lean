import Nix.Port.Nixcall

namespace Port.Callq

namespace State

-- What the user's process relies on where it is.
def UserAt (s : State) : Upc → Prop
  | .fill _ _  => s.calls.length + 1 < s.taken + CALLQSZ
  | .qw nc _   => s.calls.length + 1 < s.taken + CALLQSZ ∧ s.q s.qw = nc
  | .tag _     => s.got.length < s.replies.length
  | .copy _ t  => s.got.length < s.replies.length ∧ t = (s.r s.rr).tag
  | .rr t nr   => s.got.length < s.replies.length ∧ t = (s.r s.rr).tag ∧ ∀ x ∈ nr, x = s.r s.rr
  | _          => True

-- A call is taken, and there is room for the reply.
structure Serves (s : State) : Prop where
  call : s.taken < s.calls.length
  room : s.replies.length + 1 < s.got.length + CALLQSZ

-- What the kernel's process relies on where it is.
def KernelAt (s : State) : Kpc → Prop
  | .kwait | .asleep => s.ksleep = true
  | .tag             => s.taken < s.calls.length
  | .sret            => s.Serves ∧ (s.r s.rw).tag = (s.q s.qr).tag
  | .err             => s.Serves ∧ (s.r s.rw).tag = (s.q s.qr).tag ∧ (s.r s.rw).sret = int32 (-(s.q s.qr).scall)
  | .qr              => s.Serves ∧ s.r s.rw = (s.q s.qr).reply
  | .rw              => s.replies.length + 1 < s.got.length + CALLQSZ ∧
    ∃ h : s.replies.length < s.calls.length, s.r s.rw = s.calls[s.replies.length].reply
  | _                => True

end State

-- The replies are those of the first calls in their order, and what is returned are the first of the replies.
structure Sound (s : State) : Prop where
  calls   : RingBuffer CALLQSZ s.q s.qr s.qw s.calls s.taken
  replies : RingBuffer CALLQSZ s.r s.rr s.rw s.replies s.got.length
  user    : s.UserAt s.upc
  kernel  : s.KernelAt s.kpc
  taken   : s.taken = s.replies.length + if s.kpc = .rw then 1 else 0
  order   : s.replies = (s.calls.take s.replies.length).map Nixcall.reply
  got     : ∀ i (h : i < s.got.length), ∃ h' : i < s.replies.length,
    s.got[i].fst = s.replies[i].tag ∧ ∀ nr ∈ s.got[i].snd, nr = s.replies[i]
  nixpctl : (s.nixpctl = none ↔ s.kpc = .none) ∧ (s.kpc ≠ .none → s.kpc ≠ .cmd → s.nixpctl = some .NCdone)

-- `nixkproc` replies only where that does not make the ring of the replies full.
def Room (s : State) : Act → Prop
  | .nixkproc => s.kpc = .tag → NEXT s.rw ≠ s.rr
  | _         => True

variable {s s' : State}

namespace Sound

theorem init (h : Init s) : Sound s where
  calls   := by
    rw [h.qr, h.qw, h.calls, h.taken]
    exact .init (by decide) s.q
  replies := by
    rw [h.rr, h.rw, h.replies, h.got]
    exact .init (by decide) s.r
  user    := by rw [h.upc]; trivial
  kernel  := by rw [h.kpc]; trivial
  taken   := by rw [h.taken, h.replies, h.kpc]; rfl
  order   := by rw [h.replies]; rfl
  got i   := by rw [h.got]; nofun
  nixpctl := by
    rw [h.nixpctl, h.kpc]
    exact ⟨iff_of_true rfl rfl, fun hne => absurd rfl hne⟩

end Sound

-- What the user's process may change.
structure Calls (s s' : State) : Prop where
  ksleep  : s'.ksleep = s.ksleep
  r       : s'.r = s.r
  rw      : s'.rw = s.rw
  call    : s.taken < s.calls.length → s'.q s'.qr = s.q s.qr
  taken   : s'.taken = s.taken
  calls   : s.calls <+: s'.calls
  replies : s'.replies = s.replies
  got     : s.got.length ≤ s'.got.length

theorem State.KernelAt.calls {c : Kpc} (hk : s.KernelAt c) (hc : Calls s s') : s'.KernelAt c := by
  have hlen := hc.calls.length_le
  have hgot := hc.got
  have hserves (h : s.Serves) : s'.Serves :=
    ⟨by rw [hc.taken]; exact Nat.lt_of_lt_of_le h.call hlen, by rw [hc.replies]; have := h.room; omega⟩
  cases c
  case kwait => exact hc.ksleep.trans hk
  case asleep => exact hc.ksleep.trans hk
  case tag =>
    change s'.taken < s'.calls.length
    rw [hc.taken]
    exact Nat.lt_of_lt_of_le hk hlen
  case sret =>
    obtain ⟨hs, htag⟩ := hk
    refine ⟨hserves hs, ?_⟩
    rw [hc.r, hc.rw, hc.call hs.call]
    exact htag
  case err =>
    obtain ⟨hs, htag⟩ := hk
    refine ⟨hserves hs, ?_⟩
    rw [hc.r, hc.rw, hc.call hs.call]
    exact htag
  case qr =>
    obtain ⟨hs, hr⟩ := hk
    refine ⟨hserves hs, ?_⟩
    rw [hc.r, hc.rw, hc.call hs.call]
    exact hr
  case rw =>
    obtain ⟨hroom, hlt, hr⟩ := hk
    rw [State.KernelAt]
    simp only [hc.r, hc.rw, hc.replies]
    refine ⟨by omega, Nat.lt_of_lt_of_le hlt hlen, hr.trans ?_⟩
    rw [hc.calls.getElem hlt]
  all_goals trivial

-- What the kernel's process may change.
structure Replies (s s' : State) : Prop where
  q       : s'.q = s.q
  qw      : s'.qw = s.qw
  rr      : s'.rr = s.rr
  reply   : s.got.length < s.replies.length → s'.r s.rr = s.r s.rr
  taken   : s.taken ≤ s'.taken
  calls   : s'.calls = s.calls
  replies : s.replies <+: s'.replies
  got     : s'.got = s.got

theorem State.UserAt.replies {c : Upc} (hu : s.UserAt c) (hr : Replies s s') : s'.UserAt c := by
  have htaken := hr.taken
  have hlen := hr.replies.length_le
  cases c
  case fill nc w =>
    change s'.calls.length + 1 < s'.taken + CALLQSZ
    rw [hr.calls]
    change s.calls.length + 1 < s.taken + CALLQSZ at hu
    omega
  case qw nc w =>
    obtain ⟨hfull, hq⟩ := hu
    refine ⟨by rw [hr.calls]; omega, ?_⟩
    rw [hr.q, hr.qw, hq]
  case tag nr =>
    change s'.got.length < s'.replies.length
    rw [hr.got]
    exact Nat.lt_of_lt_of_le hu hlen
  case copy nr t =>
    obtain ⟨hlt, ht⟩ := hu
    refine ⟨by rw [hr.got]; omega, ?_⟩
    rw [hr.rr, hr.reply hlt, ht]
  case rr t nr =>
    obtain ⟨hlt, ht, hnr⟩ := hu
    refine ⟨by rw [hr.got]; omega, ?_⟩
    rw [hr.rr, hr.reply hlt]
    exact ⟨ht, hnr⟩
  all_goals trivial

namespace Sound

theorem replies_le (hs : Sound s) : s.replies.length ≤ s.calls.length := by
  have := hs.taken
  have := hs.calls.le
  omega

section User

theorem goto (hs : Sound s) {c : Upc} (hc : s.UserAt c) : Sound { s with upc := c } where
  calls   := hs.calls
  replies := hs.replies
  user    := by cases c <;> exact hc
  kernel  := hs.kernel.calls ⟨rfl, rfl, rfl, fun _ => rfl, rfl, List.prefix_refl _, rfl, Nat.le_refl _⟩
  taken   := hs.taken
  order   := hs.order
  got     := hs.got
  nixpctl := hs.nixpctl

theorem fill (hs : Sound s) {nc : Nixcall} (w : Bool) (hroom : s.calls.length + 1 < s.taken + CALLQSZ) :
    Sound { s with q := Function.update s.q s.qw nc, upc := .qw nc w } where
  calls   := hs.calls.write nc
  replies := hs.replies
  user    := ⟨hroom, Function.update_self ..⟩
  kernel  := by
    refine hs.kernel.calls ⟨rfl, rfl, rfl, fun hlt => ?_, rfl, List.prefix_refl _, rfl, Nat.le_refl _⟩
    exact Function.update_of_ne (mt hs.calls.empty_iff.mp <| Nat.ne_of_lt hlt) ..
  taken   := hs.taken
  order   := hs.order
  got     := hs.got
  nixpctl := hs.nixpctl

theorem put (hs : Sound s) {nc : Nixcall} (w : Bool) (hroom : s.calls.length + 1 < s.taken + CALLQSZ)
    (hq : s.q s.qw = nc) : Sound { s with qw := NEXT s.qw, calls := s.calls ++ [nc], upc := .ksleep w } where
  calls   := hs.calls.put hq <| mt hs.calls.full_iff.mp <| Nat.ne_of_lt hroom
  replies := hs.replies
  user    := trivial
  kernel  := hs.kernel.calls ⟨rfl, rfl, rfl, fun _ => rfl, rfl, List.prefix_append _ _, rfl, Nat.le_refl _⟩
  taken   := hs.taken
  order   := by
    rw [List.take_append_of_le_length hs.replies_le]
    exact hs.order
  got     := hs.got
  nixpctl := hs.nixpctl

theorem receive (hs : Sound s) {t : Nat} {nr : Option Nixret} (hlt : s.got.length < s.replies.length)
    (ht : t = (s.r s.rr).tag) (hnr : ∀ x ∈ nr, x = s.r s.rr) :
    Sound { s with rr := NEXT s.rr, got := s.got ++ [(t, nr)], upc := .user } where
  calls   := hs.calls
  replies := by
    rw [List.length_append, List.length_singleton]
    exact hs.replies.take <| mt hs.replies.empty_iff.mp <| Nat.ne_of_lt hlt
  user    := trivial
  kernel  := by
    refine hs.kernel.calls ⟨rfl, rfl, rfl, fun _ => rfl, rfl, List.prefix_refl _, rfl, ?_⟩
    rw [List.length_append]
    exact Nat.le_add_right ..
  taken   := hs.taken
  order   := hs.order
  got i h := by
    have hfront := hs.replies.front hlt
    rw [List.length_append, List.length_singleton] at h
    rcases Nat.lt_succ_iff_lt_or_eq.mp h with hi | rfl
    · rw [List.getElem_append_left hi]
      exact hs.got i hi
    · rw [List.getElem_concat_length rfl]
      exact ⟨hlt, hfront ▸ ht, hfront ▸ hnr⟩
  nixpctl := hs.nixpctl

theorem create (hs : Sound s) (hnone : s.nixpctl = none) :
    Sound { s with nixpctl := some .NCinit, kpc := .cmd, upc := .uwait } where
  calls   := hs.calls
  replies := hs.replies
  user    := trivial
  kernel  := trivial
  taken   := by
    have := hs.taken
    rwa [hs.nixpctl.left.mp hnone] at this
  order   := hs.order
  got     := hs.got
  nixpctl := ⟨iff_of_false nofun nofun, fun _ hne => absurd rfl hne⟩

theorem wakeup (hs : Sound s) : Sound { s with kpc := if s.kpc = .asleep then .ready else s.kpc, upc := .user } := by
  have hgoto : Sound { s with upc := .user } := hs.goto trivial
  split
  case isFalse => exact hgoto
  case isTrue hk =>
    exact
      { calls   := hs.calls
        replies := hs.replies
        user    := trivial
        kernel  := trivial
        taken   := by
          have := hs.taken
          rwa [hk] at this
        order   := hs.order
        got     := hs.got
        nixpctl := by
          have := hs.nixpctl
          rw [hk] at this
          exact ⟨iff_of_false (mt this.left.mp nofun) nofun, fun _ _ => this.right nofun nofun⟩ }

theorem user_step (hs : Sound s) (h : s.user = some s') : Sound s' := by
  have hu := hs.user
  rw [State.user] at h
  split at h
  case h_1 => contradiction
  case h_2 nc w hc =>
    obtain rfl := Option.some.inj h
    split
    case isTrue => exact hs.goto trivial
    case isFalse hfull =>
      have := hs.calls.lt
      have := mt hs.calls.full_iff.mpr hfull
      refine hs.goto (c := .fill nc w) ?_
      change s.calls.length + 1 < s.taken + CALLQSZ
      omega
  case h_3 nc w hc =>
    obtain rfl := Option.some.inj h
    rw [hc] at hu
    exact hs.fill w hu
  case h_4 nc w hc =>
    obtain rfl := Option.some.inj h
    rw [hc] at hu
    exact hs.put w hu.left hu.right
  case h_5 w hc =>
    obtain rfl := Option.some.inj h
    split <;> exact hs.goto trivial
  case h_6 => contradiction
  case h_7 nr hc =>
    obtain rfl := Option.some.inj h
    split
    case isTrue => exact hs.goto trivial
    case isFalse hne =>
      refine hs.goto (c := .tag nr) ?_
      exact Nat.lt_of_le_of_ne hs.replies.le <| mt hs.replies.empty_iff.mpr hne
  case h_8 nr hc =>
    obtain rfl := Option.some.inj h
    rw [hc] at hu
    exact hs.goto (c := .copy nr _) ⟨hu, rfl⟩
  case h_9 nr t hc =>
    obtain rfl := Option.some.inj h
    rw [hc] at hu
    refine hs.goto (c := .rr t _) ⟨hu.left, hu.right, fun x hx => ?_⟩
    split at hx
    case isTrue => exact (Option.some.inj hx).symm
    case isFalse => contradiction
  case h_10 t nr hc =>
    obtain rfl := Option.some.inj h
    rw [hc] at hu
    exact hs.receive hu.left hu.right.left hu.right.right
  case h_11 hc =>
    split at h
    case isTrue hnone =>
      obtain rfl := Option.some.inj h
      exact hs.create hnone
    case isFalse =>
      obtain rfl := Option.some.inj h
      exact hs.goto trivial
  case h_12 hc =>
    obtain rfl := Option.some.inj h
    split <;> exact hs.goto trivial
  case h_13 => contradiction
  case h_14 hc =>
    obtain rfl := Option.some.inj h
    exact hs.wakeup

end User

section Kernel

variable {c : Kpc}

-- Where the kernel's process is once it serves the user's one.
def Serving (c : Kpc) : Prop :=
  c ≠ .rw ∧ c ≠ .none ∧ c ≠ .cmd

theorem nixpctl_of (hs : Sound s) (hk : Serving s.kpc) (hc : Serving c) :
    (s.nixpctl = none ↔ c = .none) ∧ (c ≠ .none → c ≠ .cmd → s.nixpctl = some .NCdone) :=
  ⟨iff_of_false (mt hs.nixpctl.left.mp hk.right.left) hc.right.left, fun _ _ => hs.nixpctl.right hk.right.left hk.right.right⟩

theorem taken_of (hs : Sound s) (hk : Serving s.kpc) (hc : Serving c) :
    s.taken = s.replies.length + if c = .rw then 1 else 0 := by
  have := hs.taken
  rw [if_neg hk.left] at this
  rwa [if_neg hc.left]

-- Nothing changes but where the kernel's process is, and the flag for its sleep.
theorem serve (hs : Sound s) {ksleep : Bool} (hk : Serving s.kpc) (hc : Serving c)
    (hat : State.KernelAt { s with ksleep, kpc := c } c) : Sound { s with ksleep, kpc := c } where
  calls   := hs.calls
  replies := hs.replies
  user    := hs.user.replies ⟨rfl, rfl, rfl, fun _ => rfl, Nat.le_refl _, rfl, List.prefix_refl _, rfl⟩
  kernel  := hat
  taken   := hs.taken_of hk hc
  order   := hs.order
  got     := hs.got
  nixpctl := hs.nixpctl_of hk hc

theorem reply (hs : Sound s) {x : Nixret} (hk : Serving s.kpc) (hc : Serving c)
    (hat : State.KernelAt { s with r := Function.update s.r s.rw x, kpc := c } c) :
    Sound { s with r := Function.update s.r s.rw x, kpc := c } where
  calls   := hs.calls
  replies := hs.replies.write x
  user    := by
    refine hs.user.replies ⟨rfl, rfl, rfl, fun hlt => ?_, Nat.le_refl _, rfl, List.prefix_refl _, rfl⟩
    exact Function.update_of_ne (mt hs.replies.empty_iff.mp <| Nat.ne_of_lt hlt) ..
  kernel  := hat
  taken   := hs.taken_of hk hc
  order   := hs.order
  got     := hs.got
  nixpctl := hs.nixpctl_of hk hc

theorem start (hs : Sound s) (hk : s.kpc = .cmd) : Sound { s with nixpctl := some .NCdone, kpc := .uwait } where
  calls   := hs.calls
  replies := hs.replies
  user    := hs.user.replies ⟨rfl, rfl, rfl, fun _ => rfl, Nat.le_refl _, rfl, List.prefix_refl _, rfl⟩
  kernel  := trivial
  taken   := by
    have := hs.taken
    rwa [hk] at this
  order   := hs.order
  got     := hs.got
  nixpctl := ⟨iff_of_false nofun nofun, fun _ _ => rfl⟩

theorem take (hs : Sound s) (hk : s.kpc = .qr) (hserves : s.Serves) (hr : s.r s.rw = (s.q s.qr).reply) :
    Sound { s with qr := NEXT s.qr, taken := s.taken + 1, kpc := .rw } := by
  have htaken := hs.taken
  rw [hk, if_neg nofun, Nat.add_zero] at htaken
  exact
    { calls   := hs.calls.take <| mt hs.calls.empty_iff.mp <| Nat.ne_of_lt hserves.call
      replies := hs.replies
      user    := hs.user.replies ⟨rfl, rfl, rfl, fun _ => rfl, Nat.le_succ _, rfl, List.prefix_refl _, rfl⟩
      kernel  := by
        refine ⟨hserves.room, htaken ▸ hserves.call, hr.trans ?_⟩
        rw [hs.calls.front hserves.call]
        simp only [htaken]
      taken   := congrArg (· + 1) htaken
      order   := hs.order
      got     := hs.got
      nixpctl := by
        have := hs.nixpctl
        rw [hk] at this
        exact ⟨iff_of_false (mt this.left.mp nofun) nofun, fun _ _ => this.right nofun nofun⟩ }

theorem put_reply (hs : Sound s) (hk : s.kpc = .rw) (hroom : s.replies.length + 1 < s.got.length + CALLQSZ)
    (hlt : s.replies.length < s.calls.length) (hr : s.r s.rw = s.calls[s.replies.length].reply) :
    Sound { s with rw := NEXT s.rw, replies := s.replies ++ [s.r s.rw], kpc := .poll 0 } where
  calls   := hs.calls
  replies := hs.replies.put rfl <| mt hs.replies.full_iff.mp <| Nat.ne_of_lt hroom
  user    := hs.user.replies ⟨rfl, rfl, rfl, fun _ => rfl, Nat.le_refl _, rfl, List.prefix_append _ _, rfl⟩
  kernel  := trivial
  taken   := by
    have := hs.taken
    rw [hk, if_pos rfl] at this
    rw [List.length_append, List.length_singleton, this]
    rfl
  order   := by
    rw [List.length_append, List.length_singleton, List.take_succ_eq_append_getElem hlt, List.map_append, ← hs.order, hr]
    rfl
  got i h := by
    obtain ⟨h', hgot⟩ := hs.got i h
    refine ⟨by rw [List.length_append]; omega, ?_⟩
    rwa [List.getElem_append_left h']
  nixpctl := by
    have := hs.nixpctl
    rw [hk] at this
    exact ⟨iff_of_false (mt this.left.mp nofun) nofun, fun _ _ => this.right nofun nofun⟩

theorem kernel_step (hs : Sound s) (hroom : Room s .nixkproc) (h : s.nixkproc = some s') : Sound s' := by
  have hk := hs.kernel
  have serving {c : Kpc} (hc : s.kpc = c) (hserving : Serving c) : Serving s.kpc := hc ▸ hserving
  rw [State.nixkproc] at h
  split at h
  case h_1 => contradiction
  case h_2 hc =>
    obtain rfl := Option.some.inj h
    exact hs.start hc
  case h_3 hc =>
    obtain rfl := Option.some.inj h
    have hpoll : Sound { s with kpc := .poll 0 } :=
      hs.serve (serving hc ⟨nofun, nofun, nofun⟩) ⟨nofun, nofun, nofun⟩ trivial
    split
    case isTrue => exact hpoll.goto trivial
    case isFalse => exact hpoll
  case h_4 i hc =>
    obtain rfl := Option.some.inj h
    split <;> exact hs.serve (serving hc ⟨nofun, nofun, nofun⟩) ⟨nofun, nofun, nofun⟩ trivial
  case h_5 hc =>
    obtain rfl := Option.some.inj h
    split <;> exact hs.serve (serving hc ⟨nofun, nofun, nofun⟩) ⟨nofun, nofun, nofun⟩ trivial
  case h_6 hc =>
    obtain rfl := Option.some.inj h
    exact hs.serve (serving hc ⟨nofun, nofun, nofun⟩) ⟨nofun, nofun, nofun⟩ rfl
  case h_7 hc =>
    obtain rfl := Option.some.inj h
    rw [hc] at hk
    split
    case isTrue => exact hs.serve (serving hc ⟨nofun, nofun, nofun⟩) ⟨nofun, nofun, nofun⟩ trivial
    case isFalse => exact hs.serve (serving hc ⟨nofun, nofun, nofun⟩) ⟨nofun, nofun, nofun⟩ hk
  case h_8 => contradiction
  case h_9 hc =>
    obtain rfl := Option.some.inj h
    exact hs.serve (serving hc ⟨nofun, nofun, nofun⟩) ⟨nofun, nofun, nofun⟩ trivial
  case h_10 hc =>
    split at h
    case h_1 =>
      obtain rfl := Option.some.inj h
      exact hs.serve (serving hc ⟨nofun, nofun, nofun⟩) ⟨nofun, nofun, nofun⟩ trivial
    case h_2 =>
      obtain rfl := Option.some.inj h
      exact hs.serve (serving hc ⟨nofun, nofun, nofun⟩) ⟨nofun, nofun, nofun⟩ trivial
    case h_3 => contradiction
  case h_11 hc =>
    obtain rfl := Option.some.inj h
    split
    case isTrue hne =>
      refine hs.serve (serving hc ⟨nofun, nofun, nofun⟩) ⟨nofun, nofun, nofun⟩ ?_
      exact Nat.lt_of_le_of_ne hs.calls.le <| mt hs.calls.empty_iff.mpr hne
    case isFalse => exact hs.serve (serving hc ⟨nofun, nofun, nofun⟩) ⟨nofun, nofun, nofun⟩ trivial
  case h_12 hc =>
    obtain rfl := Option.some.inj h
    rw [hc] at hk
    have hserves : s.Serves := ⟨hk, by
      have := hs.replies.lt
      have := mt hs.replies.full_iff.mpr <| hroom hc
      omega⟩
    refine hs.reply (serving hc ⟨nofun, nofun, nofun⟩) ⟨nofun, nofun, nofun⟩ ⟨⟨hserves.call, hserves.room⟩, ?_⟩
    simp only [Function.update_self]
  case h_13 hc =>
    obtain rfl := Option.some.inj h
    rw [hc] at hk
    obtain ⟨hserves, htag⟩ := hk
    refine hs.reply (serving hc ⟨nofun, nofun, nofun⟩) ⟨nofun, nofun, nofun⟩ ⟨⟨hserves.call, hserves.room⟩, ?_⟩
    simp only [Function.update_self, and_true]
    exact htag
  case h_14 hc =>
    obtain rfl := Option.some.inj h
    rw [hc] at hk
    obtain ⟨hserves, htag, hsret⟩ := hk
    refine hs.reply (serving hc ⟨nofun, nofun, nofun⟩) ⟨nofun, nofun, nofun⟩ ⟨⟨hserves.call, hserves.room⟩, ?_⟩
    simp only [Function.update_self, htag, hsret, Nixcall.reply]
  case h_15 hc =>
    obtain rfl := Option.some.inj h
    rw [hc] at hk
    exact hs.take hc hk.left hk.right
  case h_16 hc =>
    obtain rfl := Option.some.inj h
    rw [hc] at hk
    obtain ⟨hroom, hlt, hr⟩ := hk
    exact hs.put_reply hc hroom hlt hr
  case h_17 => contradiction

end Kernel

theorem step (hs : Sound s) {act : Act} (hroom : Room s act) (h : step s act = some s') : Sound s' := by
  cases act
  case nixcall nc w =>
    obtain ⟨-, h⟩ := Option.ite_none_right_eq_some.mp h
    obtain rfl := Option.some.inj h
    exact hs.goto trivial
  case nixret nr =>
    obtain ⟨-, h⟩ := Option.ite_none_right_eq_some.mp h
    obtain rfl := Option.some.inj h
    exact hs.goto trivial
  case sysnixsyscall =>
    obtain ⟨-, h⟩ := Option.ite_none_right_eq_some.mp h
    obtain rfl := Option.some.inj h
    exact hs.goto trivial
  case user => exact hs.user_step h
  case nixkproc => exact hs.kernel_step hroom h

end Sound

theorem sound (hr : machine.Reachable Room s) : Sound s :=
  Machine.Invariant.holds ⟨Sound.init, fun hs hroom h => hs.step hroom h⟩ hr

section Wakes

-- A `nixcall` is on its way to wake the kernel's process.
structure Wakes (s : State) : Prop where
  asleep  : s.kpc = .asleep
  ksleep  : s.ksleep = true
  nixpctl : s.nixpctl = some .NCdone

theorem within_user {k : Nat} {P : State → Prop} (hs : s.user = some s') (h : Wakes s) (hne : s.upc ≠ .user)
    (hk : machine.Within P k s') : machine.Within P (k + 1) s := by
  refine .inr ⟨⟨.user, s', hs⟩, fun act t ht => ?_⟩
  cases act
  case user =>
    obtain rfl := Option.some.inj <| hs.symm.trans ht
    exact hk
  case nixkproc =>
    have hnone : s.nixkproc = none := by rw [State.nixkproc, h.asleep]
    exact absurd (hnone.symm.trans ht) nofun
  all_goals exact absurd (Option.ite_none_right_eq_some.mp ht).left hne

theorem Sound.wakes (hs : Sound s) {nc : Nixcall} (hk : s.kpc = .asleep) (hfull : NEXT s.qw ≠ s.qr)
    (h : machine.step s (.nixcall nc true) = some s') : machine.Within (·.kpc ≠ .asleep) 6 s' := by
  have hksleep : s.ksleep = true := by
    have := hs.kernel
    rwa [hk] at this
  have hnixpctl : s.nixpctl = some .NCdone := hs.nixpctl.right (hk ▸ nofun) (hk ▸ nofun)
  obtain ⟨-, h⟩ := Option.ite_none_right_eq_some.mp h
  obtain rfl := Option.some.inj h
  let t : State := { s with q := Function.update s.q s.qw nc, qw := NEXT s.qw, calls := s.calls ++ [nc] }
  have hfill : State.user { s with upc := .full nc true } = some { s with upc := .fill nc true } := by
    simp only [State.user, hfull, if_false]
  have htest : State.user { t with upc := .ksleep true } = some { t with upc := .nixpctl } := by
    simp only [State.user, t, Bool.true_and, hksleep, if_true]
  have hsys : State.user { t with upc := .nixpctl } = some { t with upc := .wakeup } :=
    if_neg <| Option.ne_none_iff_exists'.mpr ⟨_, hnixpctl⟩
  have hwakeup : State.user { t with upc := .wakeup } = some { t with kpc := .ready, upc := .user } := by
    simp only [State.user, t, hk, if_true]
  have hput : State.user { s with q := Function.update s.q s.qw nc, upc := .qw nc true } = some { t with upc := .ksleep true } :=
    rfl
  refine within_user hfill ⟨hk, hksleep, hnixpctl⟩ nofun ?_
  refine within_user rfl ⟨hk, hksleep, hnixpctl⟩ nofun ?_
  refine within_user hput ⟨hk, hksleep, hnixpctl⟩ nofun ?_
  refine within_user htest ⟨hk, hksleep, hnixpctl⟩ nofun ?_
  refine within_user hsys ⟨hk, hksleep, hnixpctl⟩ nofun ?_
  refine within_user hwakeup ⟨hk, hksleep, hnixpctl⟩ nofun ?_
  exact (nofun : (Kpc.ready : Kpc) ≠ .asleep)

end Wakes

-- Each call that was queued is taken once and in order, and each reply is received once and in order and has the tag
-- of its call. No reply is written over before it is received, and a ring looks empty only where all was taken from
-- it. A call wakes the kernel's process where it sleeps, whatever is done meanwhile.
structure Delivered (s : State) : Prop where
  order : s.replies = (s.calls.take s.replies.length).map Nixcall.reply
  taken : s.qr = s.qw ↔ s.replies.length + (if s.kpc = .rw then 1 else 0) = s.calls.length
  got   : ∀ i (h : i < s.got.length), ∃ h' : i < s.replies.length,
    s.got[i].fst = s.replies[i].tag ∧ ∀ nr ∈ s.got[i].snd, nr = s.replies[i]
  kept  : ∀ i (h : i < s.replies.length), s.got.length ≤ i → s.r (i % CALLQSZ) = s.replies[i]
  empty : s.rr = s.rw ↔ s.got.length = s.replies.length
  wakes : ∀ nc s', s.kpc = .asleep → NEXT s.qw ≠ s.qr → machine.step s (.nixcall nc true) = some s' →
    machine.Within (·.kpc ≠ .asleep) 6 s'

theorem calls_delivered (hr : machine.Reachable Room s) : Delivered s :=
  have hs := sound hr
  { order := hs.order
    taken := hs.taken ▸ hs.calls.empty_iff
    got   := hs.got
    kept  := hs.replies.slots
    empty := hs.replies.empty_iff
    wakes := fun _ _ => hs.wakes }

section Runs

instance (s : State) : DecidablePred (Room s)
  | .nixkproc                                                 => inferInstanceAs <| Decidable (s.kpc = .tag → NEXT s.rw ≠ s.rr)
  | .nixcall .. | .nixret .. | .sysnixsyscall | .user => .isTrue trivial

def zero : State where
  ksleep  := false
  qr      := 0
  qw      := 0
  rr      := 0
  rw      := 0
  q _     := { tag := 0, scall := 0, sarg := 0 }
  r _     := { tag := 0, sret := 0, err := none }
  nixpctl := none
  upc     := .user
  kpc     := .none
  calls   := []
  taken   := 0
  replies := []
  got     := []

theorem init_zero : machine.init zero :=
  ⟨rfl, rfl, rfl, rfl, rfl, rfl, rfl, rfl, rfl, rfl, rfl, rfl⟩

-- The kernel's process is started, it gets a call, and the reply is received.
theorem calls_delivered_one : ∃ s, machine.Reachable Room s ∧
    s.got = [(7, some { tag := 7, sret := -3, err := none })] ∧ Delivered s := by
  have hrun : ((machine.guarded Room).exec zero <|
      .nixcall { tag := 7, scall := 3, sarg := 0 } true :: List.replicate 4 .user ++
      .sysnixsyscall :: .user :: List.replicate 12 .nixkproc ++
      .user :: .user :: .nixret true :: List.replicate 4 .user).any
      fun s => s.got = [(7, some { tag := 7, sret := -3, err := none })] := by decide +kernel
  obtain ⟨s, hr, hs⟩ := Machine.exists_reachable init_zero hrun
  exact ⟨s, hr, of_decide_eq_true hs, calls_delivered hr⟩

-- As many calls were done, and no reply was received.
structure Done (n : Nat) (s : State) : Prop where
  upc     : s.upc = .user
  kpc     : s.kpc = .poll 0
  nixpctl : s.nixpctl = some .NCdone
  qr      : s.qr = n % CALLQSZ
  qw      : s.qw = n % CALLQSZ
  rw      : s.rw = n % CALLQSZ
  rr      : s.rr = 0
  got     : s.got = []
  replies : s.replies.length = n

theorem NEXT_ne (n : Nat) : NEXT (n % CALLQSZ) ≠ n % CALLQSZ := by
  rw [NEXT, RingBuffer.next_mod]
  change (n + 1) % 512 ≠ n % 512
  omega

section

variable {ksleep : Bool} {qr qw rr rw taken : Nat} {q : Nat → Nixcall} {r : Nat → Nixret} {upc : Upc} {kpc : Kpc} {calls : List Nixcall}
  {replies : List Nixret} {got : List (Nat × Option Nixret)}

theorem exec_nixcall (hfull : NEXT qw ≠ qr) (nc : Nixcall) (as : List Act) :
    machine.exec ⟨ksleep, qr, qw, rr, rw, q, r, some .NCdone, .user, kpc, calls, taken, replies, got⟩
        (.nixcall nc false :: (List.replicate 4 .user ++ as)) =
      machine.exec ⟨ksleep, qr, NEXT qw, rr, rw, Function.update q qw nc, r, some .NCdone, .user, kpc, calls ++ [nc], taken,
        replies, got⟩ as := by
  simp only [Machine.exec, machine, step, List.replicate, List.cons_append, List.nil_append, State.user, if_true, if_neg hfull,
    Bool.false_and, Bool.false_eq_true, if_false, Option.bind_eq_bind, Option.bind_some]

theorem exec_nixkproc (ksleep : Bool) (hempty : qr ≠ qw) :
    ∃ r' nr, machine.exec ⟨ksleep, qr, qw, rr, rw, q, r, some .NCdone, upc, .poll 0, calls, taken, replies, got⟩
        (List.replicate 10 .nixkproc) =
      some ⟨false, NEXT qr, qw, rr, NEXT rw, q, r', some .NCdone, upc, .poll 0, calls, taken + 1, replies ++ [nr], got⟩ := by
  simp only [Machine.exec, machine, step, List.replicate, State.nixkproc, State.cmdready, hempty, Option.bind_eq_bind, Option.bind_some,
    ne_eq, not_true_eq_false, not_false_eq_true, or_true, decide_true, Bool.not_true, Bool.false_eq_true, and_false, if_false, if_true]
  exact ⟨_, _, rfl⟩

end

theorem Done.next (h : Done n s) : ∃ s', machine.exec s (.nixcall { tag := 7, scall := 3, sarg := 0 } false ::
    (List.replicate 4 .user ++ List.replicate 10 .nixkproc)) = some s' ∧ Done (n + 1) s' := by
  have hfull : NEXT s.qw ≠ s.qr := h.qw ▸ h.qr ▸ NEXT_ne n
  have hmod : NEXT (n % CALLQSZ) = (n + 1) % CALLQSZ := RingBuffer.next_mod ..
  obtain ⟨ksleep, qr, qw, rr, rw, q, r, nixpctl, upc, kpc, calls, taken, replies, got⟩ := s
  obtain ⟨rfl, rfl, rfl, hqr, hqw, hrw, hrr, hgot, hreplies⟩ := h
  have hempty : qr ≠ NEXT qw := hfull.symm
  obtain ⟨r', nr, hk⟩ := exec_nixkproc ksleep hempty
  refine ⟨_, (exec_nixcall hfull _ _).trans hk, ?_⟩
  exact
    { upc     := rfl
      kpc     := rfl
      nixpctl := rfl
      qr      := by rw [← hmod, ← hqr]
      qw      := by rw [← hmod, ← hqw]
      rw      := by rw [← hmod, ← hrw]
      rr      := hrr
      got     := hgot
      replies := by rw [List.length_append, hreplies]; rfl }

theorem done (n : Nat) : ∃ s, machine.Reachable (fun _ _ => True) s ∧ Done n s := by
  induction n
  case zero =>
    obtain ⟨s, hs, hdone⟩ : ∃ s, machine.exec zero (.sysnixsyscall :: .user :: .nixkproc :: .nixkproc :: .user :: .user :: []) =
        some s ∧ Done 0 s := ⟨_, rfl, rfl, rfl, rfl, rfl, rfl, rfl, rfl, rfl, rfl⟩
    exact ⟨s, Machine.Reachable.exec (.init init_zero) (fun _ _ _ => trivial) hs, hdone⟩
  case succ n ih =>
    obtain ⟨s, hr, hdone⟩ := ih
    obtain ⟨s', hs', hdone'⟩ := hdone.next
    exact ⟨s', hr.exec (fun _ _ _ => trivial) hs', hdone'⟩

-- After as many calls as there are slots the ring of the replies looks empty.
theorem calls_overwritten : ¬ ∀ s, machine.Reachable (fun _ _ => True) s → Delivered s := by
  intro hall
  obtain ⟨s, hr, hdone⟩ := done CALLQSZ
  have hempty := (hall s hr).empty.mp <| by rw [hdone.rr, hdone.rw, Nat.mod_self]
  rw [hdone.got, hdone.replies] at hempty
  contradiction

end Runs

end Port.Callq
