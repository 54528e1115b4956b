import Mathlib.Data.Fintype.Pi
import Nix.Lib.Machine

namespace Ip.Ipht

abbrev IPaddr := Fin 16 → UInt8

abbrev Nhash : UInt32 := 64

abbrev Nipht : Nat := 521

def IPnoaddr : IPaddr := fun _ => 0

-- The addresses and ports of a conversation.
structure Conv where
  raddr : IPaddr
  rport : UInt16
  laddr : IPaddr
  lport : UInt16
deriving DecidableEq

-- The compiler keeps the operands unsigned.
def iphash (sa : IPaddr) (sp : UInt16) (da : IPaddr) (dp : UInt16) : UInt32 :=
  ((sa 15).toUInt32 <<< 24 ^^^ sp.toUInt32 <<< 16 ^^^ (da 15).toUInt32 <<< 8 ^^^ dp.toUInt32) % Nhash

-- All of the sum but the local port is shifted beyond the bits that are taken.
theorem iphash_eq (sa : IPaddr) (sp : UInt16) (da : IPaddr) (dp : UInt16) :
    (iphash sa sp da dp).toNat = dp.toNat % 64 := by
  have hshift (a k : Nat) (hk : 6 ≤ k) : a <<< k % 2 ^ 32 % 2 ^ 6 = 0 := by
    rw [Nat.mod_mod_of_dvd _ (by decide), Nat.shiftLeft_eq]
    exact Nat.mod_eq_zero_of_dvd <| dvd_mul_of_dvd_right (pow_dvd_pow 2 hk) a
  have hs := hshift (sa 15).toNat 24 (by decide)
  have hp := hshift sp.toNat 16 (by decide)
  have hd := hshift (da 15).toNat 8 (by decide)
  rw [iphash, UInt32.toNat_mod]
  simp only [UInt32.toNat_xor, UInt32.toNat_shiftLeft]
  change (((sa 15).toNat <<< 24 % 2 ^ 32 ^^^ sp.toNat <<< 16 % 2 ^ 32) ^^^ (da 15).toNat <<< 8 % 2 ^ 32 ^^^ dp.toNat) %
    2 ^ 6 = dp.toNat % 2 ^ 6
  simp only [Nat.xor_mod_two_pow, hs, hp, hd, Nat.zero_xor]

-- The place of a chain in the table.
def bucket (sa : IPaddr) (sp : UInt16) (da : IPaddr) (dp : UInt16) : Fin Nipht :=
  ⟨(iphash sa sp da dp).toNat, by rw [iphash_eq]; exact (Nat.mod_lt _ (by decide)).trans (by decide)⟩

theorem bucket_congr (sa sa' : IPaddr) (sp sp' : UInt16) (da da' : IPaddr) (dp : UInt16) :
    bucket sa sp da dp = bucket sa' sp' da' dp := by
  rw [bucket, bucket, Fin.mk.injEq, iphash_eq, iphash_eq]

-- The ways to match.
inductive Kind
  | IPmatchexact
  | IPmatchany
  | IPmatchport
  | IPmatchaddr
  | IPmatchpa
deriving DecidableEq, Repr

structure Iphash (C : Type*) where
  c    : C
  kind : Kind

def Conv.bucket (c : Conv) : Fin Nipht :=
  Ipht.bucket c.raddr c.rport c.laddr c.lport

-- The way to match with which `iphtadd` enters a conversation.
def Conv.kind (c : Conv) : Kind :=
  if c.raddr ≠ IPnoaddr then
    .IPmatchexact
  else if c.laddr ≠ IPnoaddr then
    if c.lport = 0 then .IPmatchaddr else .IPmatchpa
  else
    if c.lport = 0 then .IPmatchany else .IPmatchport

-- The conversations of a protocol and its table of them.
structure State (C : Type*) where
  conv : C → Conv
  tab  : Fin Nipht → List (Iphash C)

namespace State

variable {C : Type*} [DecidableEq C]

def iphtadd (s : State C) (c : C) : State C :=
  let hv := (s.conv c).bucket
  { s with tab := Function.update s.tab hv (⟨c, (s.conv c).kind⟩ :: s.tab hv) }

def iphtrem (s : State C) (c : C) : State C :=
  let hv := (s.conv c).bucket
  { s with tab := Function.update s.tab hv ((s.tab hv).eraseP (·.c = c)) }

section Tables

variable {s : State C} {c : C} {hv : Fin Nipht}

omit [DecidableEq C] in
theorem iphtadd_self (s : State C) (c : C) :
    (s.iphtadd c).tab (s.conv c).bucket = ⟨c, (s.conv c).kind⟩ :: s.tab (s.conv c).bucket :=
  Function.update_self ..

omit [DecidableEq C] in
theorem iphtadd_of_ne (h : hv ≠ (s.conv c).bucket) : (s.iphtadd c).tab hv = s.tab hv :=
  Function.update_of_ne h ..

theorem iphtrem_self (s : State C) (c : C) :
    (s.iphtrem c).tab (s.conv c).bucket = (s.tab (s.conv c).bucket).eraseP (·.c = c) :=
  Function.update_self ..

theorem iphtrem_of_ne (h : hv ≠ (s.conv c).bucket) : (s.iphtrem c).tab hv = s.tab hv :=
  Function.update_of_ne h ..

end Tables

-- One of the loops of `iphtlook`.
def scan (s : State C) (hv : Fin Nipht) (kind : Kind) (p : Conv → Bool) : Option C :=
  ((s.tab hv).find? fun h => h.kind = kind ∧ p (s.conv h.c)).map Iphash.c

def iphtlook (s : State C) (sa : IPaddr) (sp : UInt16) (da : IPaddr) (dp : UInt16) : Option C :=
  -- exact 4 pair match (connection)
  (s.scan (bucket sa sp da dp) .IPmatchexact fun c =>
    sp = c.rport ∧ dp = c.lport ∧ sa = c.raddr ∧ da = c.laddr).or <|
  -- match local address and port
  (s.scan (bucket IPnoaddr 0 da dp) .IPmatchpa fun c => dp = c.lport ∧ da = c.laddr).or <|
  -- match just port
  (s.scan (bucket IPnoaddr 0 IPnoaddr dp) .IPmatchport fun c => dp = c.lport).or <|
  -- match local address
  (s.scan (bucket IPnoaddr 0 da 0) .IPmatchaddr fun c => da = c.laddr).or <|
  -- look for something that matches anything
  s.scan (bucket IPnoaddr 0 IPnoaddr 0) .IPmatchany fun _ => true

end State

-- The calls, and what sets the addresses of a conversation: connecting, announcing, binding, a call that comes in, the
-- close of a conversation and its use for another one.
inductive Act (C : Type*)
  | setaddr (c : C) (conv : Conv)
  | iphtadd (c : C)
  | iphtrem (c : C)

variable {C : Type*} [DecidableEq C]

def step (s : State C) : Act C → State C
  | .setaddr c conv => { s with conv := Function.update s.conv c conv }
  | .iphtadd c      => s.iphtadd c
  | .iphtrem c      => s.iphtrem c

-- The conversations that were entered and not removed since.
def note : Act C → List C → List C
  | .setaddr .., entered => entered
  | .iphtadd c, entered  => c :: entered
  | .iphtrem c, entered  => entered.filter (· ≠ c)

def machine (C : Type*) [DecidableEq C] : Machine (State C × List C) (Act C) :=
  Machine.track ⟨fun s => s.tab = fun _ => [], fun s a => some (step s a)⟩ (List C) (fun _ => []) fun _ => note

-- What a conversation has to be to take what comes from `sa` and `sp` to `da` and `dp` in each of the ways.
def Conv.Matches (c : Conv) (sa : IPaddr) (sp : UInt16) (da : IPaddr) (dp : UInt16) : Kind → Prop
  | .IPmatchexact => c.raddr ≠ IPnoaddr ∧ c.raddr = sa ∧ c.rport = sp ∧ c.laddr = da ∧ c.lport = dp
  | .IPmatchpa    => c.raddr = IPnoaddr ∧ c.laddr ≠ IPnoaddr ∧ c.lport ≠ 0 ∧ c.laddr = da ∧ c.lport = dp
  | .IPmatchport  => c.raddr = IPnoaddr ∧ c.laddr = IPnoaddr ∧ c.lport ≠ 0 ∧ c.lport = dp
  | .IPmatchaddr  => c.raddr = IPnoaddr ∧ c.laddr ≠ IPnoaddr ∧ c.lport = 0 ∧ c.laddr = da
  | .IPmatchany   => c.raddr = IPnoaddr ∧ c.laddr = IPnoaddr ∧ c.lport = 0

-- The order of the ways to match.
def Kind.precedence : Kind → Nat
  | .IPmatchexact => 0
  | .IPmatchpa    => 1
  | .IPmatchport  => 2
  | .IPmatchaddr  => 3
  | .IPmatchany   => 4

-- What is found is one that was entered and that matches in the first of the ways in which there is one from `n` on.
structure Best (s : State C) (entered : List C) (sa : IPaddr) (sp : UInt16) (da : IPaddr) (dp : UInt16) (n : Nat)
    (o : Option C) : Prop where
  some : ∀ c, o = some c → c ∈ entered ∧ ∃ kind, (s.conv c).Matches sa sp da dp kind ∧
    ∀ c' ∈ entered, ∀ kind', n ≤ kind'.precedence → (s.conv c').Matches sa sp da dp kind' →
      kind.precedence ≤ kind'.precedence
  none : o = none → ∀ c ∈ entered, ∀ kind, n ≤ kind.precedence → ¬(s.conv c).Matches sa sp da dp kind

def Demuxed (s : State C) (entered : List C) : Prop :=
  ∀ sa sp da dp, Best s entered sa sp da dp 0 (s.iphtlook sa sp da dp)

-- The condition. A conversation is not entered twice, and its addresses change only to such that belong to the same
-- chain and way to match while it is entered.
def Meets (s : State C × List C) : Act C → Prop
  | .setaddr c conv => c ∈ s.snd → conv.bucket = (s.fst.conv c).bucket ∧ conv.kind = (s.fst.conv c).kind
  | .iphtadd c      => c ∉ s.snd
  | .iphtrem _      => True

instance (s : State C × List C) (a : Act C) : Decidable (Meets s a) := by
  cases a <;> unfold Meets <;> infer_instance

-- The conversations that were entered are those of the table, each of them once and where it belongs.
structure Sound (s : State C) (entered : List C) : Prop where
  entry : ∀ hv, ∀ h ∈ s.tab hv, h.c ∈ entered ∧ (s.conv h.c).bucket = hv ∧ (s.conv h.c).kind = h.kind
  found : ∀ c ∈ entered, c ∈ (s.tab (s.conv c).bucket).map Iphash.c
  nodup : ∀ hv, ((s.tab hv).map Iphash.c).Nodup

variable {s : State C} {entered : List C} {sa : IPaddr} {sp : UInt16} {da : IPaddr} {dp : UInt16} {n : Nat}

namespace Sound

theorem setaddr {c : C} {conv : Conv} (h : Sound s entered)
    (hc : c ∈ entered → conv.bucket = (s.conv c).bucket ∧ conv.kind = (s.conv c).kind) :
    Sound (step s (.setaddr c conv)) entered := by
  have hconv (a : C) (ha : a ∈ entered) : (Function.update s.conv c conv a).bucket = (s.conv a).bucket ∧
      (Function.update s.conv c conv a).kind = (s.conv a).kind := by
    by_cases hac : a = c
    case pos =>
      obtain rfl := hac
      rw [Function.update_self]
      exact hc ha
    case neg => rw [Function.update_of_ne hac]; exact ⟨rfl, rfl⟩
  constructor
  case entry =>
    intro hv e he
    obtain ⟨hmem, hbucket, hkind⟩ := h.entry hv e he
    exact ⟨hmem, (hconv e.c hmem).left.trans hbucket, (hconv e.c hmem).right.trans hkind⟩
  case found =>
    intro a ha
    have := h.found a ha
    rwa [← (hconv a ha).left] at this
  case nodup => exact h.nodup

omit [DecidableEq C] in
theorem iphtadd {c : C} (h : Sound s entered) (hc : c ∉ entered) : Sound (s.iphtadd c) (c :: entered) := by
  have hnot (hv : Fin Nipht) : c ∉ (s.tab hv).map Iphash.c := fun hm => by
    obtain ⟨e, he, rfl⟩ := List.mem_map.mp hm
    exact hc (h.entry hv e he).left
  constructor
  case entry =>
    intro hv e he
    by_cases hhv : hv = (s.conv c).bucket
    case pos =>
      obtain rfl := hhv
      rw [State.iphtadd_self, List.mem_cons] at he
      rcases he with rfl | he
      · exact ⟨List.mem_cons_self, rfl, rfl⟩
      · exact (h.entry _ e he).imp_left <| List.mem_cons_of_mem c
    case neg =>
      rw [State.iphtadd_of_ne hhv] at he
      exact (h.entry hv e he).imp_left <| List.mem_cons_of_mem c
  case found =>
    intro a ha
    show a ∈ ((s.iphtadd c).tab (s.conv a).bucket).map Iphash.c
    rcases List.mem_cons.mp ha with rfl | ha
    · rw [State.iphtadd_self]
      exact List.mem_cons_self
    · by_cases hhv : (s.conv a).bucket = (s.conv c).bucket
      case pos =>
        rw [hhv, State.iphtadd_self]
        exact List.mem_cons_of_mem _ <| hhv ▸ h.found a ha
      case neg =>
        rw [State.iphtadd_of_ne hhv]
        exact h.found a ha
  case nodup =>
    intro hv
    by_cases hhv : hv = (s.conv c).bucket
    case pos =>
      obtain rfl := hhv
      rw [State.iphtadd_self]
      exact List.nodup_cons.mpr ⟨hnot _, h.nodup _⟩
    case neg =>
      rw [State.iphtadd_of_ne hhv]
      exact h.nodup hv

theorem iphtrem (h : Sound s entered) (c : C) : Sound (s.iphtrem c) (entered.filter (· ≠ c)) := by
  have herase (l : List (Iphash C)) : (l.eraseP (·.c = c)).map Iphash.c = (l.map Iphash.c).erase c := by
    rw [List.erase_eq_eraseP', List.eraseP_map]
    exact congrArg (List.map _) <| congrArg (List.eraseP · l) <| funext fun e => (beq_eq_decide e.c c).symm
  -- Where it is in no other chain, it is in none now.
  have hne (hv : Fin Nipht) (e : Iphash C) (he : e ∈ (s.iphtrem c).tab hv) : e.c ≠ c ∧ e ∈ s.tab hv := by
    by_cases hhv : hv = (s.conv c).bucket
    case pos =>
      obtain rfl := hhv
      rw [State.iphtrem_self] at he
      refine ⟨fun hec => ?_, List.mem_of_mem_eraseP he⟩
      have hmem := List.mem_map_of_mem (f := Iphash.c) he
      rw [herase, hec] at hmem
      exact (h.nodup _).not_mem_erase hmem
    case neg =>
      rw [State.iphtrem_of_ne hhv] at he
      refine ⟨fun hec => hhv ?_, he⟩
      rw [← hec]
      exact (h.entry hv e he).right.left.symm
  constructor
  case entry =>
    intro hv e he
    obtain ⟨hec, he⟩ := hne hv e he
    obtain ⟨hmem, hplace⟩ := h.entry hv e he
    exact ⟨List.mem_filter.mpr ⟨hmem, by simpa using hec⟩, hplace⟩
  case found =>
    intro a ha
    obtain ⟨ha, hac⟩ := List.mem_filter.mp ha
    have hac : a ≠ c := by simpa using hac
    show a ∈ ((s.iphtrem c).tab (s.conv a).bucket).map Iphash.c
    by_cases hhv : (s.conv a).bucket = (s.conv c).bucket
    case pos =>
      rw [hhv, State.iphtrem_self, herase]
      exact (List.mem_erase_of_ne hac).mpr <| hhv ▸ h.found a ha
    case neg =>
      rw [State.iphtrem_of_ne hhv]
      exact h.found a ha
  case nodup =>
    intro hv
    by_cases hhv : hv = (s.conv c).bucket
    case pos =>
      obtain rfl := hhv
      rw [State.iphtrem_self, herase]
      exact (h.nodup _).erase c
    case neg =>
      rw [State.iphtrem_of_ne hhv]
      exact h.nodup hv

end Sound

theorem invariant : (machine C).Invariant Meets fun s => Sound s.fst s.snd where
  init := by
    rintro ⟨s, entered⟩ ⟨hs, hentered⟩
    obtain rfl : entered = [] := hentered
    have htab (hv : Fin Nipht) : s.tab hv = [] := congrFun (show s.tab = fun _ => [] from hs) hv
    constructor <;> simp [htab]
  step := by
    rintro ⟨s, entered⟩ a ⟨s', entered'⟩ h hm hs
    obtain ⟨hstep, hnote⟩ := Machine.track_step_eq.mp hs
    obtain rfl : step s a = s' := Option.some.inj hstep
    obtain rfl : entered' = note a entered := hnote
    clear hs hstep
    cases a
    case setaddr c conv => exact h.setaddr hm
    case iphtadd c => exact h.iphtadd hm
    case iphtrem c => exact h.iphtrem c

theorem Conv.kind_eq_iff (c : Conv) (kind : Kind) :
    c.kind = kind ↔
      match kind with
      | .IPmatchexact => c.raddr ≠ IPnoaddr
      | .IPmatchpa    => c.raddr = IPnoaddr ∧ c.laddr ≠ IPnoaddr ∧ c.lport ≠ 0
      | .IPmatchport  => c.raddr = IPnoaddr ∧ c.laddr = IPnoaddr ∧ c.lport ≠ 0
      | .IPmatchaddr  => c.raddr = IPnoaddr ∧ c.laddr ≠ IPnoaddr ∧ c.lport = 0
      | .IPmatchany   => c.raddr = IPnoaddr ∧ c.laddr = IPnoaddr ∧ c.lport = 0 := by
  unfold Conv.kind
  split_ifs <;> cases kind <;> simp_all

omit [DecidableEq C] in
-- A loop of `iphtlook` is over the chain where the conversations are that it looks for.
theorem Sound.scan {o : Option C} (h : Sound s entered) (hv : Fin Nipht) (kind : Kind) (p : Conv → Bool)
    (hp : ∀ c : Conv, c.Matches sa sp da dp kind ↔ c.kind = kind ∧ p c = true)
    (hhv : ∀ c : Conv, c.Matches sa sp da dp kind → c.bucket = hv)
    (ho : Best s entered sa sp da dp (kind.precedence + 1) o) :
    Best s entered sa sp da dp kind.precedence ((s.scan hv kind p).or o) := by
  cases hf : (s.tab hv).find? fun h => h.kind = kind ∧ p (s.conv h.c)
  case none =>
    -- There is none that matches in this way.
    have hnone (c : C) (hc : c ∈ entered) : ¬(s.conv c).Matches sa sp da dp kind := fun hm => by
      obtain ⟨e, he, rfl⟩ := List.mem_map.mp <| hhv _ hm ▸ h.found c hc
      refine List.find?_eq_none.mp hf e he ?_
      rw [decide_eq_true_eq]
      exact ⟨(h.entry hv e he).right.right.symm.trans ((hp _).mp hm).left, ((hp _).mp hm).right⟩
    have hlater {kind' : Kind} {c : C} (hc : c ∈ entered) (hle : kind.precedence ≤ kind'.precedence)
        (hm : (s.conv c).Matches sa sp da dp kind') : kind.precedence + 1 ≤ kind'.precedence := by
      refine hle.lt_of_ne fun he => ?_
      obtain rfl : kind = kind' := by revert he; cases kind <;> cases kind' <;> decide
      exact hnone c hc hm
    rw [State.scan, hf, Option.map_none, Option.none_or]
    constructor
    case some =>
      intro c hc
      obtain ⟨hmem, kind', hm, hfirst⟩ := ho.some c hc
      exact ⟨hmem, kind', hm, fun c' hc' k hle hk => hfirst c' hc' k (hlater hc' hle hk) hk⟩
    case none => exact fun hno c hc k hle hk => ho.none hno c hc k (hlater hc hle hk) hk
  case some e =>
    have hfound := List.find?_some hf
    rw [decide_eq_true_eq] at hfound
    obtain ⟨hmem, -, hkind⟩ := h.entry hv e (List.mem_of_find?_eq_some hf)
    rw [State.scan, hf, Option.map_some, Option.some_or]
    constructor
    case some =>
      intro c hc
      obtain rfl := Option.some.inj hc
      exact ⟨hmem, kind, (hp _).mpr ⟨hkind.trans hfound.left, hfound.right⟩, fun _ _ _ hle _ => hle⟩
    case none => exact nofun

omit [DecidableEq C] in
theorem Sound.demuxed (h : Sound s entered) : Demuxed s entered := by
  intro sa sp da dp
  have hany : Best s entered sa sp da dp 4 (s.scan (bucket IPnoaddr 0 IPnoaddr 0) .IPmatchany fun _ => true) := by
    rw [← Option.or_none (o := s.scan _ _ _)]
    have hno : Best s entered sa sp da dp 5 none := by
      constructor
      case some => exact nofun
      case none => exact fun _ c _ kind hle => absurd hle <| by cases kind <;> decide
    refine h.scan _ .IPmatchany _ (fun c => ?_) (fun c hm => ?_) hno
    · simp [Conv.kind_eq_iff, Conv.Matches]
    · rw [← hm.right.right]
      exact bucket_congr ..
  have haddr := h.scan (bucket IPnoaddr 0 da 0) .IPmatchaddr (fun c => da = c.laddr)
    (fun c => by simp only [Conv.kind_eq_iff, Conv.Matches, decide_eq_true_eq]; tauto)
    (fun c hm => by rw [← hm.right.right.left]; exact bucket_congr ..) hany
  have hport := h.scan (bucket IPnoaddr 0 IPnoaddr dp) .IPmatchport (fun c => dp = c.lport)
    (fun c => by simp only [Conv.kind_eq_iff, Conv.Matches, decide_eq_true_eq]; tauto)
    (fun c hm => by rw [← hm.right.right.right]; exact bucket_congr ..) haddr
  have hpa := h.scan (bucket IPnoaddr 0 da dp) .IPmatchpa (fun c => dp = c.lport ∧ da = c.laddr)
    (fun c => by simp only [Conv.kind_eq_iff, Conv.Matches, decide_eq_true_eq]; tauto)
    (fun c hm => by rw [← hm.right.right.right.right]; exact bucket_congr ..) hport
  exact h.scan _ .IPmatchexact _
    (fun c => by simp only [Conv.kind_eq_iff, Conv.Matches, decide_eq_true_eq]; tauto)
    (fun c hm => by rw [← hm.right.right.right.right]; exact bucket_congr ..) hpa

-- Runs that meet the condition.
theorem demultiplexing {s : State C × List C} (hr : (machine C).Reachable Meets s) : Demuxed s.fst s.snd :=
  (invariant.holds hr).demuxed

-- A conversation that is announced at a port.
def announced (lport : UInt16) : Conv where
  raddr := IPnoaddr
  rport := 0
  laddr := IPnoaddr
  lport := lport

def idle : State Nat where
  conv _ := announced 0
  tab _  := []

-- A conversation is announced, another one comes with it to be, and the first one is closed.
theorem demultiplexing_announced : ∃ s : State Nat × List Nat, (machine Nat).Reachable Meets s ∧
    s.fst.iphtlook (fun _ => 1) 1000 (fun _ => 2) 80 = some 1 ∧ Demuxed s.fst s.snd := by
  have hrun : (((machine Nat).guarded Meets).exec (idle, []) [.setaddr 0 (announced 80), .iphtadd 0,
      .setaddr 1 ⟨fun _ => 1, 1000, fun _ => 2, 80⟩, .iphtadd 1, .iphtrem 0]).any (fun s =>
        s.fst.iphtlook (fun _ => 1) 1000 (fun _ => 2) 80 = some 1) = true := by decide +kernel
  obtain ⟨s, hr, hs⟩ := Machine.exists_reachable (show (machine Nat).init (idle, []) from ⟨rfl, rfl⟩) hrun
  exact ⟨s, hr, of_decide_eq_true hs, demultiplexing hr⟩

-- A conversation that is bound to another port while it is announced.
theorem demultiplexing_bound : ∃ s : State Nat × List Nat,
    (machine Nat).exec (idle, []) [.setaddr 0 (announced 80), .iphtadd 0, .setaddr 0 (announced 81)] = some s ∧
      ¬Demuxed s.fst s.snd := by
  refine ⟨_, rfl, fun h => ?_⟩
  have hnone := (h (fun _ => 1) 1000 (fun _ => 2) 81).none (by decide +kernel) 0 List.mem_cons_self
  exact hnone .IPmatchport (Nat.zero_le _) ⟨rfl, rfl, by decide, rfl⟩

end Ip.Ipht
