import Nix.Ip.IprouteSound

-- What is left by adding, removing, looking up and flushing routes, in any order.
namespace Ip.Iproute

open Tree
open Arp (IPaddr)

section

variable {A G : Type} [LinearOrder A] {H : A → Nat} {P : Range A → Prop} {la : A} {n q x : Route A G} {t t' : Tree A G}
  {T : Table A G} {root root' : Nat → Tree A G} {k m : Nat}

-- The trees of a table, with no more than `m` routes in any.
structure Held (H : A → Nat) (P : Range A → Prop) (m : Nat) (T : Table A G) (root : Nat → Tree A G) : Prop where
  sound  : Sound H P T root
  length : ∀ h, (root h).routes.length ≤ m

theorem Held.init (H : A → Nat) (P : Range A → Prop) : Held H P 0 (fun _ => none : Table A G) fun _ => nil :=
  ⟨.init H P, fun _ => le_rfl⟩

-- It has no more than one range that was not there.
theorem Held.next {T' : Table A G} (h : Held H P m T root) (hs : Sound H P T' root') (rt : Range A)
    (hsub : ∀ s x, T' s = some x → s = rt ∨ ∃ y, T s = some y) : Held H P (m + 1) T' root' := by
  refine ⟨hs, fun i => ?_⟩
  have hle := h.sound.length_le hs [rt] (fun s x hx => (hsub s x hx).imp_left List.mem_singleton.mpr) i
  have hm := h.length i
  rw [List.length_singleton] at hle
  omega

theorem Held.add (h : Held H P m T root) (hp : Prefixes H P) (hn : P n.range) (hbare : n.bare = n) (href : n.ref = 1)
    (hk : 1 ≤ k) : ∃ root', eachbucket H n.range (addroute k n) root = some root' ∧ Held H P (m + 1) (T.add n) root' := by
  obtain ⟨root', hroot', hs⟩ := h.sound.add hp hn hbare href hk
  refine ⟨root', hroot', h.next hs n.range fun s x hx => ?_⟩
  by_cases hsn : s = n.range
  · exact .inl hsn
  · rw [Table.add, Function.update_of_ne hsn] at hx
    exact .inr ⟨x, hx⟩

theorem Held.del {rt : Range A} (h : Held H P m T root) (hp : Prefixes H P) (hrt : P rt) (hk : 3 ≤ k) :
    ∃ root', eachbucket H rt (delroute k rt) root = some root' ∧ Held H P (m + 1) (T.del rt) root' := by
  obtain ⟨root', hroot', hs, -⟩ := h.sound.del hp hrt hk
  refine ⟨root', hroot', h.next hs rt fun s x hx => ?_⟩
  by_cases hsrt : s = rt
  · exact .inl hsrt
  · rw [Table.del, Function.update_of_ne hsrt] at hx
    exact .inr ⟨x, hx⟩

theorem Held.lookup (h : Held H P m T root) (hp : Prefixes H P) (ifcs : Ifcs) (gate : Route A G → IPaddr) (la : A) :
    Held H P (m + 1) T (Function.update root (H la) (lookup ifcs gate la (root (H la))).snd) :=
  h.next (h.sound.lookup hp ifcs gate la).left ⟨la, la, le_rfl⟩ fun _ x hx => .inr ⟨x, hx⟩

theorem Held.flush {del : Range A → (Nat → Tree A G) → Option (Nat → Tree A G)} (h : Held H P m T root) (hp : Prefixes H P)
    (tag : Option (List UInt8)) (hdel : Deletes H P del) (hk : m < k) : ∃ root', flush del tag k root = some root' ∧
      Held H P (m + 1) (T.flush tag) root' ∧ Without (flushed tag · = true) root root' := by
  obtain ⟨root', hroot', hs, hwithout⟩ := h.sound.flush hp tag hdel fun i _ => (h.length i).trans_lt hk
  refine ⟨root', hroot', ⟨hs, fun i => ?_⟩, hwithout⟩
  exact (hwithout.length_le (hs.ordered i)).trans ((h.length i).trans m.le_succ)

theorem search_sub (ht : t.Ordered) (ht' : t'.Ordered) (hsub : ∀ x ∈ t'.routes, x ∈ t.routes) (hq : search la none t = some q)
    (hmem : q ∈ t'.routes) : search la none t' = some q := by
  rcases search_spec ht (none : Option (Route A G)) with ⟨hnone, -⟩ | ⟨q', hq', hlongest⟩
  · rw [hnone] at hq
    exact absurd hq (by simp)
  obtain rfl := Option.some.inj (hq'.symm.trans hq)
  obtain ⟨-, hla, hmost⟩ := hlongest
  rcases search_spec ht' (none : Option (Route A G)) with ⟨-, hne⟩ | ⟨y, hy, hyt, hyla, hymost⟩
  · exact absurd hla (hne q' hmem)
  · rcases hmost y (hsub y hyt) hyla with rfl | hwithin
    · exact hy
    · rcases hymost q' hmem hla with rfl | hwithin'
      · exact hy
      · exact absurd hwithin' hwithin.asymm

theorem lookup_without {tag : Option (List UInt8)} {ifcs : Ifcs} {gate : Route A G → IPaddr} (ht : t.Ordered)
    (ht' : t'.Ordered) (hwithout : ∀ x, x ∈ t'.routes ↔ x ∈ t.routes ∧ ¬flushed tag x = true)
    (hx : (lookup ifcs gate la t).fst = some x) (hkeep : flushed tag x = false) : (lookup ifcs gate la t').fst = some x := by
  rw [lookup] at hx ⊢
  rcases search_spec ht (none : Option (Route A G)) with ⟨hnone, -⟩ | ⟨q, hq, hqt, -⟩
  · rw [hnone] at hx
    exact absurd hx (by simp)
  rw [hq] at hx
  dsimp only at hx
  split at hx
  case h_1         => exact absurd hx (by simp)
  case h_2 x' hres =>
    obtain rfl := Option.some.inj hx
    have hflushed : flushed tag q = false := by
      rw [← flushed_bare, ← (resolve_spec hres).left]
      exact hkeep
    have hqt' : q ∈ t'.routes := (hwithout q).mpr ⟨hqt, by rw [hflushed]; decide⟩
    rw [search_sub ht ht' (fun y hy => ((hwithout y).mp hy).left) hq hqt']
    dsimp only
    rw [hres]

end

theorem mask_eq (w mask : BitVec 32) : ~~~((w ||| ~~~mask) ^^^ (w &&& mask)) = mask := by
  refine BitVec.eq_of_getLsbD_eq fun i hi => ?_
  simp only [BitVec.getLsbD_not, BitVec.getLsbD_xor, BitVec.getLsbD_or, BitVec.getLsbD_and, hi]
  cases w.getLsbD i <;> cases mask.getLsbD i <;> rfl

theorem and_or_mask (w mask : BitVec 32) : w &&& mask ||| ~~~mask = w ||| ~~~mask := by
  refine BitVec.eq_of_getLsbD_eq fun i hi => ?_
  simp only [BitVec.getLsbD_not, BitVec.getLsbD_or, BitVec.getLsbD_and, hi]
  cases w.getLsbD i <;> cases mask.getLsbD i <;> rfl

theorem and_and_mask (w mask : BitVec 32) : w &&& mask &&& mask = w &&& mask := by
  rw [BitVec.and_assoc, BitVec.and_self]

theorem V4.range_conv (a mask : V4) : v4range (V4.conv (v4range a mask)).fst (V4.conv (v4range a mask)).snd = v4range a mask := by
  simp only [V4.conv, v4range, and_or_mask, mask_eq, and_and_mask]

theorem V6.range_conv (a mask : V6) : v6range (V6.conv (v6range a mask)).fst (V6.conv (v6range a mask)).snd = v6range a mask := by
  simp only [V6.conv, v6range, and_or_mask, mask_eq, and_and_mask]

theorem v4delroute_deletes {k : Nat} (hk : 3 ≤ k) (f : Fs) : Deletes V4H V4.Prefix fun rt root => do
    let f ← v4delroute k (V4.conv rt).fst (V4.conv rt).snd { f with v4root := root }
    return f.v4root := by
  rintro T rt root hs ⟨a, mask, n, hmask, rfl⟩ hone
  obtain ⟨root', hroot', hs', hwithout⟩ := hs.del V4.prefixes ⟨a, mask, n, hmask, rfl⟩ hk
  refine ⟨_, root', ?_, hs', hwithout hone⟩
  simp only [v4delroute, V4.range_conv]
  rw [hroot']
  rfl

theorem v6delroute_deletes {k : Nat} (hk : 3 ≤ k) (f : Fs) : Deletes V6H V6.Prefix fun rt root => do
    let f ← v6delroute k (V6.conv rt).fst (V6.conv rt).snd { f with v6root := root }
    return f.v6root := by
  rintro T rt root hs ⟨a, mask, n, hmask, rfl⟩ hone
  obtain ⟨root', hroot', hs', hwithout⟩ := hs.del V6.prefixes ⟨a, mask, n, hmask, rfl⟩ hk
  refine ⟨_, root', ?_, hs', hwithout hone⟩
  simp only [v6delroute, V6.range_conv]
  rw [hroot']
  rfl

inductive Op
  | v4addroute (tag : Tag) (a mask : V4) (gate : V4gate) (type : UInt8)
  | v6addroute (tag : Tag) (a mask : V6) (gate : IPaddr) (type : UInt8)
  | v4delroute (a mask : V4)
  | v6delroute (a mask : V6)
  | v4lookup (ifcs : Ifcs) (a : V4)
  | v6lookup (ifcs : Ifcs) (a : V6)
  | flush (tag : Option (List UInt8))

-- The routes of both versions.
structure Tables where
  v4 : Table V4 V4gate
  v6 : Table V6 IPaddr

namespace Op

def run (k : Nat) (f : Fs) : Op → Option Fs
  | v4addroute tag a mask gate type => Iproute.v4addroute k tag a mask gate type f
  | v6addroute tag a mask gate type => Iproute.v6addroute k tag a mask gate type f
  | v4delroute a mask               => Iproute.v4delroute k a mask f
  | v6delroute a mask               => Iproute.v6delroute k a mask f
  | v4lookup ifcs a                 => some (Iproute.v4lookup ifcs a f).snd
  | v6lookup ifcs a                 => some (Iproute.v6lookup ifcs a f).snd
  | flush tag                       => routeflushes k k tag f

-- The masks are of prefixes, and no route of version 6 says that it is of version 4.
def Good : Op → Prop
  | v4addroute _ _ mask _ _    => ∃ n, V4.Contiguous mask n
  | v6addroute _ _ mask _ type => type &&& Rv4 = 0 ∧ ∃ n, V6.Contiguous mask n
  | v4delroute _ mask          => ∃ n, V4.Contiguous mask n
  | v6delroute _ mask          => ∃ n, V6.Contiguous mask n
  | _                          => True

def tables (T : Tables) : Op → Tables
  | v4addroute tag a mask gate type => { T with v4 := T.v4.add ⟨Rv4 ||| type, 0, none, tag, 1, v4range a mask, gate⟩ }
  | v6addroute tag a mask gate type => { T with v6 := T.v6.add ⟨type, 0, none, tag, 1, v6range a mask, gate⟩ }
  | v4delroute a mask               => { T with v4 := T.v4.del (v4range a mask) }
  | v6delroute a mask               => { T with v6 := T.v6.del (v6range a mask) }
  | v4lookup _ _                    => T
  | v6lookup _ _                    => T
  | flush tag                       => ⟨T.v4.flush tag, T.v6.flush tag⟩

end Op

def run (k : Nat) (ops : List Op) : Option Fs :=
  ops.foldlM (Op.run k) .init

def tables (ops : List Op) : Tables :=
  ops.foldl Op.tables ⟨fun _ => none, fun _ => none⟩

structure Kept (m : Nat) (T : Tables) (f : Fs) : Prop where
  v4 : Held V4H V4.Prefix m T.v4 f.v4root
  v6 : Held V6H V6.Prefix m T.v6 f.v6root

section

variable {m k : Nat} {T : Tables} {f : Fs}

theorem Held.succ {A G : Type} [LinearOrder A] {H : A → Nat} {P : Range A → Prop} {T : Table A G} {root : Nat → Tree A G}
    (h : Held H P m T root) : Held H P (m + 1) T root :=
  ⟨h.sound, fun i => (h.length i).trans m.le_succ⟩

theorem Kept.v4lookup (h : Kept m T f) (ifcs : Ifcs) (a : V4) : Kept (m + 1) T (v4lookup ifcs a f).snd :=
  ⟨h.v4.lookup V4.prefixes ifcs v4gate a, h.v6.succ⟩

theorem lookup_none {A G : Type} [LinearOrder A] {ifcs : Ifcs} {gate : Route A G → IPaddr} {la : A} {t : Tree A G}
    (h : (lookup ifcs gate la t).fst = none) : (lookup ifcs gate la t).snd = t := by
  rw [lookup] at h ⊢
  split
  case h_1 => rfl
  case h_2 q hq =>
    rw [hq] at h
    dsimp only at h
    split at h
    case h_1        => rfl
    case h_2 x hres => exact absurd h (by simp)

theorem v4lookup_none {ifcs : Ifcs} {a : V4} (h : (v4lookup ifcs a f).fst = none) : (v4lookup ifcs a f).snd = f := by
  change { f with v4root := Function.update f.v4root (V4H a) (lookup ifcs v4gate a (f.v4root (V4H a))).snd } = f
  rw [lookup_none h, Function.update_eq_self]

theorem v6lookup_eq (ifcs : Ifcs) (a : V6) (f : Fs) :
    (∃ q, (v4lookup ifcs ⟨a.word 3⟩ f).fst = some q ∧ a.isv4 = true ∧
      v6lookup ifcs a f = (some (.inl q), (v4lookup ifcs ⟨a.word 3⟩ f).snd)) ∨
    ((a.isv4 = true → (v4lookup ifcs ⟨a.word 3⟩ f).fst = none) ∧ v6lookup ifcs a f =
      ((lookup ifcs v6gate a (f.v6root (V6H a))).fst.map .inr,
        { f with v6root := Function.update f.v6root (V6H a) (lookup ifcs v6gate a (f.v6root (V6H a))).snd })) := by
  rw [v6lookup]
  by_cases hv4 : a.isv4 = true
  · rw [if_pos hv4]
    cases hq : (v4lookup ifcs ⟨a.word 3⟩ f).fst
    case none   =>
      have hsame : v4lookup ifcs ⟨a.word 3⟩ f = (none, f) := Prod.ext hq (v4lookup_none hq)
      rw [hsame]
      exact .inr ⟨fun _ => rfl, rfl⟩
    case some q =>
      have hfst : v4lookup ifcs ⟨a.word 3⟩ f = (some q, (v4lookup ifcs ⟨a.word 3⟩ f).snd) := Prod.ext hq rfl
      refine .inl ⟨q, rfl, hv4, ?_⟩
      rw [hfst]
  · rw [if_neg hv4]
    exact .inr ⟨fun h => absurd h hv4, rfl⟩

theorem v6lookup_inl {ifcs : Ifcs} {a : V6} {q : Route V4 V4gate} : (v6lookup ifcs a f).fst = some (.inl q) ↔
    a.isv4 = true ∧ (v4lookup ifcs ⟨a.word 3⟩ f).fst = some q := by
  rcases v6lookup_eq ifcs a f with ⟨q', hq', hv4, heq⟩ | ⟨hnone, heq⟩
  · rw [heq, hq', hv4]
    simp
  · rw [heq]
    refine iff_of_false (by simp [Option.map_eq_some_iff]) fun h => ?_
    rw [hnone h.left] at h
    exact absurd h.right (by simp)

theorem v6lookup_inr {ifcs : Ifcs} {a : V6} {q : Route V6 IPaddr} (hv4 : a.isv4 = false) :
    (v6lookup ifcs a f).fst = some (.inr q) ↔ (lookup ifcs v6gate a (f.v6root (V6H a))).fst = some q := by
  rcases v6lookup_eq ifcs a f with ⟨q', hq', hv4', heq⟩ | ⟨hnone, heq⟩
  · rw [hv4] at hv4'
    exact absurd hv4' (by decide)
  · rw [heq]
    simp [Option.map_eq_some_iff]

theorem Kept.v6lookup (h : Kept m T f) (ifcs : Ifcs) (a : V6) : Kept (m + 1) T (v6lookup ifcs a f).snd := by
  rcases v6lookup_eq ifcs a f with ⟨q, -, -, heq⟩ | ⟨-, heq⟩
  · rw [heq]
    exact h.v4lookup ifcs ⟨a.word 3⟩
  · rw [heq]
    exact ⟨h.v4.succ, h.v6.lookup V6.prefixes ifcs v6gate a⟩

theorem Kept.flush (h : Kept m T f) (tag : Option (List UInt8)) (hk : m + 3 ≤ k) :
    ∃ f', routeflushes k k tag f = some f' ∧ Kept (m + 1) ⟨T.v4.flush tag, T.v6.flush tag⟩ f' ∧
      Without (flushed tag · = true) f.v4root f'.v4root ∧ Without (flushed tag · = true) f.v6root f'.v6root := by
  have hk3 : 3 ≤ k := by omega
  have hmk : m < k := by omega
  obtain ⟨v4root, hv4root, hv4, hwithout4⟩ := h.v4.flush V4.prefixes tag (v4delroute_deletes hk3 f) hmk
  obtain ⟨v6root, hv6root, hv6, hwithout6⟩ := h.v6.flush V6.prefixes tag (v6delroute_deletes hk3 f) hmk
  refine ⟨⟨v4root, v6root⟩, ?_, ⟨hv4, hv6⟩, hwithout4, hwithout6⟩
  rw [routeflushes, hv4root, Option.bind_eq_bind, Option.bind_some, hv6root]
  rfl

-- What one step preserves.
theorem Kept.run (h : Kept m T f) {op : Op} (hop : op.Good) (hk : m + 3 ≤ k) :
    ∃ f', op.run k f = some f' ∧ Kept (m + 1) (op.tables T) f' := by
  have hk3 : 3 ≤ k := by omega
  cases op
  case v4addroute tag a mask gate type =>
    obtain ⟨n, hmask⟩ := hop
    obtain ⟨v4root, hv4root, hv4⟩ := @Held.add _ _ _ _ _ ⟨Rv4 ||| type, 0, none, tag, 1, v4range a mask, gate⟩ _ _ k m
      h.v4 V4.prefixes ⟨a, mask, n, hmask, rfl⟩ rfl rfl (by omega)
    refine ⟨{ f with v4root }, ?_, hv4, h.v6.succ⟩
    rw [Op.run, v4addroute, hv4root]
    rfl
  case v6addroute tag a mask gate type =>
    obtain ⟨-, n, hmask⟩ := hop
    obtain ⟨v6root, hv6root, hv6⟩ := @Held.add _ _ _ _ _ ⟨type, 0, none, tag, 1, v6range a mask, gate⟩ _ _ k m
      h.v6 V6.prefixes ⟨a, mask, n, hmask, rfl⟩ rfl rfl (by omega)
    refine ⟨{ f with v6root }, ?_, h.v4.succ, hv6⟩
    rw [Op.run, v6addroute, hv6root]
    rfl
  case v4delroute a mask =>
    obtain ⟨n, hmask⟩ := hop
    obtain ⟨v4root, hv4root, hv4⟩ := h.v4.del V4.prefixes ⟨a, mask, n, hmask, rfl⟩ hk3
    refine ⟨{ f with v4root }, ?_, hv4, h.v6.succ⟩
    rw [Op.run, v4delroute, hv4root]
    rfl
  case v6delroute a mask =>
    obtain ⟨n, hmask⟩ := hop
    obtain ⟨v6root, hv6root, hv6⟩ := h.v6.del V6.prefixes ⟨a, mask, n, hmask, rfl⟩ hk3
    refine ⟨{ f with v6root }, ?_, h.v4.succ, hv6⟩
    rw [Op.run, v6delroute, hv6root]
    rfl
  case v4lookup ifcs a => exact ⟨_, rfl, h.v4lookup ifcs a⟩
  case v6lookup ifcs a => exact ⟨_, rfl, h.v6lookup ifcs a⟩
  case flush tag =>
    obtain ⟨f', hf', hkept, -⟩ := h.flush tag hk
    exact ⟨f', hf', hkept⟩

-- And what a run of them does.
theorem Kept.runs {ops : List Op} (h : Kept m T f) (hops : ∀ op ∈ ops, op.Good) (hk : m + ops.length + 3 ≤ k) :
    ∃ f', ops.foldlM (Op.run k) f = some f' ∧ Kept (m + ops.length) (ops.foldl Op.tables T) f' := by
  induction ops generalizing m T f
  case nil            => exact ⟨f, rfl, h⟩
  case cons op ops ih =>
    rw [List.length_cons] at hk
    have hk0 : m + 3 ≤ k := by omega
    obtain ⟨f1, hf1, h1⟩ := h.run (hops op List.mem_cons_self) hk0
    have hk1 : m + 1 + ops.length + 3 ≤ k := by omega
    obtain ⟨f', hf', h'⟩ := ih h1 (fun op' hop' => hops op' (List.mem_cons_of_mem op hop')) hk1
    refine ⟨f', ?_, ?_⟩
    · rw [List.foldlM_cons, hf1]
      exact hf'
    · rw [List.length_cons, List.foldl_cons, ← Nat.add_assoc, Nat.add_right_comm]
      exact h'

theorem run_kept {ops : List Op} (hops : ∀ op ∈ ops, op.Good) (hk : ops.length + 3 ≤ k) :
    ∃ f, run k ops = some f ∧ Kept ops.length (tables ops) f := by
  obtain ⟨f, hf, hkept⟩ := @Kept.runs 0 k ⟨fun _ => none, fun _ => none⟩ .init ops ⟨.init .., .init ..⟩ hops (by omega)
  rw [Nat.zero_add] at hkept
  exact ⟨f, hf, hkept⟩

-- Two prefixes, one in the other, and one of an interface.
def sample : List Op :=
  [.v4addroute (fun _ => 0x72) ⟨0x0a000000⟩ ⟨0xff000000⟩ (fun _ => 1) 0,
    .v4addroute (fun _ => 0x73) ⟨0x0a010000⟩ ⟨0xffff0000⟩ (fun _ => 2) 0,
    .v6addroute (fun _ => 0x72) ⟨fun _ => 0⟩ ⟨fun _ => 0⟩ (fun _ => 3) Rifc]

theorem sample_good : ∀ op ∈ sample, op.Good := by
  have h8 : V4.Contiguous ⟨0xff000000⟩ 24 := ⟨by decide, by decide⟩
  have h16 : V4.Contiguous ⟨0xffff0000⟩ 16 := ⟨by decide, by decide⟩
  have h0 : V6.Contiguous ⟨fun _ => 0⟩ 128 := ⟨le_rfl, by decide⟩
  simp only [sample, List.forall_mem_cons]
  exact ⟨⟨24, h8⟩, ⟨16, h16⟩, ⟨by decide, 128, h0⟩, by simp⟩

end

end Ip.Iproute
