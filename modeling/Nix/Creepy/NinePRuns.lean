import Nix.Creepy.NineP

namespace Creepy.NineP

open Fblk (Fault)
open Libc (Qid convS2M sizeS2M sizeD2M text)
open Readdir (Stat packed)

variable {s s' : State} {t : Body} {ans : Answer} {msize : UInt32} {r : Except Err Body} {tag : UInt16}

def negotiate (msize : UInt32) : Body → UInt32
  | .Tversion m _ => if m > Maxmdata then Maxmdata else m
  | _             => msize

def Err.room (e : Err) : Nat :=
  9 + e.val.bytes.length

-- The room that there must be for the reply to a request. That for a stat is looked at by the server, which does not
-- expect to have less than the header to count.
def room : Body → Answer → Nat
  | .Tversion _ version, _                => if (text version).take 6 = version9P.bytes then 19 else 33
  | .Tread .., .read _ (some e)           => Err.room e
  | .Tread _ offset count, .read o none   => 11 + o.there count.toNat offset.toInt64.toInt
  | .Twalk fid newfid wname, .walk qids e =>
    if fid = newfid ∧ wname.length > 1 then 44 else if qids = [] ∧ wname ≠ [] then Err.room e else 9 + 13 * qids.length
  | _, .error e                           => Err.room e
  | .Tstat _, _                           => IOHDRSZ.toNat
  | .Tauth .., _ | .Tattach .., _         => 20
  | .Topen .., _ | .Tcreate .., _         => 24
  | .Twrite .., _                         => 11
  | _, _                                  => 7

-- A request that is within the bounds: a read does not ask for more than a message has room for, there is room for the
-- reply in the size that was negotiated, and no reply is waiting that is too large for the size that is negotiated now.
structure Admits (s : State) (t : Body) (ans : Answer) : Prop where
  asks : ∀ n ∈ State.asks t ans, n ≤ datasz
  room : s.negotiated = true ∨ t.type = .Tversion → room t ans ≤ (negotiate s.msize t).toNat
  held : t.type = .Tversion →
    ∀ rpc ∈ s.rpcs, ∀ r ∈ rpc.r, rpc.flushed = false → r.size ≤ (negotiate s.msize t).toNat

def Bounded (s : State) : Act → Prop
  | .work i ans => ∀ rpc ∈ s.rpcs[i]?, Admits s rpc.t.body ans
  | _           => True

instance (s : State) (t : Body) (ans : Answer) : Decidable (Admits s t ans) :=
  decidable_of_iff
    ((∀ n ∈ State.asks t ans, n ≤ datasz) ∧
      (s.negotiated = true ∨ t.type = .Tversion → room t ans ≤ (negotiate s.msize t).toNat) ∧
      (t.type = .Tversion →
        ∀ rpc ∈ s.rpcs, ∀ r ∈ rpc.r, rpc.flushed = false → r.size ≤ (negotiate s.msize t).toNat))
    ⟨fun ⟨hasks, hroom, hheld⟩ => ⟨hasks, hroom, hheld⟩, fun h => ⟨h.asks, h.room, h.held⟩⟩

instance (s : State) : (act : Act) → Decidable (Bounded s act)
  | .recv _     => isTrue trivial
  | .work i ans => inferInstanceAs (Decidable (∀ rpc ∈ s.rpcs[i]?, Admits s rpc.t.body ans))
  | .reply _    => isTrue trivial

-- No reply is larger than the size that was negotiated, and nothing is stored behind the buffer.
structure Safe (s : State) : Prop where
  packed : ∀ w ∈ s.packed, ∀ m ∈ w.2, w.1.length ≤ m.toNat
  asked  : ∀ n ∈ s.asked, n ≤ datasz

-- The replies that wait fit as well.
structure Inv (s : State) : Prop extends Safe s where
  rpcs : s.negotiated = true → ∀ rpc ∈ s.rpcs, ∀ r ∈ rpc.r, rpc.flushed = false → r.size ≤ s.msize.toNat

-- A reply fits in a message of some size.
def Fits (msize : UInt32) (r : Except Err Body) : Prop :=
  ∀ tag, ({ tag, body := State.body r } : Msg).size ≤ msize.toNat

theorem fits_error {e : Err} (h : Err.room e ≤ msize.toNat) : Fits msize (.error e) := by
  intro tag
  simp only [State.body, Libc.Fcall.size, Libc.stringsz, Libc.BIT8SZ, Libc.BIT16SZ, Libc.BIT32SZ]
  rw [Err.room] at h
  omega

theorem rversion_fst (m : UInt32) (version : Option Libc.CStr) : (rversion m version).fst = negotiate msize (.Tversion m version) := by
  rw [rversion, negotiate]
  split
  · rfl
  · rfl

theorem rversion_fits {m n : UInt32} {version : Option Libc.CStr} (hr : rversion m version = (n, r))
    (h : room (.Tversion m version) ans ≤ n.toNat) : Fits n r := by
  rw [room] at h
  rw [rversion] at hr
  split at hr
  case isTrue hne =>
    cases hr
    rw [if_neg hne] at h
    exact fits_error h
  case isFalse heq =>
    cases hr
    rw [if_pos (not_not.mp heq)] at h
    exact fun _ => h

theorem rstat_fits {st : Stat} (hr : rstat msize st = some r) (h : IOHDRSZ.toNat ≤ msize.toNat) : Fits msize r := by
  have hle : IOHDRSZ ≤ msize := UInt32.le_iff_toNat_le.mpr h
  have hsub : (msize - IOHDRSZ).toNat = msize.toNat - 24 := UInt32.toNat_sub_of_le _ _ hle
  rw [rstat] at hr
  by_cases hlong : (msize - IOHDRSZ).toNat < (packed st).length
  case pos =>
    simp only [Readdir.convD2M_short st hlong, if_true] at hr
    cases hr
  case neg =>
    have hsize : sizeD2M st ≤ (msize - IOHDRSZ).toNat := Readdir.sizeD2M_eq_length st ▸ Nat.not_lt.mp hlong
    rw [Libc.convD2M_eq hsize, Readdir.sizeD2M_eq_length] at hr
    simp only [Nat.not_le.mpr (Readdir.packed_gt st), if_false] at hr
    cases hr
    intro tag
    have h24 : 24 ≤ msize.toNat := h
    have hlen : (packed st).length ≤ msize.toNat - 24 := hsub ▸ Nat.not_lt.mp hlong
    simp only [State.body, Libc.Fcall.size, Libc.BIT8SZ, Libc.BIT16SZ, Libc.BIT32SZ]
    rw [packed] at hlen
    omega

theorem rwalk_fits {fid newfid : UInt32} {wname : List (Option Libc.CStr)} {qids : List Qid} {e : Err}
    (hr : rwalk fid newfid wname qids e = some r) (h : room (.Twalk fid newfid wname) (.walk qids e) ≤ msize.toNat) :
    Fits msize r := by
  rw [room] at h
  rw [rwalk] at hr
  split at hr
  case isTrue hclone =>
    cases hr
    rw [if_pos hclone] at h
    exact fits_error h
  case isFalse hclone =>
    rw [if_neg hclone] at h
    split at hr
    case isTrue => cases hr
    case isFalse =>
      cases hr
      split at h
      case isTrue hnone =>
        rw [if_pos hnone]
        exact fits_error h
      case isFalse hsome =>
        rw [if_neg hsome]
        intro tag
        simp only [State.body, Libc.Fcall.size, Libc.QIDSZ, Libc.BIT8SZ, Libc.BIT16SZ, Libc.BIT32SZ, Libc.BIT64SZ]
        omega

theorem room_error {e : Err} (ht : ∀ m version, t = .Tversion m version → False) : room t (.error e) = Err.room e := by
  cases t
  case Tversion m version => exact (ht m version rfl).elim
  all_goals rfl

theorem handle_fits (hh : handle msize t ans = some r) (h : room t ans ≤ msize.toNat) : Fits msize r := by
  revert hh h
  fun_cases handle msize t ans
  all_goals
    intro hh h
  case case2 fid offset count o data hread =>
    cases hh
    have hlen := rread_length hread
    intro tag
    simp only [State.body, Libc.Fcall.size, Libc.BIT8SZ, Libc.BIT16SZ, Libc.BIT32SZ]
    rw [room] at h
    omega
  case case3 =>
    cases hh
    exact fits_error h
  case case5 => exact rwalk_fits hh h
  case case6 => exact rstat_fits hh h
  case case18 ht _ =>
    cases hh
    rw [room_error ht] at h
    exact fits_error h
  all_goals
    cases hh
    try exact fun _ => h

theorem fcalls_fits {n : UInt32} (hf : fcalls msize t ans = some (n, r)) (h : room t ans ≤ (negotiate msize t).toNat) :
    n = negotiate msize t ∧ Fits n r := by
  revert hf
  fun_cases fcalls msize t ans
  case case1 m version =>
    intro hf
    have hr := Option.some.inj hf
    have hn : n = negotiate msize (.Tversion m version) := by rw [← rversion_fst, hr]
    exact ⟨hn, rversion_fits hr (hn ▸ h)⟩
  case case2 =>
    intro hf
    obtain ⟨r', hr, he⟩ := Option.map_eq_some_iff.mp hf
    cases he
    have hn : negotiate msize t = msize := by
      cases t
      case Tversion => cases hr
      all_goals rfl
    exact ⟨hn.symm, handle_fits hr (hn ▸ h)⟩

theorem of_mem_modify {α : Type*} {l : List α} {i : Nat} {f : α → α} {y : α} (h : y ∈ l.modify i f) :
    y ∈ l ∨ ∃ x, l[i]? = some x ∧ y = f x := by
  obtain ⟨j, hj⟩ := List.mem_iff_getElem?.mp h
  rw [List.getElem?_modify] at hj
  obtain ⟨x, hx, he⟩ := Option.map_eq_some_iff.mp hj
  split at he
  case isTrue hij => exact .inr ⟨x, hij ▸ hx, he.symm⟩
  case isFalse => exact .inl (he ▸ List.mem_of_getElem? hx)

theorem of_mem_rflush {rpc : Rpc} (h : rpc ∈ s.rflush t) :
    ∃ rpc' ∈ s.rpcs, rpc'.r = rpc.r ∧ (rpc.flushed = false → rpc'.flushed = false) := by
  cases t
  case Tflush oldtag =>
    rcases of_mem_modify h with hmem | ⟨rpc', hget, rfl⟩
    · exact ⟨rpc, hmem, rfl, id⟩
    · exact ⟨rpc', List.mem_of_getElem? hget, rfl, nofun⟩
  all_goals exact ⟨rpc, h, rfl, id⟩

theorem work_eq_some {i : Nat} (h : s.work i ans = some s') :
    ∃ rpc, s.rpcs[i]? = some rpc ∧ ∃ msize r, fcalls s.msize rpc.t.body ans = some (msize, r) ∧
      s' = { s with
        msize      := msize
        rpcs       := (s.rflush rpc.t.body).modify i fun rpc => { rpc with r := some { tag := rpc.t.tag, body := State.body r } }
        negotiated := s.negotiated || rpc.t.body.type = .Tversion
        asked      := s.asked ++ State.asks rpc.t.body ans } := by
  obtain ⟨rpc, hget, h⟩ := Option.bind_eq_some_iff.mp h
  split at h
  case isTrue => cases h
  case isFalse =>
    obtain ⟨⟨msize, r⟩, hf, h⟩ := Option.bind_eq_some_iff.mp h
    exact ⟨rpc, hget, msize, r, hf, (Option.some.inj h).symm⟩

theorem Inv.recv {t : Msg} (h : Inv s) (hs : s.cliworker9p t = some s') : Inv s' := by
  rw [State.cliworker9p] at hs
  split at hs
  case isFalse => exact Option.some.inj hs ▸ h
  case isTrue =>
    cases hs
    refine { packed := h.packed, asked := h.asked, rpcs := fun hneg rpc hmem => ?_ }
    rcases List.mem_cons.mp hmem with rfl | hold
    · exact nofun
    · exact h.rpcs hneg rpc hold

theorem Inv.work {i : Nat} (h : Inv s) (hb : Bounded s (.work i ans)) (hs : s.work i ans = some s') : Inv s' := by
  obtain ⟨rpc, hget, msize, r, hf, rfl⟩ := work_eq_some hs
  have hadm : Admits s rpc.t.body ans := hb rpc hget
  refine { packed := h.packed, asked := fun n hn => ?asked, rpcs := fun hneg rpc' hrpc => ?rpcs }
  case asked =>
    rcases List.mem_append.mp hn with hold | hnew
    · exact h.asked n hold
    · exact hadm.asks n hnew
  case rpcs =>
    simp only [Bool.or_eq_true, decide_eq_true_iff] at hneg
    obtain ⟨hn, hfits⟩ := fcalls_fits hf (hadm.room hneg)
    rcases of_mem_modify hrpc with hold | ⟨rpc'', -, rfl⟩
    case inr =>
      intro r' hr' _
      cases hr'
      exact hfits _
    case inl =>
      obtain ⟨rpc₀, hmem, hr, hflushed⟩ := of_mem_rflush hold
      intro r' hr' hnot
      rw [← hr] at hr'
      by_cases ht : rpc.t.body.type = .Tversion
      case pos => exact hn ▸ hadm.held ht rpc₀ hmem r' hr' (hflushed hnot)
      case neg =>
        have hsame : msize = s.msize := by
          rw [hn]
          cases hbody : rpc.t.body
          case Tversion => exact absurd (by rw [hbody]; rfl) ht
          all_goals rfl
        exact hsame ▸ h.rpcs (hneg.resolve_right ht) rpc₀ hmem r' hr' (hflushed hnot)

theorem convS2M_length {f : Msg} {nap n : Nat} {p : List UInt8} (h : convS2M f nap = (n, p)) (hn : n ≠ 0) :
    p.length ≤ f.size := by
  have hmod : sizeS2M f ≤ f.size := Nat.mod_le _ _
  simp only [convS2M] at h
  split at h
  case isTrue => cases h; exact absurd rfl hn
  case isFalse =>
    split at h
    case isTrue => cases h; exact absurd rfl hn
    case isFalse =>
      split at h
      case h_1 => cases h; exact absurd rfl hn
      case h_2 =>
        split at h
        case isTrue => cases h; exact absurd rfl hn
        case isFalse heq =>
          cases h
          exact (not_not.mp heq) ▸ hmod

theorem Inv.reply {i : Nat} (h : Inv s) (hs : s.reply i = some s') : Inv s' := by
  obtain ⟨rpc, hget, hs⟩ := Option.bind_eq_some_iff.mp hs
  obtain ⟨r, hr, hs⟩ := Option.bind_eq_some_iff.mp hs
  have hrest : ∀ rpc ∈ s.rpcs.eraseIdx i, rpc ∈ s.rpcs := fun _ hmem => List.mem_of_mem_eraseIdx hmem
  split at hs
  case isTrue =>
    cases hs
    exact { packed := h.packed, asked := h.asked, rpcs := fun hneg rpc' hmem => h.rpcs hneg rpc' (hrest rpc' hmem) }
  case isFalse hflushed =>
    simp only at hs
    split at hs
    case isTrue => cases hs
    case isFalse hn =>
      cases hs
      refine { packed := fun w hw m hm => ?packed, asked := h.asked,
               rpcs   := fun hneg rpc' hmem => h.rpcs hneg rpc' (hrest rpc' hmem) }
      rcases List.mem_append.mp hw with hold | hnew
      case inl => exact h.packed w hold m hm
      case inr =>
        cases List.mem_singleton.mp hnew
        obtain ⟨hneg, hm⟩ := Option.ite_none_right_eq_some.mp hm
        have hsize := h.rpcs hneg rpc (List.mem_of_getElem? hget) r hr (Bool.eq_false_of_not_eq_true hflushed)
        exact (convS2M_length rfl hn).trans (Option.some.inj hm ▸ hsize)

theorem inv_invariant : machine.Invariant Bounded Inv where
  init := by
    rintro s rfl
    exact { packed := nofun, asked := nofun, rpcs := nofun }
  step {_ act _} h hc hs := by
    cases act
    case recv t => exact h.recv hs
    case work i ans => exact h.work hc hs
    case reply i => exact h.reply hs

-- In a run in which every request is within the bounds, so are the replies, and what is stored.
theorem replies_bounded (hr : machine.Reachable Bounded s) : Safe s :=
  (inv_invariant.holds hr).toSafe

-- A client negotiates a size and reads from the statistics.
def session (msize count : UInt32) (buf : Libc.CStr) : List Act := [
  .recv { tag := 0xFFFF, body := .Tversion msize (some version9P) }, .work 0 .done, .reply 0,
  .recv { tag := 1, body := .Tread 5 0 count }, .work 0 (.read (.stats buf) none), .reply 0]

def served : State :=
  ((machine.guarded Bounded).exec newcli (session 128 100 version9P)).get (by decide +kernel)

theorem replies_bounded_session : served.packed.map (·.fst.length) = [19, 17] ∧ Safe served := by
  have hs : (machine.guarded Bounded).exec newcli (session 128 100 version9P) = some served := (Option.some_get _).symm
  exact ⟨by decide +kernel, replies_bounded <| (Machine.Reachable.init rfl).guarded hs⟩

-- The client asks for more than a message has room for, and there is more than fits in the size.
def overrun : State :=
  (machine.exec newcli (session 128 65536 ⟨List.replicate 200 65, by decide⟩)).get (by decide +kernel)

theorem replies_overrun :
    machine.Reachable (fun _ _ => True) overrun ∧ 65536 ∈ overrun.asked ∧ datasz < 65536 ∧
      overrun.packed.map (fun w => (w.fst.length, w.snd)) = [(19, some 128), (211, some 128)] ∧ ¬Safe overrun := by
  have hasked : 65536 ∈ overrun.asked := by decide +kernel
  refine ⟨?reachable, hasked, by decide, by decide +kernel, fun h => absurd (h.asked 65536 hasked) (by decide)⟩
  have hs : machine.exec newcli (session 128 65536 ⟨List.replicate 200 65, by decide⟩) = some overrun :=
    (Option.some_get _).symm
  exact (Machine.Reachable.init rfl).exec (fun _ _ _ => trivial) hs

end Creepy.NineP
