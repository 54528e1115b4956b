import Nix.Libc.Fcall
import Nix.Creepy.Cfg
import Nix.Creepy.Readdir

-- The server of a client that speaks 9P. What the requests do to the tree is left out, but for what they reply.
namespace Creepy.NineP

open Cfg (bytes)
open Fblk (Fault)
open Readdir (Stat)
open Libc (Qid Mtype convD2M convS2M sizeD2M text)

abbrev Msg  := Libc.Fcall (Option Libc.CStr) (List UInt8)
abbrev Body := Libc.Body (Option Libc.CStr) (List UInt8)

def Maxmdata : UInt32 := 8192
def IOHDRSZ : UInt32 := 24

-- The size of `data` in an rpc, as messages are read there, and of `wdata` in a client.
def datasz : Nat := (IOHDRSZ + Maxmdata).toNat

-- An error as `rerrstr` leaves it.
abbrev Err := { e : Libc.CStr // e.bytes.length < 128 }

def literal (s : String) (h : 0 ∉ bytes s ∧ (bytes s).length < 128 := by decide) : Err :=
  ⟨⟨bytes s, h.left⟩, h.right⟩

-- What a fid can be read for.
inductive Obj
  -- what factotum has for the client, if it is not done
  | auth (arg : Option (List UInt8))
  -- the console, with the strings that wait there
  | cons (s : List UInt8) (waiting : List (List UInt8))
  | stats (buf : Libc.CStr)
  | dir (d : Dir.State) (h : Dir.Shape d) (stat : Nat → Stat) (io : Nat → Bool) (fid : Readdir.Fid)
  | file (f : Fblk.File) (h : f.length < 2 ^ 64)

def consloop (count : Nat) : (waiting : List (List UInt8)) → (tot : Nat) → (s : List UInt8) → List UInt8
  | [], tot, s => s.take (count - tot)
  | s' :: waiting, tot, s =>
    let nr := (s.take (count - tot)).length
    s.take (count - tot) ++ if tot + nr + 80 < count then consloop count waiting (tot + nr) s' else []

def consread (count : UInt32) (s : List UInt8) (waiting : List (List UInt8)) : List UInt8 :=
  if count.toInt32 ≤ 0 then [] else consloop count.toNat waiting 0 s

def strread (s : Libc.CStr) (count : UInt32) (offset : Int) : List UInt8 :=
  if offset ≥ s.bytes.length then [] else (s.bytes.drop offset.toNat).take count.toNat

def xauthread (arg : Option (List UInt8)) (count : UInt32) : Except Fault (List UInt8) :=
  match arg with
  | none     => .ok []
  | some arg => if count.toNat < arg.length then .error .error else .ok arg

def fidread (o : Obj) (count : UInt32) (offset : Int) : Except Fault (List UInt8) :=
  if offset < 0 then .error .error else
  match o with
  | .auth _               => .error .fatal
  | .cons s waiting       => .ok (consread count s waiting)
  | .stats buf            => .ok (strread buf count offset)
  | .file f _             => f.dfpread count.toNat offset.toNat
  | .dir d _ stat io fid  =>
    match Readdir.fidread d stat io fid count.toNat offset with
    | none        => .error .fatal
    | some (_, r) => r

-- The count for which there would be room is put into the reply, where what is read takes its place.
def rread (o : Obj) (count : UInt32) (offset : UInt64) : Except Fault (List UInt8) :=
  match o with
  | .auth arg => xauthread arg count
  | o         => fidread o count offset.toInt64.toInt

-- How many bytes `fidread` is asked to store.
def asks : Obj → UInt32 → List Nat
  | .auth _, _ => []
  | _, count   => [count.toNat]

-- What the routines find or do that a request calls: an error before anything is read, the file that is reached, those
-- that are walked to before an error, and so on.
inductive Answer
  | error (e : Err)
  | done
  | qid (q : Qid)
  | walk (qids : List Qid) (e : Err)
  | read (o : Obj) (e : Option Err)
  | wrote (n : UInt32)
  | stat (st : Stat) (h : sizeD2M st < 2 ^ 16)

def version9P : Libc.CStr := ⟨bytes "9P2000", by decide⟩

def rversion (msize : UInt32) (version : Option Libc.CStr) : UInt32 × Except Err Body :=
  let n := if msize > Maxmdata then Maxmdata else msize
  if (text version).take 6 ≠ version9P.bytes then
    (n, .error (literal "unknown protocol version"))
  else
    (n, .ok (.Rversion n (some version9P)))

-- No reply is there, when the process dies or the answer is not one to the request.
def rwalk (fid newfid : UInt32) (wname : List (Option Libc.CStr)) (qids : List Qid) (e : Err) : Option (Except Err Body) :=
  if fid = newfid ∧ wname.length > 1 then some (.error (literal "can't walk like a clone without one")) else
  if qids.length > wname.length then none else
  some (if qids = [] ∧ wname ≠ [] then .error e else .ok (.Rwalk qids))

def rstat (msize : UInt32) (st : Stat) : Option (Except Err Body) :=
  let (n, stat) := convD2M st (msize - IOHDRSZ).toNat
  if n ≤ 2 then none else some (.ok (.Rstat stat))

-- The functions in `fcalls` but `rversion`.
def handle (msize : UInt32) : Body → Answer → Option (Except Err Body)
  | .Tversion .., _                        => none
  | .Tread _ offset count, .read o e       =>
    match rread o count offset, e with
    | .ok data, none        => some (.ok (.Rread data))
    | .error .error, some e => some (.error e)
    | _, _                  => none
  | .Twalk fid newfid wname, .walk qids e  => rwalk fid newfid wname qids e
  | .Tstat _, .stat st _                   => rstat msize st
  | .Tauth .., .qid q                      => some (.ok (.Rauth q))
  | .Tattach .., .qid q                    => some (.ok (.Rattach q))
  | .Topen .., .qid q                      => some (.ok (.Ropen q (msize - IOHDRSZ)))
  | .Topen .., .done                       => some (.ok (.Ropen ⟨0, 0, 0⟩ 0))
  | .Tcreate .., .qid q                    => some (.ok (.Rcreate q (msize - IOHDRSZ)))
  | .Twrite .., .wrote n                   => some (.ok (.Rwrite n))
  | .Tflush _, .done                       => some (.ok .Rflush)
  | .Tclunk _, .done                       => some (.ok .Rclunk)
  | .Tremove _, .done                      => some (.ok .Rremove)
  | .Twstat .., .done                      => some (.ok .Rwstat)
  | .Tflush _, _                           => none
  | _, .error e                            => some (.error e)
  | _, _                                   => none

def fcalls (msize : UInt32) (t : Body) (ans : Answer) : Option (UInt32 × Except Err Body) :=
  match t, ans with
  | .Tversion m version, .done => some (rversion m version)
  | t, ans                     => (handle msize t ans).map (msize, ·)

-- The types of the requests that are in `fcalls`.
def types : List Mtype :=
  [.Tversion, .Tflush, .Tauth, .Tattach, .Twalk, .Topen, .Tcreate, .Tread, .Twrite, .Tclunk, .Tremove, .Tstat, .Twstat]

-- A request, and its reply once a worker has it.
structure Rpc where
  t       : Msg
  r       : Option Msg
  flushed : Bool

structure State where
  msize : UInt32
  -- the last request first
  rpcs  : List Rpc
  -- A version was negotiated.
  negotiated : Bool
  -- what `fidread` was asked to store, and the replies that were packed, with the `msize` that was negotiated
  asked  : List Nat
  packed : List (List UInt8 × Option UInt32)

inductive Act
  | recv (t : Msg)
  | work (i : Nat) (ans : Answer)
  | reply (i : Nat)

namespace State

variable (s : State)

def cliworker9p (t : Msg) : Option State :=
  if t.body.type ∈ types then some { s with rpcs := { t, r := none, flushed := false } :: s.rpcs } else some s

-- The first rpc with the tag is marked.
def rflush : Body → List Rpc
  | .Tflush oldtag => s.rpcs.modify (s.rpcs.findIdx (·.t.tag = oldtag)) fun rpc => { rpc with flushed := true }
  | _              => s.rpcs

def body : Except Err Body → Body
  | .ok r    => r
  | .error e => .Rerror (some e.val)

def asks : Body → Answer → List Nat
  | .Tread _ _ count, .read o _ => NineP.asks o count
  | _, _                        => []

-- The first part of `rpcworker9p`.
def work (i : Nat) (ans : Answer) : Option State := do
  let rpc ← s.rpcs[i]?
  if rpc.r.isSome then none else
  let (msize, r) ← fcalls s.msize rpc.t.body ans
  some { s with
    msize      := msize
    rpcs       := (s.rflush rpc.t.body).modify i fun rpc => { rpc with r := some { tag := rpc.t.tag, body := body r } }
    negotiated := s.negotiated || rpc.t.body.type = .Tversion
    asked      := s.asked ++ asks rpc.t.body ans }

def limit : Option UInt32 :=
  if s.negotiated then some s.msize else none

-- The rest of it, with the lock for replies. The process dies if the reply cannot be packed.
def reply (i : Nat) : Option State := do
  let rpc ← s.rpcs[i]?
  let r ← rpc.r
  let s := { s with rpcs := s.rpcs.eraseIdx i }
  if rpc.flushed then some s else
  let (n, p) := convS2M r datasz
  if n = 0 then none else some { s with packed := s.packed ++ [(p, s.limit)] }

end State

def step (s : State) : Act → Option State
  | .recv t     => s.cliworker9p t
  | .work i ans => s.work i ans
  | .reply i    => s.reply i

-- `newcli`
def newcli : State where
  msize      := 0
  rpcs       := []
  negotiated := false
  asked      := []
  packed     := []

def machine : Machine State Act where
  init s := s = newcli
  step   := step

end Creepy.NineP

-- How many bytes there are to read, of those that fit in a count.
namespace Creepy.NineP

open Fblk (Fault)
open Dir (Shape)
open Readdir (Stat children packed)

-- As many of the first numbers as there is room for.
def fitting (room : Nat) : List Nat → Nat
  | []      => 0
  | n :: ns => if n ≤ room then n + fitting (room - n) ns else 0

-- The strings at the console that are taken, with `tot` bytes in those before.
def taken (count : Nat) : (waiting : List (List UInt8)) → (tot : Nat) → Nat
  | [], tot           => tot
  | s :: waiting, tot => if tot + 80 < count then taken count waiting (tot + s.length) else tot

def Obj.there (count : Nat) (offset : Int) : Obj → Nat
  | .auth arg            => (arg.getD []).length
  | .cons s waiting      => min count (taken count waiting s.length)
  | .stats buf           => min count (buf.bytes.length - offset.toNat)
  | .dir d _ stat _ fid  => fitting count (((children d).drop fid.lidx).map fun a => (packed (stat a)).length)
  | .file f _            => min count (f.length - offset.toNat)

theorem le_taken (count : Nat) (waiting : List (List UInt8)) (tot : Nat) : tot ≤ taken count waiting tot := by
  induction waiting generalizing tot
  case nil => exact Nat.le_refl _
  case cons s waiting ih =>
    rw [taken]
    split
    case isTrue => exact (Nat.le_add_right ..).trans (ih _)
    case isFalse => exact Nat.le_refl _

theorem consloop_length (waiting : List (List UInt8)) {tot : Nat} (s : List UInt8) (h : tot ≤ count) :
    tot + (consloop count waiting tot s).length ≤ min count (taken count waiting (tot + s.length)) := by
  induction waiting generalizing tot s
  case nil =>
    rw [consloop, taken, List.length_take]
    omega
  case cons s' waiting ih =>
    have hle := le_taken count (s' :: waiting) (tot + s.length)
    rw [consloop, List.length_append]
    by_cases hgo : tot + (s.take (count - tot)).length + 80 < count
    case pos =>
      have hall : (s.take (count - tot)).length = s.length := by
        rw [List.length_take] at hgo ⊢
        omega
      rw [if_pos hgo, taken, if_pos (hall ▸ hgo), ← Nat.add_assoc, hall]
      exact ih s' (by omega)
    case neg =>
      rw [if_neg hgo, List.length_nil, List.length_take]
      omega

theorem consread_length (count : UInt32) (s : List UInt8) (waiting : List (List UInt8)) :
    (consread count s waiting).length ≤ min count.toNat (taken count.toNat waiting s.length) := by
  rw [consread]
  split
  case isTrue => exact Nat.zero_le _
  case isFalse =>
    have h := consloop_length waiting s (Nat.zero_le count.toNat)
    rwa [Nat.zero_add, Nat.zero_add] at h

theorem strread_length (s : Libc.CStr) (count : UInt32) (offset : Int) :
    (strread s count offset).length ≤ min count.toNat (s.bytes.length - offset.toNat) := by
  rw [strread]
  split
  case isTrue => exact Nat.zero_le _
  case isFalse => rw [List.length_take, List.length_drop]

theorem loop_length {s : Dir.State} {stat : Nat → Stat} {io : Nat → Bool} {ndata fuel lidx lidx' : Nat}
    {data data' : List UInt8} (h : Shape s) (hl : Readdir.loop s stat io ndata fuel lidx data = some (lidx', .ok data')) :
    data'.length =
      data.length + fitting (ndata - data.length) (((children s).drop lidx).map fun a => (packed (stat a)).length) := by
  induction fuel generalizing lidx data
  case zero => cases hl
  case succ fuel ih =>
    cases ha : (children s)[lidx]?
    case none =>
      have hlen := List.getElem?_eq_none_iff.mp ha
      have hstop : ¬(data.length + 2 < ndata ∧ lidx < s.ndents) := by
        rw [h.ndents, ← Readdir.children_length]
        exact fun hgo => Nat.not_lt.mpr hlen hgo.right
      rw [Readdir.loop_stop hstop] at hl
      cases hl
      rw [List.drop_eq_nil_iff.mpr hlen]
      rfl
    case some a =>
      rw [Readdir.drop_children ha, List.map_cons, fitting]
      have hgt := Readdir.packed_gt (stat a)
      by_cases hroom : data.length + 2 < ndata
      case neg =>
        rw [Readdir.loop_stop fun hgo => hroom hgo.left] at hl
        cases hl
        rw [if_neg (by omega)]
        rfl
      case pos =>
        rw [Readdir.loop_succ h data hroom ha] at hl
        split at hl
        case isTrue => cases hl
        case isFalse =>
          split at hl
          case isTrue hfull =>
            cases hl
            rw [if_neg (Nat.not_le.mpr hfull)]
            rfl
          case isFalse hfits =>
            have hlen := ih hl
            rw [List.length_append] at hlen
            rw [hlen, if_pos (Nat.not_lt.mp hfits), Nat.sub_sub, Nat.add_assoc]

theorem clip_le {len off length n : Nat} (hoff : off + len < 2 ^ 64) :
    (if Fblk.uvlong (off + min n len) > length then length - off else min n len) ≤ min len (length - off) := by
  have hu : Fblk.uvlong (off + min n len) = off + min n len := Nat.mod_eq_of_lt (by omega)
  rw [hu]
  split
  case isTrue => omega
  case isFalse => omega

theorem dfslice_length {f : Fblk.File} {len off : Nat} {sl : Fblk.Blksl} (hoff : off + len < 2 ^ 64)
    (h : f.dfslice len off = .ok sl) : sl.len ≤ min len (f.length - off) := by
  simp only [Fblk.File.dfslice] at h
  split at h
  case isTrue =>
    cases h
    exact Nat.zero_le _
  case isFalse =>
    split at h
    case isTrue =>
      cases h
      exact clip_le hoff
    case isFalse =>
      obtain ⟨b, -, h⟩ := Except.bind_eq_ok_iff.mp h
      cases h
      exact clip_le hoff

theorem readloop_length {f : Fblk.File} {fuel count off : Nat} {data : List UInt8} (hoff : off + count < 2 ^ 64)
    (h : f.readloop fuel count off = .ok data) : data.length ≤ min count (f.length - off) := by
  induction fuel generalizing count off data
  case zero =>
    cases h
    exact Nat.zero_le _
  case succ fuel ih =>
    rw [Fblk.File.readloop] at h
    split at h
    case isTrue =>
      cases h
      exact Nat.zero_le _
    case isFalse =>
      obtain ⟨sl, hsl, h⟩ := Except.bind_eq_ok_iff.mp h
      have hlen := dfslice_length hoff hsl
      split at h
      case isTrue =>
        cases h
        exact Nat.zero_le _
      case isFalse =>
        obtain ⟨rest, hrest, h⟩ := Except.bind_eq_ok_iff.mp h
        cases h
        have hu : Fblk.uvlong (off + sl.len) = off + sl.len := Nat.mod_eq_of_lt (by omega)
        rw [hu] at hrest
        have hle := ih (by omega) hrest
        rw [List.length_append, List.length_map, List.length_range]
        omega

theorem readdir_length {d : Dir.State} {stat : Nat → Stat} {io : Nat → Bool} {fid fid' : Readdir.Fid} {count : Nat}
    {offset : Int} {data : List UInt8} (h : Shape d)
    (hr : Readdir.fidread d stat io fid count offset = some (fid', .ok data)) :
    data.length = fitting count (((children d).drop fid.lidx).map fun a => (packed (stat a)).length) := by
  rw [Readdir.fidread] at hr
  split at hr
  case isTrue => cases hr
  case isFalse =>
    split at hr
    case isTrue => cases hr
    case isFalse =>
      obtain ⟨⟨lidx, r⟩, hloop, hr⟩ := Option.map_eq_some_iff.mp hr
      cases r
      case error => cases hr
      case ok data' =>
        cases hr
        rw [loop_length h hloop, List.length_nil, Nat.zero_add, Nat.sub_zero]

theorem fidread_length {o : Obj} {count : UInt32} {offset : Int} {data : List UInt8} (hoff : offset < 2 ^ 63)
    (h : fidread o count offset = .ok data) : data.length ≤ o.there count.toNat offset := by
  unfold fidread at h
  split at h
  case isTrue => cases h
  case isFalse hneg =>
    cases o
    case auth => cases h
    case cons s waiting =>
      cases h
      exact consread_length count s waiting
    case stats buf =>
      cases h
      exact strread_length buf count offset
    case file f hf =>
      have hcount := count.toNat_lt
      exact readloop_length (by omega) h
    case dir d hd stat io fid =>
      cases hr : Readdir.fidread d stat io fid count.toNat offset
      case none => simp [hr] at h
      case some r =>
        simp only [hr] at h
        obtain ⟨fid', r⟩ := r
        cases h
        exact Nat.le_of_eq (readdir_length hd hr)

theorem xauthread_length {arg : Option (List UInt8)} {count : UInt32} {data : List UInt8}
    (h : xauthread arg count = .ok data) : data.length = (arg.getD []).length := by
  cases arg
  case none => cases h; rfl
  case some arg =>
    simp only [xauthread] at h
    split at h
    case isTrue => cases h
    case isFalse => cases h; rfl

theorem rread_length {o : Obj} {count : UInt32} {offset : UInt64} {data : List UInt8}
    (h : rread o count offset = .ok data) : data.length ≤ o.there count.toNat offset.toInt64.toInt := by
  have hoff : offset.toInt64.toInt < 2 ^ 63 := Int64.toInt_lt _
  cases o
  case auth arg => exact Nat.le_of_eq (xauthread_length h)
  all_goals exact fidread_length hoff h

end Creepy.NineP
