import Nix.Creepy.IxcallCodec

namespace Creepy

open LittleEndian (decode)

abbrev IOHDRSZ  := 24
abbrev Maxmdata := 8 * 1024
abbrev Minmdata := 128

abbrev Tlast : UInt16 := 0x4000
abbrev Tmask : UInt16 := 0x3FFF

def IXTmax : UInt8 := 82

-- What is left to read from a connection. A `read` returns at most the next chunk. After the last
-- one it reports the end of the file, or an error.
structure Conn where
  chunks : List (List UInt8)
  failed : Bool

namespace Conn

def size (c : Conn) : Nat :=
  (c.chunks.map (·.length + 1)).sum

-- The first component is `none` when -1 is returned.
def read (c : Conn) (n : Nat) : Option (List UInt8) × Conn :=
  match c.chunks with
  | [] => (if c.failed then none else some [], c)
  | bs :: rest =>
    (some (bs.take n), { c with chunks := if bs.length ≤ n then rest else bs.drop n :: rest })

-- Reads on until `n` bytes are there. An error or the end of the file only shows if there are none.
def readn (c : Conn) (n : Nat) : Option (List UInt8) × Conn :=
  if n = 0 then (some [], c) else
  match c.read n with
  | (none, c) => (none, c)
  | (some [], c) => (some [], c)
  | (some (b :: bs), c) =>
    match readn c (n - (b :: bs).length) with
    | (none, c) => (some (b :: bs), c)
    | (some more, c) => (some (b :: bs ++ more), c)
termination_by n
decreasing_by simp; omega

variable {c c' : Conn}

theorem read_length_le (h : c.read n = (some bs, c')) : bs.length ≤ n := by
  simp only [read] at h
  split at h
  · split at h <;> simp_all
  · obtain ⟨rfl, -⟩ := by simpa using h
    exact List.length_take_le ..

theorem read_size_le (h : c.read n = (r, c')) : c'.size ≤ c.size := by
  simp only [read] at h
  split at h
  case h_1 => exact (Prod.mk.inj h).right ▸ le_rfl
  case h_2 cs rest hc =>
    obtain rfl := (Prod.mk.inj h).right
    simp only [size, hc]
    split <;> simp

theorem read_size_lt (h : c.read n = (some (b :: bs), c')) : c'.size < c.size := by
  simp only [read] at h
  split at h
  case h_1 => split at h <;> simp at h
  case h_2 cs rest hc =>
    simp only [Prod.mk.injEq, Option.some.injEq] at h
    obtain ⟨ht, rfl⟩ := h
    have hn : 0 < n := by cases n <;> simp at ht ⊢
    simp only [size, hc]
    split
    all_goals
      simp
      try omega

theorem readn_length_le (h : c.readn n = (some bs, c')) : bs.length ≤ n := by
  fun_induction readn generalizing bs c'
  case case1 | case2 | case3 => simp_all
  case case4 hr _ hm ih =>
    obtain ⟨rfl, -⟩ := by simpa using h
    exact read_length_le hr
  case case5 hr more _ hm ih =>
    obtain ⟨rfl, -⟩ := by simpa using h
    have hb := read_length_le hr
    have hm := ih hm
    simp only [List.length_cons, List.length_append] at hb hm ⊢
    omega

theorem readn_size_le (h : c.readn n = (r, c')) : c'.size ≤ c.size := by
  fun_induction readn generalizing r c'
  case case1 => simp_all
  case case2 hr | case3 hr =>
    obtain rfl := (Prod.mk.inj h).right
    exact read_size_le hr
  case case4 hr _ hm ih | case5 hr more _ hm ih =>
    obtain rfl := (Prod.mk.inj h).right
    exact (ih hm).trans (read_size_le hr)

theorem readn_size_lt (h : c.readn n = (some (b :: bs), c')) : c'.size < c.size := by
  rw [readn.eq_def] at h
  split at h
  case isTrue => simp at h
  split at h
  case h_1 => simp at h
  case h_2 => simp at h
  case h_3 hr =>
    have hlt := read_size_lt hr
    split at h
    all_goals
      next hm =>
      obtain rfl := (Prod.mk.inj h).right
      exact (readn_size_le hm).trans_lt hlt

end Conn

-- What the code knows about a request that was read.
structure Rpc where
  chan : UInt16
  xt   : IXcall
  deriving DecidableEq

def largeix (type : UInt8) : Bool :=
  type = IXtype.IXTread.code ∨ type = IXtype.IXTwrite.code

-- The room for what follows the type in the `data` of the `Rpc` that is allocated for a type.
def room (type : UInt8) : Nat :=
  if type ≥ IXTmax ∨ largeix type then IOHDRSZ + Maxmdata else IOHDRSZ + Minmdata

inductive Readix
  | nil
  -- Bytes outside `data` are read or written.
  | outside
  | rpc (rpc : Rpc)
  deriving DecidableEq

-- `junk` is what `hdr` holds before it is read. A header that was cut short is not noticed.
def readix (junk : List UInt8) (c : Conn) : Readix × Conn :=
  match c.readn (BIT16SZ + BIT16SZ + BIT8SZ) with
  | (none, c) => (.nil, c)
  | (some [], c) => (.nil, c)
  | (some got, c) =>
    let hdr := overlay got junk
    let sz := decode (hdr.take BIT16SZ)
    if sz > IOHDRSZ + Maxmdata then (.nil, c) else
    if sz < BIT16SZ + BIT8SZ then (.nil, c) else
    let type := UInt8.ofNat (decode ((hdr.drop (BIT16SZ + BIT16SZ)).take BIT8SZ))
    let chan := UInt16.ofNat (decode ((hdr.drop BIT16SZ).take BIT16SZ))
    match c.readn (sz - (BIT16SZ + BIT8SZ)) with
    | (none, c) => (.nil, c)
    | (some body, c) =>
      if body.length > room type then (.outside, c) else
      if body.length ≠ sz then (.nil, c) else
      match ixunpack ((PBIT8 type ++ body).take (sz - BIT16SZ)) with
      | .error .outside => (.outside, c)
      | .error .ret0 => (.nil, c)
      | .ok (xt, n) => if n ≠ sz - BIT16SZ then (.nil, c) else (.rpc { chan, xt }, c)

theorem readix_eq_rpc (h : readix junk c = (.rpc rpc, c')) :
    ∃ got c₁ sz body, got ≠ [] ∧ c.readn (BIT16SZ + BIT16SZ + BIT8SZ) = (some got, c₁) ∧
      BIT16SZ + BIT8SZ ≤ sz ∧ c₁.readn (sz - (BIT16SZ + BIT8SZ)) = (some body, c') ∧
      body.length = sz := by
  simp only [readix] at h
  split at h
  case h_1 => simp at h
  case h_2 => simp at h
  case h_3 got c₁ hne hr =>
    split at h
    case isTrue => simp at h
    split at h
    case isTrue => simp at h
    case isFalse hmin =>
      split at h
      case h_1 => simp at h
      case h_2 body c₂ hb =>
        split at h
        case isTrue => simp at h
        split at h
        case isTrue => simp at h
        case isFalse hsz =>
          split at h
          case h_1 => simp at h
          case h_2 => simp at h
          case h_3 =>
            split at h
            case isTrue => simp at h
            obtain rfl := (Prod.mk.inj h).right
            have hne : got ≠ [] := fun hg => hne (hg ▸ rfl)
            exact ⟨got, c₁, _, body, hne, hr, not_lt.mp hmin, hb, not_not.mp hsz⟩

theorem readix_size_lt (h : readix junk c = (.rpc rpc, c')) : c'.size < c.size := by
  have ⟨got, c₁, sz, body, hne, hr, _, hb, _⟩ := readix_eq_rpc h
  obtain ⟨b, bs, rfl⟩ := List.exists_cons_of_ne_nil hne
  exact (Conn.readn_size_le hb).trans_lt (Conn.readn_size_lt hr)

-- The calls that the loop of `cliworkerix` reads before it gives the client up.
def cliworkerix (junk : Conn → List UInt8) (c : Conn) : List Rpc :=
  match _h : readix (junk c) c with
  | (.rpc rpc, c') => rpc :: cliworkerix junk c'
  | _ => []
termination_by c.size
decreasing_by exact readix_size_lt _h

-- The number of bytes read is compared with the size in the header, which counts the channel and
-- the type too. No message passes.
theorem readix_ne_rpc (junk : List UInt8) (c : Conn) (rpc : Rpc) : (readix junk c).1 ≠ .rpc rpc := by
  intro h
  have ⟨_, _, sz, body, _, _, hmin, hb, hsz⟩ := readix_eq_rpc (Prod.ext h rfl)
  have hle := Conn.readn_length_le hb
  have hlt : sz - (BIT16SZ + BIT8SZ) < sz := Nat.sub_lt (hmin.trans_lt' (by decide)) (by decide)
  exact absurd hsz (hle.trans_lt hlt).ne

theorem cliworkerix_eq_nil (junk : Conn → List UInt8) (c : Conn) : cliworkerix junk c = [] := by
  rw [cliworkerix]
  split
  case h_1 rpc _ h => exact (readix_ne_rpc _ c rpc (congrArg Prod.fst h)).elim
  case h_2 => rfl

-- A request that `ixpack` packs.
structure Request where
  chan  : UInt16
  call  : IXcall
  body  : List UInt8
  packs : ixpackBody call = some body

namespace Request

def msg (r : Request) : List UInt8 :=
  PBIT8 r.call.type ++ r.body ++ r.call.data

-- The format on the wire is len[2] tag[2] msg[].
def frame (len : Nat → UInt16) (r : Request) : List UInt8 :=
  PBIT16 (len r.msg.length) ++ PBIT16 r.chan ++ r.msg

def rpc (r : Request) : Rpc where
  chan := r.chan
  xt   := r.call.denil

end Request

inductive Reply
  | fatal
  | flushed
  | written (frame : List UInt8)
  deriving DecidableEq

-- An error closes the channel.
def replychan (chan : UInt16) (type : UInt8) : UInt16 :=
  if type = IXtype.IXRerror.code ∨ chan &&& Tlast ≠ 0 then chan &&& Tmask ||| Tlast
  else chan &&& Tmask

-- What `reply` writes to the client. `ap` is what the buffer holds behind the header so far.
def reply (chan : UInt16) (xr : IXcall) (flushed : Bool) (ap : List UInt8) : Reply :=
  match ixpack xr (ap.take (IOHDRSZ + Maxmdata - BIT16SZ - BIT16SZ)) with
  | .sysfatal => .fatal
  | .ret sz ap =>
    if sz = 0 then .fatal else
    if flushed then .flushed else
    .written (PBIT16 sz.toUInt16 ++ PBIT16 (replychan chan xr.type) ++ ap.take sz.toNat)

theorem ixpack_ret_inv (h : ixpack f ap = .ret sz ap') (hz : sz ≠ 0) :
    ∃ body, ixpackBody f = some body ∧ sz.toNat = (PBIT8 f.type ++ body).length ∧
      sz.toNat ≤ ap.length ∧ ap' = overlay (PBIT8 f.type ++ body) ap := by
  simp only [ixpack] at h
  split at h
  case h_1 => simp at h
  case h_2 size hs =>
    split at h
    case isTrue => exact absurd (Packed.ret.inj h).left.symm hz
    case isFalse hroom =>
      split at h
      case h_1 => exact absurd (Packed.ret.inj h).left.symm hz
      case h_2 body hb =>
        split at h
        case isTrue => exact absurd (Packed.ret.inj h).left.symm hz
        case isFalse hl =>
          obtain ⟨rfl, rfl⟩ := Packed.ret.inj h
          exact ⟨body, hb, not_not.mp hl, not_lt.mp (not_or.mp hroom).right, rfl⟩

theorem reply_eq_written (h : reply chan xr flushed ap = .written frame) :
    ∃ sz body, ixpackBody xr = some body ∧ sz.toNat = BIT8SZ + body.length ∧
      frame = PBIT16 sz ++ (PBIT16 (replychan chan xr.type) ++ (PBIT8 xr.type ++ body)) := by
  simp only [reply] at h
  split at h
  case h_1 => simp at h
  case h_2 sz ap' hp =>
    split at h
    case isTrue => simp at h
    case isFalse hz =>
      split at h
      case isTrue => simp at h
      case isFalse =>
        have ⟨body, hb, hsz, hroom, hap⟩ := ixpack_ret_inv hp hz
        have hlt : sz.toNat < 2 ^ 16 :=
          (hroom.trans <| List.length_take_le ..).trans_lt (by decide)
        refine ⟨sz.toUInt16, body, hb, ?_, ?_⟩
        · rw [UInt32.toNat_toUInt16, Nat.mod_eq_of_lt hlt, hsz, List.length_append, PBIT8_length]
        · rw [← Reply.written.inj h, hap, hsz, overlay_take, List.append_assoc]

-- `reqs` is what reading `c` leads to.
def Request.delivered (reqs : List Request) (junk : Conn → List UInt8) (c : Conn) : Prop :=
  cliworkerix junk c = reqs.map Request.rpc

-- Whatever the size in the header counts, nothing but the empty sequence is delivered, and no reply
-- is accepted, its size being two less than the number of bytes that follow it.
theorem ix_framing (junk : Conn → List UInt8) :
    (∀ (len : Nat → UInt16) (reqs : List Request) (c : Conn),
      c.chunks.flatten = reqs.flatMap (·.frame len) →
      (Request.delivered reqs junk c ↔ reqs = [])) ∧
    (∀ chan xr flushed ap frame, reply chan xr flushed ap = .written frame →
      (∀ c : Conn, c.chunks.flatten = frame → ∀ rpc, (readix (junk c) c).1 ≠ .rpc rpc) ∧
      (∃ sz rest, frame = PBIT16 sz ++ rest ∧ sz.toNat + BIT16SZ = rest.length)) := by
  constructor
  · intro len reqs c _
    simp [Request.delivered, cliworkerix_eq_nil, eq_comm]
  · intro chan xr flushed ap frame h
    have ⟨sz, body, _, hsz, hf⟩ := reply_eq_written h
    refine ⟨fun c _ => readix_ne_rpc _ c, sz, _, hf, ?_⟩
    simp only [hsz, List.length_append, PBIT16_length, PBIT8_length, Nat.add_comm]

theorem ix_framing_clunk :
    cliworkerix (fun _ => []) ⟨[[3, 0], [0, 0xC0, 70]], false⟩ ≠ [⟨0xC000, .IXTclunk⟩] ∧
    (readix [] ⟨[[1, 0, 0, 0x40, 71]], false⟩).1 ≠ .rpc ⟨0x4000, .IXRclunk⟩ := by
  have h := ix_framing fun _ => []
  have hread := h.left (fun n => .ofNat (BIT16SZ + n)) [⟨0xC000, .IXTclunk, [], rfl⟩]
    ⟨[[3, 0], [0, 0xC0, 70]], false⟩ (by decide)
  have hreply := h.right 0xC000 .IXRclunk false [0] [1, 0, 0, 0x40, 71] (by decide)
  exact ⟨fun he => by simpa using hread.mp he, hreply.left _ rfl _⟩

-- The size may count the message only, as `ix.h` has it, or the channel too, as `readix` has it.
theorem ix_framing_fails :
    let r : Request := ⟨0xC000, .IXTclunk, [], rfl⟩
    r.call.Fits ∧ r.frame .ofNat = [1, 0, 0, 0xC0, 70] ∧
    ¬Request.delivered [r] (fun _ => []) ⟨[[1, 0, 0, 0xC0, 70]], false⟩ ∧
    r.frame (fun n => .ofNat (BIT16SZ + n)) = [3, 0, 0, 0xC0, 70] ∧
    ¬Request.delivered [r] (fun _ => []) ⟨[[3, 0, 0, 0xC0, 70]], false⟩ := by
  refine ⟨⟨⟨[], rfl, by decide⟩, by decide, by decide⟩, by decide, ?_, by decide, ?_⟩
  all_goals simp [Request.delivered, cliworkerix_eq_nil]

end Creepy
