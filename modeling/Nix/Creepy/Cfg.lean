import Nix.Lib.Machine

-- The table of users, and the file that it is read from and written to. The lock of the table is held by the caller.
namespace Creepy.Cfg

abbrev Unamesz := 20
abbrev Ubufsz  := 512

def bytes (s : String) : List UInt8 :=
  s.toList.map Char.toUInt8

-- `id` is 0 for a name that was only referred to. Other users are given by their places in the table.
structure Usr where
  name    : List UInt8
  id      : Nat
  enabled : Bool
  lead    : Option Nat
  members : List Nat
deriving DecidableEq

structure Users where
  usrs   : List Usr
  uwrite : Option Nat
  uidgen : Nat
deriving DecidableEq

inductive Err
  -- wrong number of fields
  | fields (arg : List UInt8)
  -- null name
  | nullname
deriving DecidableEq

namespace Users

variable (t : Users)

def finduid (uid : Nat) : Option Usr :=
  t.usrs.find? fun u => u.id ≠ 0 ∧ u.id = uid

-- The place of a name. The last one that was made is found first.
def place (name : List UInt8) : Option Nat :=
  (List.range t.usrs.length).reverse.find? fun i => t.usrs[i]?.any (·.name = name)

-- `finduname` with `Mkit`. A name that does not fit is cut.
def finduname (name : List UInt8) : Nat × Users :=
  match t.place name with
  | some i => (i, t)
  | none   =>
    let u := { name := name.take (Unamesz - 1), id := 0, enabled := false, lead := none, members := [] }
    (t.usrs.length, { t with usrs := t.usrs ++ [u] })

def usrid (n : List UInt8) : Int :=
  match (t.place n).bind (t.usrs[·]?) with
  | some u => if u.enabled then u.id else -1
  | none   => -1

def usrname (uid : Nat) : List UInt8 :=
  ((t.finduid uid).map Usr.name).getD (bytes "ZP")

def nameat (i : Nat) : List UInt8 :=
  (t.usrs[i]?.map Usr.name).getD []

def member (uid member : Nat) : Bool :=
  uid = member || (t.finduid uid).any fun u =>
    u.lead.any (fun l => t.usrs[l]?.any (·.id = member)) || u.members.any fun m => t.usrs[m]?.any (·.id = member)

def modify (i : Nat) (f : Usr → Usr) : Users :=
  { t with usrs := t.usrs.modify i f }

def mkusr (name : List UInt8) : Nat × Users :=
  let (i, t) := t.finduname name
  let t :=
    if t.usrs[i]?.any (·.id = 0) then
      { t.modify i fun u => { u with id := t.uidgen + 1 } with uidgen := t.uidgen + 1 }
    else t
  (i, if name = bytes "write" then { t with uwrite := some i } else t)

-- The lock is released when the name is that of a member.
def addmember (i : Nat) (n : List UInt8) : Users × Nat :=
  if (t.usrs[i]?.map Usr.members).any fun l => l.any (t.nameat · = n) then (t, 1)
  else
    let (j, t) := t.finduname n
    (t.modify i fun u => { u with members := u.members ++ [j] }, 0)

-- The names in the last field: what is between commas, from the first byte that is not blank up to a blank.
def names (arg : List UInt8) : List (List UInt8) :=
  let blank c := c = ' '.toUInt8 ∨ c = '\t'.toUInt8
  ((arg.splitOn ','.toUInt8).map fun c => (c.dropWhile blank).takeWhile (¬blank ·)).filter (· ≠ [])

def addmembers (i : Nat) (l : List (List UInt8)) : Users × Nat :=
  l.foldl (fun (t, unlocks) n => let (t, k) := t.addmember i n; (t, unlocks + k)) (t, 0)

-- The table, and how many times the lock was released.
def addusr (p : List UInt8) : Except Err (Users × Nat) :=
  let on := p.head? ≠ some '!'.toUInt8
  let args := (if on then p else p.tail).splitOn ':'.toUInt8
  match args with
  | [_, name, lead, members] =>
    if name = [] then .error .nullname
    else
      let (i, t) := t.mkusr name
      let (l, t) := t.finduname lead
      let t := t.modify i fun u => { u with enabled := on, lead := some l, members := [] }
      .ok <| t.addmembers i (names members)
  | _ => .error <| .fields (args.headD [])

-- `usrfmt`, and the end of the line.
def line (u : Usr) : List UInt8 :=
  let text := (if u.enabled then [] else bytes "!") ++ bytes (toString u.id) ++ bytes ":" ++ u.name ++ bytes ":" ++
    (u.lead.map t.nameat).getD [] ++ bytes ":" ++ (bytes ",").intercalate (u.members.map t.nameat) ++ bytes "\n"
  text.take (Ubufsz - 1)

end Users

-- What is known while the file is read: the table, and how many times the lock was released.
structure Reading where
  t       : Users
  unlocks : Nat

-- What is in the buffer after a line of it was looked at. What is past the first zero of it is not read again.
def wiped (l : List UInt8) : List UInt8 :=
  l.map (fun c => if c = ':'.toUInt8 ∨ c = '#'.toUInt8 then 0 else c) ++ [0]

-- The inner loop, from `p` on. What is left in the buffer is next to the result.
def scan : (fuel : Nat) → Reading → (done p : List UInt8) → Except Reading (Reading × List UInt8)
  | 0, s, done, p => .ok (s, done ++ p)
  | fuel + 1, s, done, p =>
    if p = [] then .ok (s, done) else
    let str := p.takeWhile (· ≠ 0)
    if '\n'.toUInt8 ∉ str then .ok (s, str) else
    let l := str.takeWhile (· ≠ '\n'.toUInt8)
    let done := done ++ wiped l
    let rest := p.drop (l.length + 1)
    match l.takeWhile (· ≠ '#'.toUInt8) with
    | []     => scan fuel s done rest
    | c :: l =>
      match s.t.addusr (c :: l) with
      | .error _      => .error s
      | .ok (t, k)    => scan fuel { t := t, unlocks := s.unlocks + k } done rest

-- The outer loop, with the bytes in the buffer. It goes on without end when the buffer is full. An error ends it.
def parse (text : List UInt8) : (fuel : Nat) → Reading → (off : Nat) → (ubuf : List UInt8) → Option Reading
  | 0, _, _, _ => none
  | fuel + 1, s, off, ubuf =>
    if off < text.length then
      let bs := (text.drop off).take (Ubufsz - ubuf.length - 1)
      let ubuf := ubuf ++ bs
      match scan (ubuf.length + 1) s [] ubuf with
      | .error s      => some s
      | .ok (s, ubuf) => parse text fuel s (off + bs.length) ubuf
    else some s

-- Those whose lines are written.
def Users.written (t : Users) : List Usr :=
  (List.range t.uidgen).filterMap t.finduid

structure Result where
  t       : Users
  unlocks : Nat
  -- the users whose lines are in the file, if it could be truncated
  listed  : Option (List Usr)

-- `rwusers` for a file that was changed. `room` tells how many lines can be written, and is `none` if the length of the
-- file cannot be changed.
def rwusers (fuel : Nat) (room : Option Nat) (t : Users) (text : List UInt8) : Option Result :=
  (parse text fuel { t := t, unlocks := 0 } 0 []).map fun s =>
    { t := s.t, unlocks := s.unlocks + 1, listed := room.map fun n => s.t.written.take n }

-- `rwusers` for a file that was there at boot time.
def load (fuel : Nat) (t : Users) (text : List UInt8) : Option Users :=
  (parse text fuel { t := t, unlocks := 0 } 0 []).map Reading.t

def defaultusers : List (List UInt8) :=
  [bytes "1:none::", bytes "2:adm:adm:sys, elf ", bytes "3:sys::glenda,elf", bytes "4:glenda:glenda:", bytes "5:elf:elf:sys"]

def rwdefaultusers : Users :=
  defaultusers.foldl (fun t p => ((t.addusr p).toOption.map Prod.fst).getD t) { usrs := [], uwrite := none, uidgen := 0 }

-- The tables of a server: it loads a file when it starts, and reads others.
inductive Act
  | load (fuel : Nat) (text : List UInt8)
  | rwusers (fuel : Nat) (room : Option Nat) (text : List UInt8)

def step (t : Users) : Act → Option Users
  | .load fuel text         => load fuel t text
  | .rwusers fuel room text => (rwusers fuel room t text).map Result.t

def machine : Machine Users Act where
  init t := t = rwdefaultusers
  step   := step

variable {t t' : Users} {s s' : Reading} {f : Usr → Usr} {i j k : Nat} {name n : List UInt8}

-- There is a user with the id that was given last.
def Last (t : Users) : Prop :=
  0 < t.uidgen ∧ ∃ u ∈ t.usrs, u.id = t.uidgen

namespace Last

theorem modify (h : Last t) (hf : ∀ u, (f u).id = u.id) (i : Nat) : Last (t.modify i f) := by
  obtain ⟨hpos, u, hu, hid⟩ := h
  obtain ⟨j, hj⟩ := List.mem_iff_getElem?.mp hu
  refine ⟨hpos, ?_⟩
  by_cases hij : i = j
  case pos =>
    refine ⟨f u, List.mem_iff_getElem?.mpr ⟨j, ?_⟩, (hf u).trans hid⟩
    simp [Users.modify, hij, hj]
  case neg =>
    refine ⟨u, List.mem_iff_getElem?.mpr ⟨j, ?_⟩, hid⟩
    simp [Users.modify, hij, hj]

theorem finduname (h : Last t) (name : List UInt8) : Last (t.finduname name).snd := by
  rw [Users.finduname]
  split
  case h_1 => exact h
  case h_2 =>
    obtain ⟨hpos, u, hu, hid⟩ := h
    exact ⟨hpos, u, List.mem_append_left _ hu, hid⟩

theorem mkusr (h : Last t) (name : List UInt8) : Last (t.mkusr name).snd := by
  have hf := h.finduname name
  obtain ⟨⟨i, t₁⟩, hfind⟩ : ∃ x, x = t.finduname name := ⟨_, rfl⟩
  rw [Users.mkusr, ← hfind]
  rw [← hfind] at hf
  have hgen : Last (if t₁.usrs[i]?.any (·.id = 0) then
      { t₁.modify i fun u => { u with id := t₁.uidgen + 1 } with uidgen := t₁.uidgen + 1 } else t₁) := by
    split
    case isTrue hany =>
      obtain ⟨u, hu, -⟩ := (Option.any_eq_true _ _).mp hany
      refine ⟨Nat.succ_pos _, { u with id := t₁.uidgen + 1 }, List.mem_iff_getElem?.mpr ⟨i, ?_⟩, rfl⟩
      simp [Users.modify, hu]
    case isFalse => exact hf
  dsimp only
  split
  case isTrue => exact hgen
  case isFalse => exact hgen

theorem addmember (h : Last t) (i : Nat) (n : List UInt8) : Last (t.addmember i n).fst := by
  rw [Users.addmember]
  split
  case isTrue => exact h
  case isFalse =>
    have hf := h.finduname n
    rcases hfind : t.finduname n with ⟨j, t₁⟩
    rw [hfind] at hf
    exact hf.modify (f := fun u => { u with members := u.members ++ [j] }) (fun _ => rfl) i

theorem addmembers (h : Last t) (i : Nat) (l : List (List UInt8)) : Last (t.addmembers i l).fst := by
  rw [Users.addmembers]
  generalize 0 = unlocks
  induction l generalizing t unlocks
  case nil => exact h
  case cons n l ih => exact ih (h.addmember i n) _

theorem addusr {p : List UInt8} (h : Last t) (ha : t.addusr p = .ok (t', k)) : Last t' := by
  rw [Users.addusr] at ha
  split at ha
  case h_1 name lead members _ =>
    split at ha
    case isTrue => contradiction
    case isFalse =>
      have hname := h.mkusr name
      rcases hmk : t.mkusr name with ⟨i, t₁⟩
      rw [hmk] at ha hname
      have hlead := hname.finduname lead
      rcases hfind : t₁.finduname lead with ⟨l, t₂⟩
      simp only [hfind] at ha hlead
      have hall := addmembers (hlead.modify (f := fun u => { u with
        enabled := p.head? ≠ some '!'.toUInt8, lead := some l, members := [] }) (fun _ => rfl) i) i (Users.names members)
      rwa [Except.ok.inj ha] at hall
  case h_2 => contradiction

end Last

-- Whatever the text, the last user that was known is known after it was read, unless there is another one.
theorem last_of_scan (fuel : Nat) (done p : List UInt8) (h : Last s.t) :
    (∀ s', scan fuel s done p = .error s' → Last s'.t) ∧ ∀ s' b, scan fuel s done p = .ok (s', b) → Last s'.t := by
  induction fuel generalizing s done p
  case zero =>
    refine ⟨nofun, fun s' b hs => ?_⟩
    cases hs
    exact h
  case succ fuel ih =>
    rw [scan]
    split
    case isTrue =>
      refine ⟨nofun, fun s' b hs => ?_⟩
      cases hs
      exact h
    case isFalse =>
      dsimp only
      split
      case isTrue =>
        refine ⟨nofun, fun s' b hs => ?_⟩
        cases hs
        exact h
      case isFalse =>
        split
        case h_1 => exact ih _ _ h
        case h_2 c l _ =>
          split
          case h_1 =>
            refine ⟨fun s' hs => ?_, nofun⟩
            cases hs
            exact h
          case h_2 t k ha => exact ih _ _ (h.addusr ha)

theorem last_of_parse {text ubuf : List UInt8} {fuel off : Nat} (h : Last s.t)
    (hp : parse text fuel s off ubuf = some s') : Last s'.t := by
  induction fuel generalizing s off ubuf
  case zero => contradiction
  case succ fuel ih =>
    rw [parse] at hp
    split at hp
    case isTrue =>
      obtain ⟨herr, hok⟩ := last_of_scan ((ubuf ++ (text.drop off).take (Ubufsz - ubuf.length - 1)).length + 1) []
        (ubuf ++ (text.drop off).take (Ubufsz - ubuf.length - 1)) h
      dsimp only at hp
      split at hp
      case h_1 s₁ hs => exact Option.some.inj hp ▸ herr s₁ hs
      case h_2 s₁ b hs => exact ih (hok s₁ b hs) hp
    case isFalse => exact Option.some.inj hp ▸ h

theorem last_invariant : machine.Invariant (fun _ _ => True) Last where
  init h := by
    rw [h]
    exact ⟨by decide +kernel, by decide +kernel⟩
  step {t act t'} h _ hs := by
    cases act
    case load fuel text =>
      obtain ⟨s, hp, rfl⟩ := Option.map_eq_some_iff.mp hs
      exact last_of_parse h hp
    case rwusers fuel room text =>
      obtain ⟨r, hr, rfl⟩ := Option.map_eq_some_iff.mp hs
      obtain ⟨s, hp, rfl⟩ := Option.map_eq_some_iff.mp hr
      exact last_of_parse h hp

-- A line of a user, in its parts.
structure Entry where
  name    : List UInt8
  enabled : Bool
  lead    : List UInt8
  members : List (List UInt8)
deriving DecidableEq

-- The whole lines of a text, without comments.
def textlines (text : List UInt8) : List (List UInt8) :=
  (text.splitOn '\n'.toUInt8).dropLast.map fun l => l.takeWhile (· ≠ '#'.toUInt8)

def entry (l : List UInt8) : Option Entry :=
  let on := l.head? ≠ some '!'.toUInt8
  match (if on then l else l.tail).splitOn ':'.toUInt8 with
  | [_, name, lead, members] =>
    if name = [] then none
    else some { name := name, enabled := on, lead := lead, members := (Users.names members).dedup }
  | _ => none

def entries (text : List UInt8) : List Entry :=
  (textlines text).filterMap entry

def Users.entry (t : Users) (u : Usr) : Entry where
  name    := u.name
  enabled := u.enabled
  lead    := (u.lead.map t.nameat).getD []
  members := u.members.map t.nameat

-- The users of a table.
def Users.known (t : Users) : List Usr :=
  t.usrs.filter (·.id ≠ 0)

-- What is to be so after the users file was changed.
structure Updated (t : Users) (text : List UInt8) (r : Result) : Prop where
  ids       : ∀ u ∈ t.known, ∃ u' ∈ r.t.known, u'.name = u.name ∧ u'.id = u.id
  -- the last line for a name counts
  reflected : ∀ pre e post, entries text = pre ++ e :: post → (∀ e' ∈ post, e'.name ≠ e.name) →
    ∃ u ∈ r.t.known, r.t.entry u = e
  listed    : ∃ l, r.listed = some l ∧ ∀ u ∈ r.t.known, l.count u = 1
  reload    : ∀ l, r.listed = some l → ∃ fuel t', load fuel rwdefaultusers (l.flatMap r.t.line) = some t' ∧
    ∀ e, (∃ u ∈ r.t.known, r.t.entry u = e) ↔ ∃ u ∈ t'.known, t'.entry u = e
  unlocked  : r.unlocks = 1

theorem lt_of_mem_written {u : Usr} (hu : u ∈ t.written) : u.id < t.uidgen := by
  obtain ⟨i, hi, hf⟩ := List.mem_filterMap.mp hu
  have hid := List.find?_some hf
  rw [decide_eq_true_iff] at hid
  exact hid.right ▸ List.mem_range.mp hi

theorem not_listed (h : Last t) (n : Nat) : ¬∀ u ∈ t.known, (t.written.take n).count u = 1 := by
  obtain ⟨hpos, u, hu, hid⟩ := h
  intro hall
  have hknown : u ∈ t.known := List.mem_filter.mpr ⟨hu, decide_eq_true (hid ▸ Nat.ne_of_gt hpos)⟩
  have hmem : u ∈ t.written.take n := List.count_pos_iff.mp (hall u hknown ▸ Nat.one_pos)
  exact Nat.ne_of_lt (lt_of_mem_written (List.mem_of_mem_take hmem)) hid

-- The file that is written never has the user with the greatest id, whatever the text that was read.
theorem users_incomplete (hr : machine.Reachable (fun _ _ => True) t) (fuel : Nat) (room : Option Nat) (text : List UInt8) :
    ¬∃ r, rwusers fuel room t text = some r ∧ Updated t text r := by
  rintro ⟨r, hw, hu⟩
  obtain ⟨s, hp, rfl⟩ := Option.map_eq_some_iff.mp hw
  have hlast : Last s.t := last_of_parse (last_invariant.holds hr) hp
  obtain ⟨l, hl, hall⟩ := hu.listed
  obtain ⟨n, -, rfl⟩ := Option.map_eq_some_iff.mp hl
  exact not_listed hlast n hall

def newuser : List UInt8 :=
  bytes "6:bob:bob:glenda\n"

theorem users_incomplete_newuser :
    machine.Reachable (fun _ _ => True) rwdefaultusers ∧
      ¬∃ r, rwusers 2 (some 9) rwdefaultusers newuser = some r ∧ Updated rwdefaultusers newuser r :=
  have hr : machine.Reachable (fun _ _ => True) rwdefaultusers := .init rfl
  ⟨hr, users_incomplete hr 2 (some 9) newuser⟩

-- A new user is in the table and not in the file.
theorem newuser_lost :
    ∃ r, rwusers 2 (some 9) rwdefaultusers newuser = some r ∧ (∃ u ∈ r.t.known, u.name = bytes "bob" ∧ u.id = 6) ∧
      (r.listed.getD []).all (·.name ≠ bytes "bob") ∧ ¬Updated rwdefaultusers newuser r := by
  obtain ⟨r, hr⟩ : ∃ r, rwusers 2 (some 9) rwdefaultusers newuser = some r :=
    Option.isSome_iff_exists.mp (by decide +kernel)
  have hget : r = (rwusers 2 (some 9) rwdefaultusers newuser).get (by decide +kernel) := by simp [hr]
  refine ⟨r, hr, ?_, ?_, fun hu => ?_⟩
  · rw [hget]
    decide +kernel
  · rw [hget]
    decide +kernel
  · obtain ⟨l, hl, hall⟩ := hu.listed
    have hlost : ∀ l ∈ r.listed, ¬∀ u ∈ r.t.known, l.count u = 1 := by
      rw [hget]
      decide +kernel
    exact hlost l hl hall

end Creepy.Cfg
