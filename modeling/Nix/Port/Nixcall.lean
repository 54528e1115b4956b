import Nix.Lib.Words
import Nix.Lib.Machine
import Nix.Lib.RingBuffer

-- System calls by queues: a process puts its calls into a ring, a process of the kernel takes them from there and puts
-- the replies into a second one.
namespace Port.Callq

abbrev CALLQSZ : Nat := 512

structure Nixcall where
  tag   : Nat
  scall : Int
  sarg  : Nat
deriving DecidableEq

structure Nixret where
  tag  : Nat
  sret : Int
  err  : Option String
deriving DecidableEq

-- What `nixsyscall` has as the reply.
def Nixcall.reply (nc : Nixcall) : Nixret where
  tag  := nc.tag
  sret := int32 (-nc.scall)
  err  := none

def NEXT (i : Nat) : Nat :=
  RingBuffer.next CALLQSZ i

inductive Cmd
  | NCinit
  | NCdie
  | NCdone
deriving DecidableEq

-- Where the process of the user is: at a statement of `nixcall`, of `nixret` or of `sysnixsyscall`.
inductive Upc
  | user
  | full (nc : Nixcall) (wakekernel : Bool)
  | fill (nc : Nixcall) (wakekernel : Bool)
  | qw (nc : Nixcall) (wakekernel : Bool)
  | ksleep (wakekernel : Bool)
  | fatal
  | empty (nr : Bool)
  | tag (nr : Bool)
  | copy (nr : Bool) (tag : Nat)
  | rr (tag : Nat) (nr : Option Nixret)
  | nixpctl
  | uwait
  | asleep
  | wakeup
deriving DecidableEq

-- Where `nixkproc` is, which is not there at first.
inductive Kpc
  | none
  | cmd
  | uwait
  | poll (i : Nat)
  | ready
  | ksleep
  | kwait
  | asleep
  | awake
  | switch
  | test
  | tag
  | sret
  | err
  | qr
  | rw
  | done
deriving DecidableEq

-- The last four tell of the calls that were queued and how many of them were taken, the replies that were queued, and
-- what was returned of them.
structure State where
  ksleep  : Bool
  qr      : Nat
  qw      : Nat
  rr      : Nat
  rw      : Nat
  q       : Nat → Nixcall
  r       : Nat → Nixret
  nixpctl : Option Cmd
  upc     : Upc
  kpc     : Kpc
  calls   : List Nixcall
  taken   : Nat
  replies : List Nixret
  got     : List (Nat × Option Nixret)

namespace State

def cmdready (s : State) : Bool :=
  s.nixpctl ≠ some .NCdone ∨ s.qr ≠ s.qw

-- The next step of the user's process.
def user (s : State) : Option State :=
  match s.upc with
  | .user             => none
  -- `nixcall`
  | .full nc w        => some { s with upc := if NEXT s.qw = s.qr then .fatal else .fill nc w }
  | .fill nc w        => some { s with q := Function.update s.q s.qw nc, upc := .qw nc w }
  | .qw nc w          => some { s with qw := NEXT s.qw, calls := s.calls ++ [nc], upc := .ksleep w }
  | .ksleep w         => some { s with upc := if w && s.ksleep then .nixpctl else .user }
  | .fatal            => none
  -- `nixret`
  | .empty nr         => some { s with upc := if s.rr = s.rw then .user else .tag nr }
  | .tag nr           => some { s with upc := .copy nr (s.r s.rr).tag }
  | .copy nr tag      => some { s with upc := .rr tag (if nr then some (s.r s.rr) else none) }
  | .rr tag nr        => some { s with rr := NEXT s.rr, got := s.got ++ [(tag, nr)], upc := .user }
  -- `sysnixsyscall`
  | .nixpctl          =>
    if s.nixpctl = none then some { s with nixpctl := some .NCinit, kpc := .cmd, upc := .uwait }
    else some { s with upc := .wakeup }
  | .uwait            => some { s with upc := if s.nixpctl = some .NCdone then .wakeup else .asleep }
  | .asleep           => none
  | .wakeup           => some { s with kpc := if s.kpc = .asleep then .ready else s.kpc, upc := .user }

-- The next step of `nixkproc`.
def nixkproc (s : State) : Option State :=
  match s.kpc with
  | .none   => none
  | .cmd    => some { s with nixpctl := some .NCdone, kpc := .uwait }
  | .uwait  => some { s with upc := if s.upc = .asleep then .wakeup else s.upc, kpc := .poll 0 }
  | .poll i => some { s with kpc := if i < 1000 ∧ !s.cmdready then .poll (i + 1) else .ready }
  | .ready  => some { s with kpc := if s.cmdready then .awake else .ksleep }
  | .ksleep => some { s with ksleep := true, kpc := .kwait }
  -- `sleep` tests once more with its lock held, which `wakeup` has to take.
  | .kwait  => some { s with kpc := if s.cmdready then .ready else .asleep }
  | .asleep => none
  | .awake  => some { s with ksleep := false, kpc := .switch }
  | .switch =>
    match s.nixpctl with
    | some .NCdone => some { s with kpc := .test }
    | some .NCdie  => some { s with kpc := .done }
    | _            => none
  | .test   => some { s with kpc := if s.qr ≠ s.qw then .tag else .poll 0 }
  -- `nixsyscall`
  | .tag    => some { s with r := Function.update s.r s.rw { s.r s.rw with tag := (s.q s.qr).tag }, kpc := .sret }
  | .sret   => some { s with r := Function.update s.r s.rw { s.r s.rw with sret := int32 (-(s.q s.qr).scall) }, kpc := .err }
  | .err    => some { s with r := Function.update s.r s.rw { s.r s.rw with err := none }, kpc := .qr }
  | .qr     => some { s with qr := NEXT s.qr, taken := s.taken + 1, kpc := .rw }
  | .rw     => some { s with rw := NEXT s.rw, replies := s.replies ++ [s.r s.rw], kpc := .poll 0 }
  | .done   => none

end State

inductive Act
  | nixcall (nc : Nixcall) (wakekernel : Bool)
  | nixret (nr : Bool)
  | sysnixsyscall
  -- the next step of the user's process, or of the kernel's
  | user
  | nixkproc

def step (s : State) : Act → Option State
  | .nixcall nc w    => if s.upc = .user then some { s with upc := .full nc w } else none
  | .nixret nr       => if s.upc = .user then some { s with upc := .empty nr } else none
  | .sysnixsyscall   => if s.upc = .user then some { s with upc := .nixpctl } else none
  | .user            => s.user
  | .nixkproc        => s.nixkproc

-- The queues are in the pages at the top of the stack, which are zero at first.
structure Init (s : State) : Prop where
  ksleep  : s.ksleep = false
  qr      : s.qr = 0
  qw      : s.qw = 0
  rr      : s.rr = 0
  rw      : s.rw = 0
  nixpctl : s.nixpctl = none
  upc     : s.upc = .user
  kpc     : s.kpc = .none
  calls   : s.calls = []
  taken   : s.taken = 0
  replies : s.replies = []
  got     : s.got = []

def machine : Machine State Act where
  init := Init
  step := step

end Port.Callq
