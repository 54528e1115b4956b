import Nix.Lib.Words
import Nix.Lib.Machine

-- The sending side of a TCP connection: its windows and its timers.
namespace Ip.TcpUpdate

abbrev QMAX : UInt32 := 64 * 1024 - 1

abbrev MSPTICK : Int := 50
abbrev MAXBACKMS : Int := 9 * 60 * 1000
abbrev MAX_TIME : Int := 1 <<< 20
abbrev MSL2 : Int := 10

abbrev DEF_MSS : UInt16 := 1460
abbrev DEF_MSS6 : UInt16 := 1280
abbrev DEF_RTT : Int := 500


abbrev TCPREXMTTHRESH : UInt32 := 3

abbrev LOGAGAIN : Nat := 3
abbrev LOGDGAIN : Nat := 2

inductive State
  | Closed
  | Listen
  | Syn_sent
  | Syn_received
  | Established
  | Finwait1
  | Finwait2
  | Close_wait
  | Closing
  | Last_ack
  | Time_wait
deriving DecidableEq, Repr

inductive TimerState
  | OFF
  | ON
  | DONE
deriving DecidableEq, Repr

structure Tcptimer where
  state : TimerState := .OFF
  start : Int := 0
deriving DecidableEq, Repr

def Tcptimer.tcpgo (t : Tcptimer) : Tcptimer :=
  if t.start = 0 then t else { t with state := .ON }

def Tcptimer.tcphalt (t : Tcptimer) : Tcptimer :=
  { t with state := .OFF }

structure Snd where
  una      : UInt32 := 0
  nxt      : UInt32 := 0
  ptr      : UInt32 := 0
  wnd      : UInt32 := 0
  wl2      : UInt32 := 0
  dupacks  : UInt32 := 0
  recovery : Bool := false
  rxt      : UInt32 := 0
deriving DecidableEq, Repr

-- The flags FORCE, RETRAN and SYNACK are fields of their own. `qlen` is the length of the queue `wq`.
structure Tcpctl where
  state     : State := .Closed
  snd       : Snd := {}
  iss       : UInt32 := 0
  cwind     : UInt32 := 0
  abcbytes  : UInt32 := 0
  scale     : UInt16 := 0
  ssthresh  : UInt32 := 0
  mss       : UInt16 := 0
  backoff   : UInt8 := 0
  backedoff : Int := 0
  force     : Bool := false
  retran    : Bool := false
  synack    : Bool := false
  timer     : Tcptimer := {}
  rtt_timer : Tcptimer := {}
  rttseq    : UInt32 := 0
  srtt      : Int := 0
  mdev      : Int := 0
  flgcnt    : Int := 0
  qlen      : Nat := 0
deriving DecidableEq, Repr

-- What is read of a segment. The window is scaled.
structure Tcp where
  ack : UInt32
  wnd : UInt32
  len : UInt16 := 0
  mss : UInt16 := 0
deriving DecidableEq, Repr

def seq_lt (x y : UInt32) : Bool :=
  int32 (x - y).toNat < 0

def seq_gt (x y : UInt32) : Bool :=
  int32 (x - y).toNat > 0

def seq_ge (x y : UInt32) : Bool :=
  int32 (x - y).toNat ≥ 0

-- The factor is a shift of an `int`, whose count is taken modulo 32 by the machine.
def backoff (n : UInt8) : Int :=
  int32 (1 <<< (n.toNat % 32))

namespace Tcpctl

variable (tcb : Tcpctl)

-- The queues of a connection that is closed are emptied.
def tcpsetstate (newstate : State) : Tcpctl :=
  { tcb with
    state := newstate
    qlen  := if newstate = .Closed then 0 else tcb.qlen }

def localclose : Tcpctl :=
  tcpsetstate { tcb with timer := tcb.timer.tcphalt, rtt_timer := tcb.rtt_timer.tcphalt } .Closed

def tcpcongestion : Tcpctl :=
  let inflight := tcb.snd.nxt - tcb.snd.una
  let inflight := if inflight > tcb.cwind then tcb.cwind else inflight
  let ssthresh := inflight / 2
  { tcb with ssthresh := if ssthresh < 2 * tcb.mss.toUInt32 then 2 * tcb.mss.toUInt32 else ssthresh }

-- There is no result where the division by `limit` has none.
def tcpabcincr (acked limit : UInt32) : Option Tcpctl :=
  let abcbytes := tcb.abcbytes + acked
  if abcbytes ≥ limit then
    if limit = 0 then none
    else some { tcb with cwind := tcb.cwind + tcb.mss.toUInt32, abcbytes := abcbytes % limit }
  else
    some { tcb with abcbytes }

-- The round trip dependency, and the interval that is made of it.

def base : Int :=
  int32 (int32 (tcb.mdev + tcb.srtt >>> LOGAGAIN) + MSPTICK)

def interval : Int :=
  let x := (int32 (Ip.TcpUpdate.backoff tcb.backoff * tcb.base)).tdiv MSPTICK
  if x < 500 / MSPTICK then 500 / MSPTICK
  else if x > 64000 / MSPTICK then 64000 / MSPTICK
  else x

def tcpsettimer : Tcpctl :=
  { tcb with timer := { tcb.timer with start := tcb.interval } }

-- What is outside of the connection when `tcpoutput` goes around: whether the window of the receiver has opened up,
-- whether there is a block for the header, and whether there is a route.
structure Round where
  opened : Bool := false
  header : Bool := true
  route  : Bool := true
deriving DecidableEq, Repr

-- The sequence numbers that can be sent from `snd.ptr` on, or none where the window is being probed.
def usable (sent : UInt32) : Option UInt32 :=
  let ssize := UInt32.ofInt (tcb.qlen + tcb.flgcnt)
  if tcb.snd.wnd = 0 then
    if sent > 0 ∧ tcb.force = false then none
    else some <| if ssize - sent > 0 then 1 else 0
  else
    let ssize := if ssize > tcb.cwind then tcb.cwind else ssize
    let ssize := if ssize > tcb.snd.wnd then tcb.snd.wnd else ssize
    if ssize < sent then some 0
    else some <| if ssize - sent > tcb.mss.toUInt32 then tcb.mss.toUInt32 else ssize - sent

-- The timers, when something that will be acknowledged was sent.
def tcpgo (ssize : UInt32) : Tcpctl :=
  if ssize = 0 then tcb
  else
    let tcb := if tcb.timer.state = .ON then tcb else { tcb with timer := tcb.timer.tcpgo }
    if tcb.rtt_timer.state ≠ .ON ∧ ssize = tcb.mss.toUInt32 then
      { tcb with rtt_timer := tcb.rtt_timer.tcpgo, rttseq := tcb.snd.ptr }
    else tcb

-- A segment is sent. The result tells whether `tcpoutput` goes around again.
def send (r : Round) (ssize : UInt32) : Tcpctl × Bool :=
  let tcb := { tcb with force := false }
  let ssize := if tcb.state = .Syn_received ∧ tcb.snd.ptr = tcb.iss then 1 else ssize
  let ptr := tcb.snd.ptr + ssize
  let tcb := { tcb with snd := { tcb.snd with ptr, nxt := if seq_gt ptr tcb.snd.nxt then ptr else tcb.snd.nxt } }
  if r.header then
    let tcb := tcb.tcpgo ssize
    (if r.route then tcb else tcb.localclose, true)
  else
    (tcb, false)

def round (r : Round) : Tcpctl × Bool :=
  if tcb.state = .Listen ∨ tcb.state = .Closed ∨ tcb.state = .Finwait2 then (tcb, false)
  else if tcb.snd.ptr ≠ tcb.iss ∧ tcb.synack = false then (tcb, false)
  else
    let tcb := if r.opened then { tcb with force := true } else tcb
    let sent := tcb.snd.ptr - tcb.snd.una
    match tcb.usable sent with
    | none       => (tcb, false)
    | some ssize =>
      if tcb.force = false ∧ (ssize = 0 ∨ ssize < tcb.mss.toUInt32 ∧ tcb.snd.nxt = tcb.snd.ptr ∧
          sent > TCPREXMTTHRESH * tcb.mss.toUInt32) then
        (tcb, false)
      else
        tcb.send r ssize

def rounds (tcb : Tcpctl) (env : Nat → Round) : Nat → Tcpctl
  | 0     => tcb
  | n + 1 =>
    match tcb.round (env 0) with
    | (tcb, true)  => rounds tcb (fun i => env (i + 1)) n
    | (tcb, false) => tcb

def tcpoutput (env : Nat → Round) : Tcpctl :=
  tcb.rounds env 100

def tcprxmit (env : Nat → Round) : Tcpctl :=
  let t := tcpoutput
    { tcb with
      retran := true
      force  := true
      snd    := { tcb.snd with ptr := tcb.snd.una }
      cwind  := tcb.mss.toUInt32 } env
  { t with cwind := tcb.cwind, snd := { t.snd with ptr := tcb.snd.ptr } }

-- Where the acknowledgement `ack` is for data that is in flight.
def Acks (seg : Tcp) : Prop :=
  ¬ seq_gt seg.ack tcb.snd.nxt ∧ seq_gt seg.ack tcb.snd.una

instance : Decidable (tcb.Acks seg) := inferInstanceAs <| Decidable (_ ∧ _)

-- The part of `update` that counts the acknowledgements of the same data.
def dupack (seg : Tcp) (env : Nat → Round) : Tcpctl :=
  if seg.ack = tcb.snd.una ∧ tcb.snd.una ≠ tcb.snd.nxt ∧ seg.len = 0 ∧ seg.wnd = tcb.snd.wnd then
    let tcb := { tcb with snd := { tcb.snd with dupacks := tcb.snd.dupacks + 1 } }
    if tcb.snd.dupacks = TCPREXMTTHRESH then
      let tcb := { tcb with snd := { tcb.snd with recovery := true, rxt := tcb.snd.nxt } }
      let tcb := tcb.tcpcongestion.tcprxmit env
      { tcb with cwind := tcb.ssthresh }
    else
      { tcb with cwind := tcb.cwind + tcb.mss.toUInt32 }
  else tcb

def window (seg : Tcp) : Tcpctl :=
  if seq_gt seg.ack tcb.snd.wl2 ∨ tcb.snd.wl2 = seg.ack ∧ seg.wnd > tcb.snd.wnd then
    { tcb with snd := { tcb.snd with wnd := seg.wnd, wl2 := seg.ack } }
  else tcb

def congestion (seg : Tcp) (acked : UInt32) : Option Tcpctl :=
  if tcb.snd.recovery then
    if seq_ge seg.ack tcb.snd.rxt then
      -- recovery finished
      let cwind := tcb.snd.nxt - seg.ack + tcb.mss.toUInt32
      some
        { tcb with
          snd   := { tcb.snd with dupacks := 0, recovery := false }
          cwind := if tcb.ssthresh < cwind then tcb.ssthresh else cwind }
    else
      -- partial ack
      some { tcb with cwind := tcb.cwind - acked + tcb.mss.toUInt32 }
  else
    let tcb := { tcb with snd := { tcb.snd with dupacks := 0 } }
    if tcb.cwind < tcb.ssthresh then tcb.tcpabcincr acked (2 * tcb.mss.toUInt32) else tcb.tcpabcincr acked tcb.cwind

def clamp : Tcpctl :=
  if tcb.cwind > tcb.snd.wnd then { tcb with cwind := tcb.snd.wnd } else tcb

-- `ticks` is how long the round trip timer has been going.
def roundtrip (seg : Tcp) (ticks : Int) : Tcpctl :=
  if tcb.rtt_timer.state = .ON ∧ seq_ge seg.ack tcb.rttseq then
    let tcb := { tcb with rtt_timer := tcb.rtt_timer.tcphalt }
    if tcb.retran then tcb
    else
      let rtt := (if ticks = 0 then 1 else ticks) * MSPTICK
      let tcb := { tcb with backoff := 0, backedoff := 0 }
      if tcb.srtt = 0 then tcpsettimer { tcb with srtt := int32 (rtt <<< LOGAGAIN), mdev := int32 (rtt <<< LOGDGAIN) }
      else
        let delta := rtt - tcb.srtt >>> LOGAGAIN
        let srtt := int32 (tcb.srtt + delta)
        let mdev := int32 (tcb.mdev + (delta.natAbs - tcb.mdev >>> LOGDGAIN))
        tcpsettimer { tcb with srtt := if srtt ≤ 0 then 1 else srtt, mdev := if mdev ≤ 0 then 1 else mdev }
  else tcb

-- What was acknowledged is thrown away.
def qdiscard (seg : Tcp) (acked : UInt32) : Tcpctl :=
  { tcb with
    qlen   := tcb.qlen - acked.toNat
    flgcnt := if tcb.qlen < acked.toNat then tcb.flgcnt - 1 else tcb.flgcnt
    snd    := { tcb.snd with una := seg.ack } }

def settimers : Tcpctl :=
  { tcb with
    timer     := if tcb.snd.una = tcb.snd.nxt then tcb.timer.tcphalt else tcb.timer.tcpgo
    snd       := { tcb.snd with ptr := if seq_lt tcb.snd.ptr tcb.snd.una then tcb.snd.una else tcb.snd.ptr }
    retran    := tcb.snd.recovery && tcb.retran
    backoff   := 0
    backedoff := 0 }

-- The end of `update`, from `done` on.
def done (seg : Tcp) (acked : UInt32) (env : Nat → Round) : Tcpctl :=
  let tcb := tcb.qdiscard seg acked
  (if tcb.snd.recovery then tcb.tcprxmit env else tcb).settimers

def update (seg : Tcp) (ticks : Int) (env : Nat → Round) : Option Tcpctl :=
  if seq_gt seg.ack tcb.snd.nxt then some { tcb with force := true }
  else
    let tcb := (tcb.dupack seg env).window seg
    if seq_gt seg.ack tcb.snd.una then
      let acked := seg.ack - tcb.snd.una
      if tcb.synack then (tcb.congestion seg acked).map fun tcb => (tcb.clamp.roundtrip seg ticks).done seg acked env
      else some <| done { tcb with synack := true, flgcnt := tcb.flgcnt - 1 } seg (acked - 1) env
    else
      some { tcb with backedoff := if tcb.retran ∧ tcb.snd.wnd = 0 then MAXBACKMS / 4 else tcb.backedoff }

def backingoff : Tcpctl :=
  { tcb with
    backoff   := tcb.backoff + 1
    backedoff := int32 (tcb.backedoff + tcb.timer.start * MSPTICK) }

def maxback : Int :=
  if tcb.state = .Syn_sent then MAXBACKMS / 2 else MAXBACKMS

-- The first segment is sent again, and nothing more until it is acknowledged.
def startover (env : Nat → Round) : Tcpctl :=
  let tcb := tcb.tcpsettimer.tcpcongestion.tcprxmit env
  { tcb with
    snd   := { tcb.snd with ptr := tcb.snd.una, dupacks := 0, recovery := false }
    cwind := tcb.mss.toUInt32 }

def tcptimeout (env : Nat → Round) : Tcpctl :=
  match tcb.state with
  | .Time_wait => tcb.localclose
  | .Closed    => tcb
  | _          =>
    let tcb := tcb.backingoff
    if tcb.backedoff ≥ tcb.maxback then tcb.localclose else tcb.startover env

-- The `mtu` of the way to the other side, as the maximal size of a segment, is given, as is the scale of the window.

def inittcpctl (listen v6 : Bool) : Tcpctl where
  ssthresh  := QMAX
  srtt      := DEF_RTT <<< LOGAGAIN
  timer     := { start := DEF_RTT.tdiv MSPTICK }
  rtt_timer := { start := MAX_TIME }
  mss       := if v6 ∧ ¬ listen then DEF_MSS6 else DEF_MSS
  cwind     := (if v6 ∧ ¬ listen then DEF_MSS6 else DEF_MSS).toUInt32

def tcpsndsyn (iss : UInt32) (mtu scale : UInt16) : Tcpctl :=
  { tcb with
    iss    := iss
    rttseq := iss
    snd    := { tcb.snd with wl2 := iss, una := iss, ptr := iss, nxt := iss }
    flgcnt := tcb.flgcnt + 1
    force  := true
    mss    := mtu
    scale  := scale }

-- `delta` is the time since the SYN was sent.
def tcpsynackrtt (delta : Int) : Tcpctl :=
  { tcb with
    srtt      := int32 (delta <<< LOGAGAIN)
    mdev      := int32 (delta <<< LOGDGAIN)
    rtt_timer := tcb.rtt_timer.tcphalt }

def tcpsetscale (rcvscale sndscale : UInt16) : Tcpctl :=
  { tcb with ssthresh := if rcvscale ≠ 0 then QMAX <<< (sndscale &&& 0xff).toUInt32 else QMAX }

-- The largest segment that both sides allow.
def limitmss (mss : UInt16) : Tcpctl :=
  { tcb with mss := if mss ≠ 0 ∧ mss < tcb.mss then mss else tcb.mss }

def procsyn (seg : Tcp) : Tcpctl :=
  let tcb := { tcb with force := true }.limitmss seg.mss
  { tcb with
    snd   := { tcb.snd with wnd := seg.wnd }
    cwind :=
      if tcb.mss < 1095 then 4 * tcb.mss.toUInt32
      else if tcb.mss < 2190 then 4380
      else 2 * tcb.mss.toUInt32 }

-- A conversation is made of the control block of the listener when the handshake is completed.
def tcpincoming (iss : UInt32) (mss rcvscale sndscale : UInt16) (wnd : UInt32) (delta : Int) : Tcpctl :=
  let tcb := inittcpctl true false
  let tcb :=
    { tcb with
      iss    := iss
      rttseq := iss
      snd    := { tcb.snd with wl2 := iss, una := iss + 1, ptr := iss + 1, nxt := iss + 1 }
      synack := true }
  let tcb := (tcb.limitmss mss).tcpsetscale rcvscale sndscale
  let tcb := { tcb with snd := { tcb.snd with wnd := wnd }, cwind := tcb.mss.toUInt32 }
  (tcb.tcpsynackrtt delta).tcpsetstate .Established

def tcpclose (env : Nat → Round) : Tcpctl :=
  match tcb.state with
  | .Listen | .Closed | .Syn_sent => tcb.localclose
  | .Syn_received | .Established  => finish .Finwait1
  | .Close_wait                   => finish .Last_ack
  | _                             => tcb
where
  finish (newstate : State) : Tcpctl :=
    let tcb := { tcb with flgcnt := tcb.flgcnt + 1, snd := { tcb.snd with nxt := tcb.snd.nxt + 1 } }
    (tcb.tcpsetstate newstate).tcpoutput env

def tcpkick (env : Nat → Round) : Tcpctl :=
  match tcb.state with
  | .Syn_sent | .Syn_received | .Established | .Close_wait => tcb.tcpoutput env
  | _                                                      => tcb.localclose

-- The changes of state that `tcpiput` makes of what it receives. `Finwait1` and `Closing` are left when there is
-- nothing more to be acknowledged.
def receive (newstate : State) : Option Tcpctl :=
  match tcb.state, newstate with
  | .Syn_sent, .Syn_received | .Syn_sent, .Established | .Syn_received, .Established => some (tcb.tcpsetstate newstate)
  | .Syn_received, .Close_wait | .Established, .Close_wait | .Finwait1, .Closing => some (tcb.tcpsetstate newstate)
  | .Finwait1, .Finwait2  =>
    if tcb.qlen + tcb.flgcnt = 0 then
      some (tcpsetstate { tcb with rtt_timer := tcb.rtt_timer.tcphalt } .Finwait2)
    else none
  | .Finwait1, .Time_wait => if tcb.qlen + tcb.flgcnt = 0 then some timewait else none
  | .Closing, .Time_wait  => if tcb.qlen + tcb.flgcnt = 0 then some timewait else none
  | .Finwait2, .Time_wait => some timewait
  | .Time_wait, .Time_wait => some { tcb with timer := tcb.timer.tcpgo }
  | _, _ => none
where
  timewait : Tcpctl :=
    let tcb := tcpsetstate { tcb with rtt_timer := tcb.rtt_timer.tcphalt } .Time_wait
    { tcb with timer := Tcptimer.tcpgo { tcb.timer with start := MSL2 * (1000 / MSPTICK) } }

end Tcpctl

-- What happens to a connection. For a segment `tcpiput` takes several of these steps.
inductive Action
  | tcpconnect (v6 : Bool) (iss : UInt32) (mtu scale : UInt16) (env : Nat → Tcpctl.Round)
  | tcpincoming (iss : UInt32) (mss rcvscale sndscale : UInt16) (wnd : UInt32) (delta : Int)
  | procsyn (seg : Tcp)
  | tcpsynackrtt (delta : Int)
  | tcpsetscale (rcvscale : UInt16)
  | update (seg : Tcp) (ticks : Int) (env : Nat → Tcpctl.Round)
  | receive (newstate : State)
  | force
  | tcpoutput (env : Nat → Tcpctl.Round)
  | tcpkick (env : Nat → Tcpctl.Round)
  | qwrite (n : Nat)
  | tcpclose (env : Nat → Tcpctl.Round)
  | localclose
  | expire
  | tcptimeout (env : Nat → Tcpctl.Round)

def step (tcb : Tcpctl) : Action → Option Tcpctl
  | .tcpconnect v6 iss mtu scale env =>
    if tcb.state = .Closed then
      let tcb := (Tcpctl.inittcpctl false v6).tcpsndsyn iss mtu scale
      some ((tcb.tcpsetstate .Syn_sent).tcpoutput env)
    else none
  | .tcpincoming iss mss rcvscale sndscale wnd delta =>
    if tcb.state = .Closed then some (Tcpctl.tcpincoming iss mss rcvscale sndscale wnd delta) else none
  | .procsyn seg            => if tcb.state = .Syn_sent then some (tcb.procsyn seg) else none
  | .tcpsynackrtt delta     =>
    if tcb.state = .Syn_sent ∨ tcb.state = .Syn_received then some (tcb.tcpsynackrtt delta) else none
  | .tcpsetscale rcvscale   => if tcb.state = .Established then some (tcb.tcpsetscale rcvscale tcb.scale) else none
  | .update seg ticks env   => tcb.update seg ticks env
  | .receive newstate       => tcb.receive newstate
  | .force                  => some { tcb with force := true }
  | .tcpoutput env          => some (tcb.tcpoutput env)
  | .tcpkick env            => some (tcb.tcpkick env)
  | .qwrite n               => if tcb.state = .Closed then none else some { tcb with qlen := tcb.qlen + n }
  | .tcpclose env           => some (tcb.tcpclose env)
  | .localclose             => some tcb.localclose
  | .expire                 =>
    if tcb.timer.state = .ON then some { tcb with timer := { tcb.timer with state := .DONE } } else none
  -- the timer may have been started again or halted since it was seen to be done
  | .tcptimeout env         => some (tcb.tcptimeout env)

def machine : Machine Tcpctl Action where
  init tcb := tcb = {}
  step     := step

end Ip.TcpUpdate
