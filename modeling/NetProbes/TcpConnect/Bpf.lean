/-
# `NetProbes.TcpConnect.Bpf` — the probes of `tcpconnect`

`tcpconnect.bpf.c` (and `simple.bpf.c`, the same program for another loader)
remembers the socket of a thread that enters `tcp_v4_connect` or
`tcp_v6_connect` and, when the call returns, reports the connection: a perf
event, or one more in the counter of its flow.

The state of the program is its three maps and the perf output (`Maps`).  What
a probe reads from the kernel is passed to it: the current thread (`tid`,
`Task`), the fields of every socket (`UInt64 → SockCommon`, by its address) and
the clock.  A return probe also says what it reported, if anything.
-/
import NetProbes.Lib.Bytes
import NetProbes.Lib.HashMap

namespace NetProbes.TcpConnect

open NetProbes.Lib

/-! ## Data -/

/-- The constants of `.rodata`. -/
structure Config where
  filterPorts : { l : List Int // l.length = 64 }
  filterPortsLen : Nat
  len_le : filterPortsLen ≤ 64
  filterUid : UInt32
  filterPid : UInt32
  doCount : Bool

/-- The current process and user, and the name of the thread. -/
structure Task where
  pid : UInt32
  uid : UInt32
  comm : Buf 16
  deriving DecidableEq

/-- The fields of `struct sock_common` that are read.  Addresses and port are in
network order. -/
structure SockCommon where
  skcRcvSaddr : UInt32
  skcDaddr : UInt32
  skcV6RcvSaddr : Buf 16
  skcV6Daddr : Buf 16
  skcDport : UInt16
  deriving DecidableEq

/-- `struct ipv4_flow_key`. -/
structure Ipv4FlowKey where
  saddr : UInt32
  daddr : UInt32
  dport : UInt16
  deriving DecidableEq

/-- `struct ipv6_flow_key`. -/
structure Ipv6FlowKey where
  saddr : Buf 16
  daddr : Buf 16
  dport : UInt16
  deriving DecidableEq

/-- `struct event`; an IPv4 address takes the first four bytes of its union. -/
structure Event where
  saddr : Buf 16
  daddr : Buf 16
  task : Buf 16
  tsUs : UInt64
  af : UInt32
  pid : UInt32
  uid : UInt32
  dport : UInt16
  deriving DecidableEq

/-- The maps of the program and what it has put out on `events`. -/
structure Maps where
  sockets : HashMap UInt32 UInt64 8192
  ipv4Count : HashMap Ipv4FlowKey UInt64 8192
  ipv6Count : HashMap Ipv6FlowKey UInt64 8192
  events : List Event

/-- Which of the two functions a probe sits on. -/
inductive IpVer where
  | v4
  | v6
  deriving DecidableEq, Repr

/-- What a return probe did: an event, or one more in a counter. -/
inductive Report where
  | event (e : Event)
  | count4 (k : Ipv4FlowKey)
  | count6 (k : Ipv6FlowKey)
  deriving DecidableEq

/-! ## The filters -/

/-- The loop of `filter_port` from index `i` on. -/
def filterPortLoop (cfg : Config) (port : UInt16) : Nat → Nat → Bool
  | 0, _ => true
  | n + 1, i =>
      if (port.toNat : Int) = cfg.filterPorts.1.getD i 0 then false
      else filterPortLoop cfg port n (i + 1)

/-- `filter_port`: the port is to be left out. -/
def filterPort (cfg : Config) (port : UInt16) : Bool :=
  if cfg.filterPortsLen = 0 then false else filterPortLoop cfg port cfg.filterPortsLen 0

/-! ## Entry -/

section Probes
variable [HashOrder UInt32] [HashOrder Ipv4FlowKey] [HashOrder Ipv6FlowKey]

/-- `enter_tcp_connect`. -/
def enterTcpConnect (cfg : Config) (tid : UInt32) (task : Task) (sk : UInt64) (m : Maps) : Maps :=
  if cfg.filterPid ≠ 0 ∧ task.pid ≠ cfg.filterPid then m
  else if cfg.filterUid ≠ 0xFFFFFFFF ∧ task.uid ≠ cfg.filterUid then m
  else
    match m.sockets.update tid sk .any with
    | .ok sockets => { m with sockets := sockets }
    | .error _ => m

/-! ## Return -/

/-- The part `count_v4` and `count_v6` share: one more under a key, where the
map has or takes it. -/
def countFlow {K : Type} [DecidableEq K] [HashOrder K] (m : HashMap K UInt64 8192) (key : K) :
    Option (HashMap K UInt64 8192) :=
  (m.lookupOrTryInit key 0).map fun m => m.modify key (· + 1)

/-- `count_v4`. -/
def countV4 (sk : SockCommon) (dport : UInt16) (m : Maps) : Maps × Option Report :=
  let key : Ipv4FlowKey := ⟨sk.skcRcvSaddr, sk.skcDaddr, dport⟩
  match countFlow m.ipv4Count key with
  | some counts => ({ m with ipv4Count := counts }, some (.count4 key))
  | none => (m, none)

/-- `count_v6`. -/
def countV6 (sk : SockCommon) (dport : UInt16) (m : Maps) : Maps × Option Report :=
  let key : Ipv6FlowKey := ⟨sk.skcV6RcvSaddr, sk.skcV6Daddr, dport⟩
  match countFlow m.ipv6Count key with
  | some counts => ({ m with ipv6Count := counts }, some (.count6 key))
  | none => (m, none)

/-- The event `trace_v4` builds. -/
def eventV4 (task : Task) (now : UInt64) (sk : SockCommon) (dport : UInt16) : Event where
  saddr := padded 16 (bytes32 sk.skcRcvSaddr)
  daddr := padded 16 (bytes32 sk.skcDaddr)
  task := task.comm
  tsUs := now / 1000
  af := 2
  pid := task.pid
  uid := task.uid
  dport := dport

/-- The event `trace_v6` builds. -/
def eventV6 (task : Task) (now : UInt64) (sk : SockCommon) (dport : UInt16) : Event where
  saddr := sk.skcV6RcvSaddr
  daddr := sk.skcV6Daddr
  task := task.comm
  tsUs := now / 1000
  af := 10
  pid := task.pid
  uid := task.uid
  dport := dport

/-- `bpf_perf_event_output` of `trace_v4` and `trace_v6`. -/
def output (e : Event) (m : Maps) : Maps × Option Report :=
  ({ m with events := m.events ++ [e] }, some (.event e))

/-- `trace_v4`. -/
def traceV4 (task : Task) (now : UInt64) (sk : SockCommon) (dport : UInt16) (m : Maps) :
    Maps × Option Report := output (eventV4 task now sk dport) m

/-- `trace_v6`. -/
def traceV6 (task : Task) (now : UInt64) (sk : SockCommon) (dport : UInt16) (m : Maps) :
    Maps × Option Report := output (eventV6 task now sk dport) m

/-- The part of `exit_tcp_connect` between the lookup and the label `end`. -/
def report (cfg : Config) (task : Task) (now : UInt64) (sk : SockCommon) (ret : Int) (ipVer : IpVer)
    (m : Maps) : Maps × Option Report :=
  if ret ≠ 0 then (m, none)
  else
    let dport := sk.skcDport
    if filterPort cfg dport then (m, none)
    else if cfg.doCount then
      match ipVer with
      | .v4 => countV4 sk dport m
      | .v6 => countV6 sk dport m
    else
      match ipVer with
      | .v4 => traceV4 task now sk dport m
      | .v6 => traceV6 task now sk dport m

/-- `exit_tcp_connect`. -/
def exitTcpConnect (cfg : Config) (tid : UInt32) (task : Task) (mem : UInt64 → SockCommon)
    (now : UInt64) (ret : Int) (ipVer : IpVer) (m : Maps) : Maps × Option Report :=
  match m.sockets.lookup tid with
  | none => (m, none)
  | some sk =>
      let (m, r) := report cfg task now (mem sk) ret ipVer m
      match m.sockets.delete tid with
      | .ok sockets => ({ m with sockets := sockets }, r)
      | .error _ => (m, r)

end Probes

end NetProbes.TcpConnect
