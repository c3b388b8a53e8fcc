/-
# `NetProbes.TrPackage.Probes` — the probes on the path of a packet

`tr_package.c` has ten probes.  Four store the clock in a slot of the array
`current_time`; six fill a message in the ring buffer and submit it, under the
name of the stage that came before.  `layer.c` is the same program.

    probe                     slot          message named
    kprobe_tcp_transmit_skb   0 := clock
    kprobe_ip_queue_xmit      0 := clock    T _tcp_transmit_skb
    kprobe_ip_local_out                     T __ip_queue_xmit
    kprobe_dev_queue_xmit                   T __dev_queue_xmit
    kprobe_eth_type_trans     2 := clock
    kprobe_ip_rcv             3 := clock    R eth_type_trans
    kprobe_ip_local_deliver_finish
                              3 := clock
    kprobe_ip_protocol_deliver_rcu          R ip_local_deliver_finish
    kprobe_tcp_rcv_established
                              4 := clock
    kprobe_tcp_data_queue                   R tcp_rcv_established

The memory that `bpf_ringbuf_reserve` returns is a message with any contents,
and a probe fills some of its fields.  The user-space side decodes the bytes
of the message (`decode`).
-/
import NetProbes.Lib.CString

namespace NetProbes.TrPackage

open NetProbes.Lib

/-! ## Messages -/

/-- `struct skb_message`. -/
@[ext] structure SkbMessage where
  time : UInt64
  len : UInt32
  dataLen : UInt32
  transportHeader : UInt16
  networkHeader : UInt16
  macHeader : UInt16
  name : Buf 30
  deriving DecidableEq

/-- The packed struct in memory. -/
def SkbMessage.bytes (m : SkbMessage) : List UInt8 :=
  bytes64 m.time ++ (bytes32 m.len ++ (bytes32 m.dataLen ++ (bytes16 m.transportHeader ++
    (bytes16 m.networkHeader ++ (bytes16 m.macHeader ++ m.name.1)))))

/-- `binary.Read` of a record into the struct of the user-space side. -/
def decode (p : List UInt8) : Option SkbMessage :=
  if h : 52 ≤ p.length then
    some {
      time := u64At p 0
      len := u32At p 8
      dataLen := u32At p 12
      transportHeader := u16At p 16
      networkHeader := u16At p 18
      macHeader := u16At p 20
      name := ⟨slice p 22 30, slice_length h⟩ }
  else none

/-- The user-space side reads the fields the probe wrote. -/
theorem decode_bytes (m : SkbMessage) : decode m.bytes = some m := by
  obtain ⟨time, len, dataLen, transport, network, mac, name⟩ := m
  have hlen : 52 ≤ (SkbMessage.bytes ⟨time, len, dataLen, transport, network, mac, name⟩).length := by
    simp [SkbMessage.bytes]
  rw [decode, dif_pos hlen, Option.some.injEq, SkbMessage.mk.injEq]
  refine ⟨u64At_bytes64 (a := []) time rfl, ?_, ?_, ?_, ?_, ?_, Subtype.ext ?_⟩
  · exact u32At_bytes32 len (bytes64_length time).symm
  · exact u32At_bytes32 (a := bytes64 time ++ bytes32 len) dataLen rfl
  · exact u16At_bytes16 (a := bytes64 time ++ bytes32 len ++ bytes32 dataLen) transport rfl
  · exact u16At_bytes16
      (a := bytes64 time ++ bytes32 len ++ bytes32 dataLen ++ bytes16 transport) network rfl
  · exact u16At_bytes16 (a := bytes64 time ++ bytes32 len ++ bytes32 dataLen ++
      bytes16 transport ++ bytes16 network) mac rfl
  · show slice (bytes64 time ++ bytes32 len ++ bytes32 dataLen ++ bytes16 transport ++
      bytes16 network ++ bytes16 mac ++ name.1) 22 30 = name.1
    rw [slice_append_right (by simp)]
    exact (congrArg (slice · 0 30) (List.append_nil name.1).symm).trans
      (slice_append_left name.2)

/-! ## What a probe sees -/

/-- What the five reads from the second (for `ip_rcv` the first) argument find,
nothing where the address cannot be read. -/
structure SkBuff where
  len : Option UInt32
  dataLen : Option UInt32
  macHeader : Option UInt16
  networkHeader : Option UInt16
  transportHeader : Option UInt16

/-- What differs from firing to firing: the clock, `bpf_get_current_pid_tgid`,
the packet, and the reserved memory, nothing where the buffer is full. -/
structure Ctx where
  clock : UInt64
  pidTgid : UInt64
  skb : SkBuff
  reserved : Option SkbMessage

/-- The maps, and the records submitted to `events`. -/
structure Maps where
  pidforUser : UInt32
  currentTime : Fin 6 → UInt64
  events : List (List UInt8)

def Maps.init : Maps := ⟨0, fun _ => 0, []⟩

/-! ## Parts of the probes -/

/-- The filter on the process. -/
def passes (maps : Maps) (ctx : Ctx) : Bool :=
  !(maps.pidforUser ≠ 0 && (ctx.pidTgid >>> 32).toUInt32 ≠ maps.pidforUser)

/-- `bpf_map_update_elem` on `current_time`. -/
def Maps.storeTime (maps : Maps) (slot : Fin 6) (time : UInt64) : Maps :=
  { maps with currentTime := Function.update maps.currentTime slot time }

/-- `bpf_ringbuf_submit`. -/
def Maps.submit (maps : Maps) (m : SkbMessage) : Maps :=
  { maps with events := maps.events ++ [m.bytes] }

/-- The five `bpf_probe_read_kernel` from the packet; a read that fails writes
zeros. -/
def SkbMessage.readSkb (m : SkbMessage) (skb : SkBuff) : SkbMessage :=
  { m with
    len := skb.len.getD 0
    dataLen := skb.dataLen.getD 0
    macHeader := skb.macHeader.getD 0
    networkHeader := skb.networkHeader.getD 0
    transportHeader := skb.transportHeader.getD 0 }

/-- `bpf_probe_read_kernel` to the start of `name`. -/
def SkbMessage.readName (m : SkbMessage) (ch : List UInt8) (h : ch.length ≤ 30) : SkbMessage :=
  { m with
    name := ⟨overwrite m.name.1 0 ch, by
      rw [overwrite_length (by rw [m.name.2]; omega), m.name.2]⟩ }

/-- An array `char ch[30]` with a string in it, read to `name`. -/
def SkbMessage.setName (m : SkbMessage) (label : List UInt8) : SkbMessage :=
  m.readName (padded 30 label).1 (Nat.le_of_eq (padded 30 label).2)

/-- The filter and the reservation, and then the rest of the probe. -/
def withReserved (maps : Maps) (ctx : Ctx) (rest : SkbMessage → Maps) : Maps :=
  if passes maps ctx then
    match ctx.reserved with
    | none => maps
    | some mem => rest mem
  else maps

/-- The probes that fill nothing but the packet's fields and the name. -/
def emitNamed (label : List UInt8) (maps : Maps) (ctx : Ctx) : Maps :=
  withReserved maps ctx fun mem => maps.submit ((mem.readSkb ctx.skb).setName label)

/-! ## Labels -/

/-- `"T _tcp_transmit_skb"`. -/
def labelTcpTransmitSkb : List UInt8 := cstr
  ['T', ' ', '_', 't', 'c', 'p', '_', 't', 'r', 'a', 'n', 's', 'm', 'i', 't', '_', 's', 'k', 'b']

/-- `"T __ip_queue_xmit"`. -/
def labelIpQueueXmit : List UInt8 := cstr
  ['T', ' ', '_', '_', 'i', 'p', '_', 'q', 'u', 'e', 'u', 'e', '_', 'x', 'm', 'i', 't']

/-- `"T __dev_queue_xmit"`. -/
def labelDevQueueXmit : List UInt8 := cstr
  ['T', ' ', '_', '_', 'd', 'e', 'v', '_', 'q', 'u', 'e', 'u', 'e', '_', 'x', 'm', 'i', 't']

/-- `"R eth_type_trans"`. -/
def labelEthTypeTrans : List UInt8 := cstr
  ['R', ' ', 'e', 't', 'h', '_', 't', 'y', 'p', 'e', '_', 't', 'r', 'a', 'n', 's']

/-- `"R ip_local_deliver_finish"`. -/
def labelIpLocalDeliverFinish : List UInt8 := cstr
  ['R', ' ', 'i', 'p', '_', 'l', 'o', 'c', 'a', 'l', '_', 'd', 'e', 'l', 'i', 'v', 'e', 'r', '_',
    'f', 'i', 'n', 'i', 's', 'h']

/-- `"R tcp_rcv_established"`. -/
def labelTcpRcvEstablished : List UInt8 := cstr
  ['R', ' ', 't', 'c', 'p', '_', 'r', 'c', 'v', '_', 'e', 's', 't', 'a', 'b', 'l', 'i', 's', 'h',
    'e', 'd']

/-! ## The ten probes -/

def kprobeTcpTransmitSkb (maps : Maps) (ctx : Ctx) : Maps := maps.storeTime 0 ctx.clock

/-- The stored time goes to `name`, which the label then covers, and the clock
to slot 0. -/
def kprobeIpQueueXmit (maps : Maps) (ctx : Ctx) : Maps :=
  withReserved maps ctx fun mem =>
    let current := maps.currentTime 0
    let m := mem.readName (bytes64 current) (by rw [bytes64_length]; decide)
    let m := m.readSkb ctx.skb
    let m := m.setName labelTcpTransmitSkb
    (maps.submit m).storeTime 0 ctx.clock

def kprobeIpLocalOut (maps : Maps) (ctx : Ctx) : Maps := emitNamed labelIpQueueXmit maps ctx

/-- The clock goes to `time`; the array `ch` is as long as the label. -/
def kprobeDevQueueXmit (maps : Maps) (ctx : Ctx) : Maps :=
  withReserved maps ctx fun mem =>
    let m := { mem with time := ctx.clock }
    let m := m.readSkb ctx.skb
    let m := m.readName (labelDevQueueXmit ++ [0]) (by decide)
    maps.submit m

def kprobeEthTypeTrans (maps : Maps) (ctx : Ctx) : Maps := maps.storeTime 2 ctx.clock

def kprobeIpRcv (maps : Maps) (ctx : Ctx) : Maps :=
  withReserved maps ctx fun mem =>
    let m := mem.readSkb ctx.skb
    let m := m.setName labelEthTypeTrans
    (maps.submit m).storeTime 3 ctx.clock

def kprobeIpLocalDeliverFinish (maps : Maps) (ctx : Ctx) : Maps := maps.storeTime 3 ctx.clock

def kprobeIpProtocolDeliverRcu (maps : Maps) (ctx : Ctx) : Maps :=
  emitNamed labelIpLocalDeliverFinish maps ctx

def kprobeTcpRcvEstablished (maps : Maps) (ctx : Ctx) : Maps := maps.storeTime 4 ctx.clock

def kprobeTcpDataQueue (maps : Maps) (ctx : Ctx) : Maps := emitNamed labelTcpRcvEstablished maps ctx

/-! ## Runs -/

/-- The probes. -/
inductive Probe where
  | tcpTransmitSkb
  | ipQueueXmit
  | ipLocalOut
  | devQueueXmit
  | ethTypeTrans
  | ipRcv
  | ipLocalDeliverFinish
  | ipProtocolDeliverRcu
  | tcpRcvEstablished
  | tcpDataQueue
  deriving DecidableEq

/-- A firing of a probe. -/
def fire : Probe → Maps → Ctx → Maps
  | .tcpTransmitSkb => kprobeTcpTransmitSkb
  | .ipQueueXmit => kprobeIpQueueXmit
  | .ipLocalOut => kprobeIpLocalOut
  | .devQueueXmit => kprobeDevQueueXmit
  | .ethTypeTrans => kprobeEthTypeTrans
  | .ipRcv => kprobeIpRcv
  | .ipLocalDeliverFinish => kprobeIpLocalDeliverFinish
  | .ipProtocolDeliverRcu => kprobeIpProtocolDeliverRcu
  | .tcpRcvEstablished => kprobeTcpRcvEstablished
  | .tcpDataQueue => kprobeTcpDataQueue

/-- A probe fires, or the user-space side sets the process. -/
inductive Event where
  | fire (probe : Probe) (ctx : Ctx)
  | setPid (pid : UInt32)

def handle (maps : Maps) : Event → Maps
  | .fire probe ctx => fire probe maps ctx
  | .setPid pid => { maps with pidforUser := pid }

/-- The maps after some events. -/
def run (events : List Event) : Maps := events.foldl handle Maps.init

end NetProbes.TrPackage
