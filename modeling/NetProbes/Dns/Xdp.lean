/-
# `NetProbes.Dns.Xdp` — the XDP program that answers DNS queries

`dnsExpress.c` looks at every incoming frame, takes the question out of a DNS
query over IPv4 and UDP, looks it up in the map `xdns_a_records` and, when it is
there, turns the frame into its own answer and sends it back.

`dnscache.bpf.c` has the same functions for another loader, and another map: it
declares the key as a `size_t`, 8 bytes, and does not pin the map.  The map here
is that of `dnsExpress.c`, with whole keys, which is pinned where the command
line opens it.

The frame is a byte string and every access names its offset in it, so the
pointers of the source are offsets from `ctx->data` and `ctx->data_end` is the
length.  An access outside the frame or outside an array is `none`; the checks
the source makes are written out, and `xdpDns` never comes to such an access.

    eth  0..13   h_dest 0, h_source 6, h_proto 12
    ip  14..33   tot_len 16, protocol 23, check 24, saddr 26, daddr 30
    udp 34..41   source 34, dest 36, len 38, check 40
    dns 42..53   transaction_id 42, flags 44 and 45, q_count 46, ans_count 48,
                 auth_count 50, add_count 52
    query from 54

Not modelled: the `DEBUG` messages, the `EDNS` branches (not compiled here) and
`BCC_SEC`.
-/
import NetProbes.Lib.Bytes
import NetProbes.Lib.HashMap

namespace NetProbes.Dns

open NetProbes.Lib

/-! ## Data -/

/-- `struct dns_query`, the key of the record map. -/
structure DnsQuery where
  recordType : UInt16
  cls : UInt16
  name : Buf 256
  deriving DecidableEq

/-- `struct a_record`, the value of the record map.  The address is in network
order: its bytes in memory are the bytes on the wire. -/
structure ARecord where
  ipAddr : UInt32
  ttl : UInt32
  deriving DecidableEq, Repr

/-- The map `xdns_a_records`. -/
abbrev RecordMap := HashMap DnsQuery ARecord 65536

/-- The verdicts the program returns. -/
inductive XdpAction where
  | pass
  | tx
  deriving DecidableEq, Repr

/-- `bpf_xdp_adjust_tail`: on success the frame's length changes by exactly the
given amount and the part common to the old and the new frame is kept.  The new
length fits the 32-bit fields `data` and `data_end` of `struct xdp_md`. -/
structure AdjustTail where
  run : List UInt8 → Int → Option (List UInt8)
  length_eq : ∀ {p : List UInt8} {d : Int} {p' : List UInt8}, run p d = some p' →
    (p'.length : Int) = p.length + d
  keeps : ∀ {p : List UInt8} {d : Int} {p' : List UInt8}, run p d = some p' →
    ∀ i, i < p.length → i < p'.length → byteAt p' i = byteAt p i
  fits : ∀ {p : List UInt8} {d : Int} {p' : List UInt8}, run p d = some p' →
    p'.length < 4294967296

/-! ## `parse_query` -/

/-- The loop of `parse_query` with `n` iterations left; `cursor` runs through
the frame and `namepos` through `q->name`. -/
def parseQueryLoop (p : List UInt8) : Nat → Nat → Nat → DnsQuery → Option (Int × DnsQuery)
  | 0, _, _, q => some (-1, q)
  | n + 1, cursor, namepos, q =>
      if cursor + 1 > p.length then some (-1, q)
      else do
        let b ← load8 p cursor
        if b = 0 then
          if cursor + 5 > p.length then
            some ((namepos : Int) + 1 + 2 + 2, q)
          else do
            let t ← load16 p (cursor + 1)
            let c ← load16 p (cursor + 3)
            some ((namepos : Int) + 1 + 2 + 2, { q with recordType := bswap16 t, cls := bswap16 c })
        else do
          let name ← q.name.store namepos [b]
          parseQueryLoop p n (cursor + 1) (namepos + 1) { q with name := name }

/-- `parse_query`: the name up to its zero byte and, when they are inside the
frame, type and class; returns the length of the question or `-1`. -/
def parseQuery (p : List UInt8) (queryStart : Nat) : Option (Int × DnsQuery) :=
  parseQueryLoop p 256 queryStart 0 { recordType := 0, cls := 0, name := Buf.zero 256 }

/-- `match_a_records`. -/
def matchARecords (records : RecordMap) (q : DnsQuery) : Option ARecord :=
  records.lookup q

/-! ## The response -/

/-- `modify_dns_header_response`: `qr = 1`, `ra = 1`, `ans_count = 1`. -/
def modifyDnsHeaderResponse (p : List UInt8) (dnsHdr : Nat) : Option (List UInt8) := do
  let f ← load8 p (dnsHdr + 2)
  let p ← store p (dnsHdr + 2) [f ||| 0x80]
  let g ← load8 p (dnsHdr + 3)
  let p ← store p (dnsHdr + 3) [g ||| 0x80]
  store p (dnsHdr + 6) (bytes16 (bswap16 1))

/-- `create_query_response`: the answer record, written at `base` of the
buffer; returns the buffer and the new `*buf_size`. -/
def createQueryResponse (a : ARecord) (buf : Buf 512) (base bufSize : Nat) :
    Option (Buf 512 × Nat) := do
  let buf ← buf.store base (bytes16 (bswap16 0xc00c))
  let buf ← buf.store (base + 2) (bytes16 (bswap16 0x0001))
  let buf ← buf.store (base + 4) (bytes16 (bswap16 0x0001))
  let buf ← buf.store (base + 6) (bytes32 (bswap32 a.ttl))
  let buf ← buf.store (base + 10) (bytes16 (bswap16 4))
  let bufSize := bufSize + 12
  let buf ← buf.store (base + bufSize) (bytes32 a.ipAddr)
  some (buf, bufSize + 4)

/-- `__builtin_memcpy` from an array into the frame. -/
def memcpy {k : Nat} (p : List UInt8) (dst : Nat) (src : Buf k) (n : Nat) : Option (List UInt8) :=
  if n ≤ k then store p dst (src.1.take n) else none

/-- The byte-by-byte loop of `copy_to_pkt_buf`, from index `i` on. -/
def copyLoop {k : Nat} (p : List UInt8) (dst : Nat) (src : Buf k) :
    Nat → Nat → Option (List UInt8)
  | 0, _ => some p
  | n + 1, i => do
      let b ← load8 src.1 i
      let p ← store p (dst + i) [b]
      copyLoop p dst src n (i + 1)

/-- `copy_to_pkt_buf`. -/
def copyToPktBuf {k : Nat} (p : List UInt8) (dst : Nat) (src : Buf k) (n : Nat) :
    Option (List UInt8) :=
  if p.length ≥ dst + n then
    match n with
    | 16 => memcpy p dst src 16
    | 27 => memcpy p dst src 27
    | n => copyLoop p dst src n 0
  else some p

/-- The loop of `swap_mac`, from index `i` on. -/
def swapMacLoop (srcMac dstMac : Nat) : Nat → Nat → List UInt8 → Option (List UInt8)
  | 0, _, p => some p
  | n + 1, i, p => do
      let tmpSrc ← load8 p (srcMac + i)
      let d ← load8 p (dstMac + i)
      let p ← store p (srcMac + i) [d]
      let p ← store p (dstMac + i) [tmpSrc]
      swapMacLoop srcMac dstMac n (i + 1) p

/-- `swap_mac`. -/
def swapMac (p : List UInt8) (srcMac dstMac : Nat) : Option (List UInt8) :=
  swapMacLoop srcMac dstMac 6 0 p

/-- The summing loop of `update_ip_checksum` with `n` words left. -/
def checksumLoop (p : List UInt8) (data checksumLocation : Nat) :
    Nat → Nat → UInt32 → Option UInt32
  | 0, _, accumulator => some accumulator
  | n + 1, i, accumulator =>
      if data + i = checksumLocation then
        checksumLoop p data checksumLocation n (i + 2) (accumulator + 0)
      else do
        let val ← load16 p (data + i)
        checksumLoop p data checksumLocation n (i + 2) (accumulator + val.toUInt32)

/-- The two carry folds and the complement of `update_ip_checksum`. -/
def checksumFold (accumulator : UInt32) : UInt16 :=
  let overflow : UInt16 := (accumulator >>> 16).toUInt16
  let accumulator := accumulator &&& 0x00FFFF
  let accumulator := accumulator + overflow.toUInt32
  let accumulator := accumulator + (accumulator >>> 16)
  let accumulator := accumulator &&& 0x00FFFF
  (accumulator ^^^ 0xFFFF).toUInt16

/-- `update_ip_checksum`. -/
def updateIpChecksum (p : List UInt8) (data len checksumLocation : Nat) :
    Option (List UInt8) := do
  let accumulator ← checksumLoop p data checksumLocation ((len + 1) / 2) 0 0
  store p checksumLocation (bytes16 (checksumFold accumulator))

/-! ## `xdp_dns` -/

/-- The checks of `xdp_dns` and the call of `parse_query`: `some none` is one
of the early `XDP_PASS` exits, else the length of the question and its key. -/
def findQuestion (p : List UInt8) : Option (Option (Int × DnsQuery)) :=
  if 14 + 20 > p.length then some none
  else do
    let hProto ← load16 p 12
    if hProto ≠ bswap16 0x0800 then some none
    else do
      let protocol ← load8 p 23
      if protocol = 17 then
        if 14 + 20 + 8 > p.length then some none
        else do
          let dest ← load16 p 36
          if dest = bswap16 53 then
            if 14 + 20 + 8 + 12 > p.length then some none
            else do
              let flags ← load8 p 44
              let qr := flags >>> 7
              let opcode := (flags >>> 3) &&& 0x0f
              if qr = 0 ∧ opcode = 0 then do
                let (queryLength, q) ← parseQuery p 54
                if queryLength < 1 then some none else some (some (queryLength, q))
              else some none
          else some none
      else some none

/-- `int tailadjust = answer_start + buf_size - data_end`. -/
def tailAdjust (p : List UInt8) (queryLength : Int) (bufSize : Nat) : Int :=
  Int.bmod (54 + queryLength + bufSize - p.length) 4294967296

/-- The new lengths, `swap_mac`, the exchange of addresses and ports and the
checksum, after the frame was resized. -/
def rewriteHeaders (p : List UInt8) : Option (List UInt8) := do
  let iplen := UInt16.ofNat (p.length - 14)
  let udplen := UInt16.ofNat (p.length - 14 - 20)
  let p ← store p 16 (bytes16 (bswap16 iplen))
  let p ← store p 38 (bytes16 (bswap16 udplen))
  let p ← swapMac p 6 0
  let srcIp ← load32 p 26
  let dstIp ← load32 p 30
  let p ← store p 26 (bytes32 dstIp)
  let p ← store p 30 (bytes32 srcIp)
  let p ← store p 40 (bytes16 0)
  let tmpSrc ← load16 p 34
  let dest ← load16 p 36
  let p ← store p 34 (bytes16 dest)
  let p ← store p 36 (bytes16 tmpSrc)
  updateIpChecksum p 14 20 24

/-- What follows a successful resize: the answer is copied behind the question
and the headers are rewritten. -/
def finishResponse (p : List UInt8) (queryLength : Int) (buf : Buf 512) (bufSize : Nat) :
    Option (XdpAction × List UInt8) := do
  let p ← copyToPktBuf p (14 + 20 + 8 + 12 + queryLength.toNat) buf bufSize
  if 14 + 20 + 8 > p.length then some (.pass, p)
  else do
    let p ← rewriteHeaders p
    some (.tx, p)

/-- What an invocation leaves: the verdict, the frame and the static buffer. -/
structure XdpResult where
  action : XdpAction
  packet : List UInt8
  dnsBuffer : Buf 512

/-- `xdp_dns`. -/
def xdpDns (adjust : AdjustTail) (records : RecordMap) (dnsBuffer : Buf 512) (p : List UInt8) :
    Option XdpResult := do
  match ← findQuestion p with
  | none => some ⟨.pass, p, dnsBuffer⟩
  | some (queryLength, q) =>
      match matchARecords records q with
      | none => some ⟨.pass, p, dnsBuffer⟩
      | some a => do
          let p ← modifyDnsHeaderResponse p 42
          let (dnsBuffer, bufSize) ← createQueryResponse a dnsBuffer 0 0
          match adjust.run p (tailAdjust p queryLength bufSize) with
          | none => some ⟨.pass, p, dnsBuffer⟩
          | some p => do
              let (action, p) ← finishResponse p queryLength dnsBuffer bufSize
              some ⟨action, p, dnsBuffer⟩

end NetProbes.Dns
