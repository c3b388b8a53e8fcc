/-
# `NetProbes.Dns.Header` — the IPv4 header of an answered frame

`xdp_dns` takes every IPv4 header to be 20 bytes long: the ports are read at
offset 34 and the checksum is computed over `sizeof(struct iphdr)` bytes.  The
header itself says where it ends (`ihl`), which version it has and whether the
datagram is whole, and none of these is looked at.  So the answers are right
exactly for frames with the header the code has in mind (`PlainHeader`):

    version 4, ihl 5, MF clear, fragment offset 0

and every other frame whose bytes look like a bound question at the fixed
offsets is answered as well (`xdpDns_header_iff`).
-/
import NetProbes.Dns.Response

namespace NetProbes.Dns

open NetProbes.Lib

/-! ## The fields of the header -/

/-- `ip->version`: the high half of the first byte. -/
def ipVersion (p : List UInt8) : Nat := (byteAt p 14).toNat / 16

/-- `ip->ihl`: the length of the header in 32-bit words. -/
def ihl (p : List UInt8) : Nat := (byteAt p 14).toNat % 16

/-- MF, the bit `0x2000` of `ip->frag_off`. -/
def moreFragments (p : List UInt8) : Nat := net16 p 20 / 8192 % 2

/-- The fragment offset, the low 13 bits of `ip->frag_off`. -/
def fragmentOffset (p : List UInt8) : Nat := net16 p 20 % 8192

/-- The frame carries a part of a datagram only. -/
def Fragmented (p : List UInt8) : Prop := moreFragments p ≠ 0 ∨ fragmentOffset p ≠ 0

instance decFragmented (p : List UInt8) : Decidable (Fragmented p) :=
  inferInstanceAs (Decidable (_ ∨ _))

/-- By its own header the frame carries a whole IPv4 datagram of UDP whose
destination port, behind the `4 * ihl` bytes of the header, is 53.  A header
has at least 20 bytes. -/
structure IsDatagramTo53 (p : List UInt8) : Prop where
  version : ipVersion p = 4
  length : 5 ≤ ihl p
  whole : ¬ Fragmented p
  protocol : byteAt p 23 = 17
  dest : net16 p (14 + 4 * ihl p + 2) = 53

/-- The checksum of a frame verifies over the whole header. -/
def ChecksumVerifies (p : List UInt8) : Prop :=
  onesSum (wordsBE (slice p 14 (4 * ihl p))) = 0xFFFF

/-- An invocation goes by the header: it answers datagrams to port 53 only,
with a checksum that verifies, and passes what has options or is a fragment. -/
structure HeaderRespected (p : List UInt8) (r : XdpResult) : Prop where
  request : r.action = .tx → IsDatagramTo53 p
  answer : r.action = .tx → ChecksumVerifies r.packet
  passed : 5 < ihl p ∨ Fragmented p → r.action = .pass

/-- The header the code has in mind: version 4, no options, no fragment. -/
def PlainHeader (p : List UInt8) : Prop :=
  ipVersion p = 4 ∧ ihl p = 5 ∧ ¬ Fragmented p

/-! ## The answer's header -/

namespace Frame

theorem byteAt_ipHead (f : Frame) : byteAt f.bytes 14 = byteAt f.ipHead.1 0 := by
  have hhead : 0 < f.ipHead.1.length := by rw [f.ipHead.2]; omega
  simp only [bytes_eq, byteAt_append, Buf.length_val]
  rfl

theorem checksummed_verifies (f : Frame) :
    onesSum (wordsBE (slice f.checksummed.bytes 14 20)) = 0xFFFF := by
  have hlen : 14 + 2 * 10 ≤ f.bytes.length := by rw [bytes_length]; omega
  have hbytes := updateIpChecksum_eq (show 5 < 10 by omega) (by omega) hlen
  rw [updateIpChecksum_bytes] at hbytes
  rw [Option.some.inj hbytes]
  exact onesSum_header (show 5 < 10 by omega) hlen

end Frame

theorem ihl_answerFrame {p : List UInt8} (hp : 54 ≤ p.length) (question : List UInt8)
    (a : ARecord) : ihl (answerFrame (Frame.ofBytes p hp) question a).bytes = ihl p := by
  have hkeep : byteAt (answerFrame (Frame.ofBytes p hp) question a).bytes 14
      = byteAt (Frame.ofBytes p hp).bytes 14 := by
    rw [Frame.byteAt_ipHead, Frame.byteAt_ipHead]
    rfl
  rw [ihl, hkeep, Frame.bytes_ofBytes]
  rfl

theorem PlainHeader.checksumVerifies {p : List UInt8} (h : PlainHeader p) (hp : 54 ≤ p.length)
    (question : List UInt8) (a : ARecord) :
    ChecksumVerifies (answerFrame (Frame.ofBytes p hp) question a).bytes := by
  rw [ChecksumVerifies, ihl_answerFrame, h.2.1]
  exact Frame.checksummed_verifies _

theorem PlainHeader.isDatagramTo53 {p : List UInt8} (h : PlainHeader p) (hq : IsDnsQuery p) :
    IsDatagramTo53 p := by
  obtain ⟨hversion, hihl, hwhole⟩ := h
  obtain ⟨-, -, -, hproto, hhigh, hlow, -⟩ := hq
  refine ⟨hversion, by omega, hwhole, hproto, ?_⟩
  rw [hihl]
  show (byteAt p 36).toNat * 256 + (byteAt p 37).toNat = 53
  rw [hhigh, hlow]
  rfl

/-! ## The verdicts -/

theorem headerRespected_of_pass {p : List UInt8} {r : XdpResult} (h : r.action = .pass) :
    HeaderRespected p r := by
  refine ⟨fun htx => ?_, fun htx => ?_, fun _ => h⟩
  · rw [h] at htx
    cases htx
  · rw [h] at htx
    cases htx

/-- Only a plain header is respected by an answer. -/
theorem HeaderRespected.plainHeader {p : List UInt8} {r : XdpResult} (h : HeaderRespected p r)
    (htx : r.action = .tx) : PlainHeader p := by
  have hreq := h.request htx
  have hno : ¬ (5 < ihl p ∨ Fragmented p) := by
    intro hbad
    have hpass := h.passed hbad
    rw [htx] at hpass
    cases hpass
  have hlen := hreq.length
  exact ⟨hreq.version, by omega, hreq.whole⟩

/-- An invocation goes by the header unless it answers a frame whose header is
not plain: the question at the fixed offsets is bound, and the resize succeeds. -/
theorem xdpDns_header_iff (adjust : AdjustTail) (records : RecordMap) (buf : Buf 512)
    (p : List UInt8) :
    ∃ r, xdpDns adjust records buf p = some r ∧ (HeaderRespected p r ↔
      ∀ (k : Nat) (a : ARecord) (h : Answers records p k a),
        adjust.run (markedPacket p h.length_ge) (tailAdjust p (k + 5 : Nat) 16) ≠ none →
          PlainHeader p) := by
  obtain ⟨r, hr, hend⟩ := xdpDns_ends adjust records buf p
  refine ⟨r, hr, ?_⟩
  cases hend with
  | sent hans hrun =>
      constructor
      · intro hresp _ _ _ _
        exact hresp.plainHeader rfl
      · intro hplain
        have hp := hplain _ _ hans (by rw [hrun]; exact Option.some_ne_none _)
        refine ⟨fun _ => hp.isDatagramTo53 hans.1, fun _ => hp.checksumVerifies _ _ _, ?_⟩
        rintro (hopt | hfrag)
        · have hihl := hp.2.1
          omega
        · exact absurd hfrag hp.2.2
  | marked hans hrun =>
      refine iff_of_true (headerRespected_of_pass rfl) ?_
      intro k' a' hans' hne
      obtain ⟨rfl, rfl⟩ := hans.unique hans'
      exact absurd hrun hne
  | passed hno =>
      refine iff_of_true (headerRespected_of_pass rfl) ?_
      intro k a hans
      exact absurd hans (hno k a)

/-- A datagram with four bytes of options, which end in `00 35`, and a payload
that goes on like a query for `a`. -/
def optionsQuery : List UInt8 :=
  [2, 0, 0, 0, 0, 1, 2, 0, 0, 0, 0, 2, 8, 0,
    0x46, 0, 0, 47, 0, 1, 0, 0, 64, 17, 0x64, 0x85, 10, 0, 0, 2, 10, 0, 0, 1,
    1, 1, 0, 53, 0, 27, 0, 0,
    0x12, 0x34, 1, 0, 0, 1, 0, 0, 0, 0, 0, 0,
    1, 97, 0, 0, 1, 0, 1]

/-- It is answered. -/
theorem xdpDns_answers_options :
    ¬ ∀ (adjust : AdjustTail) (records : RecordMap) (buf : Buf 512) (p : List UInt8) (r : XdpResult),
      xdpDns adjust records buf p = some r → HeaderRespected p r := by
  intro hall
  have haction : ((xdpDns (kernelAdjustTail 1518 (by decide)) sampleRecords (Buf.zero 512)
      optionsQuery).map XdpResult.action) = some .tx := by
    decide +kernel
  obtain ⟨r, hr, htx⟩ := Option.map_eq_some_iff.mp haction
  have hplain := (hall _ _ _ _ _ hr).plainHeader htx
  exact absurd hplain.2.1 (by decide)

end NetProbes.Dns
