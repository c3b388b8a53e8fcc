/-
# `NetProbes.HttpFilter.Filter` — the socket filter for HTTP sessions

`http_filter.bpf.c` looks at a packet, and where it is a TCP segment with an
HTTP message puts the addresses and ports into the map `sessions`.

    eth  0..13   type 12
    ip  14..     ihl 14, tot_len 16, nextp 23, saddr 26, daddr 30
    tcp 34..     source 34, dest 36, doff 46, wherever the IP header ends
    payload      at 14 + 4 * ihl + 4 * doff

All fields are read as they lie in memory, on a little-endian machine: `type`
is compared with 0x0800 and `tot_len` subtracted from without a byte swap.  The
tests for a method each jump to `HTTP_MATCH`, and so does what comes after the
last one, since the label is next.  What follows for the packets that are put
into the map is `filter_right_iff`.

`type` and `nextp` are the fields of the two headers at these places under
other names (`h_proto`, `protocol`), `IP_TCP` is 6, and `DROP` ends the program.
A read outside the packet through a pointer is `none`; `load_byte` outside ends
the program.
-/
import NetProbes.Lib.Bytes
import NetProbes.Lib.CString
import NetProbes.Lib.HashMap

namespace NetProbes.HttpFilter

open NetProbes.Lib

/-! ## The filter -/

/-- `struct Key`, addresses and ports as they lie in the packet. -/
structure Key where
  srcIp : UInt32
  dstIp : UInt32
  srcPort : UInt16
  dstPort : UInt16
  deriving DecidableEq

/-- `struct Leaf`. -/
structure Leaf where
  timestamp : Int32
  deriving DecidableEq

/-- The map `sessions`. -/
abbrev Sessions := HashMap Key Leaf 1

/-- `n` calls of `load_byte` from index `i` on; `none` where one ends the
program. -/
def loadBytes (p : List UInt8) (payloadOffset : UInt32) : Nat → Nat → Option (List UInt8)
  | 0, _ => some []
  | n + 1, i => do
      let b ← load8 p (payloadOffset + UInt32.ofNat i).toNat
      let bs ← loadBytes p payloadOffset n (i + 1)
      some (b :: bs)

/-- The texts of the tests, in their order. -/
def methods : List (List UInt8) :=
  [cstr ['H', 'T', 'T', 'P'], cstr ['G', 'E', 'T'], cstr ['P', 'O', 'S', 'T'],
    cstr ['P', 'U', 'T'], cstr ['D', 'E', 'L', 'E', 'T', 'E'], cstr ['H', 'E', 'A', 'D']]

/-- From the addresses on: the key that is put into the map, or nothing. -/
def segmentKey (p : List UInt8) (ipHeaderLength : UInt32) : Option (Option Key) := do
  let dstIp ← load32 p 30
  let srcIp ← load32 p 26
  let dstPort ← load16 p 36
  let srcPort ← load16 p 34
  let key : Key := ⟨srcIp, dstIp, srcPort, dstPort⟩
  let doff ← load8 p 46
  let tcpHeaderLength := (doff >>> 4).toUInt32 <<< 2
  let payloadOffset := 14 + ipHeaderLength + tcpHeaderLength
  let totLen ← load16 p 16
  let payloadLength := totLen.toUInt32 - ipHeaderLength - tcpHeaderLength
  if payloadLength < 7 then some none
  else
    match loadBytes p payloadOffset 7 0 with
    | none => some none
    | some bs =>
        -- `HTTP_MATCH` is behind the last test, so that both ways lead there
        if methods.any fun m => m.isPrefixOf bs then some (some key)
        else some (some key)

/-- The whole program, up to the map. -/
def sessionKey (p : List UInt8) : Option (Option Key) := do
  let type ← load16 p 12
  if ¬ type = 0x0800 then some none
  else do
    let nextp ← load8 p 23
    if nextp ≠ 6 then some none
    else do
      let ihl ← load8 p 14
      let ipHeaderLength := (ihl &&& 0xF).toUInt32 <<< 2
      if ipHeaderLength < 20 then some none
      else segmentKey p ipHeaderLength

section Map
variable [HashOrder Key]

/-- `sessions.lookup_or_try_init(&key, &zero)`, the pointer left alone. -/
def tryInit (sessions : Sessions) (key : Key) : Sessions :=
  (sessions.lookupOrTryInit key ⟨0⟩).getD sessions

/-- `socket_filter__http_filter`: the map after it. -/
def socketFilterHttpFilter (sessions : Sessions) (p : List UInt8) : Option Sessions :=
  (sessionKey p).map fun key => match key with
    | none => sessions
    | some key => tryInit sessions key

end Map

/-! ## The segments that are wanted -/

/-- The length of the IP header. -/
def ipHeader (p : List UInt8) : Nat := 4 * ((byteAt p 14).toNat % 16)

/-- Where the TCP header starts: after the whole IP header. -/
def tcpStart (p : List UInt8) : Nat := 14 + ipHeader p

/-- The length of the TCP header. -/
def tcpHeader (p : List UInt8) : Nat := 4 * ((byteAt p (tcpStart p + 12)).toNat / 16)

/-- Where the payload starts. -/
def payloadStart (p : List UInt8) : Nat := tcpStart p + tcpHeader p

/-- An IPv4 packet with a TCP segment whose payload has 7 bytes or more and
starts with one of the texts. -/
def HttpSegment (p : List UInt8) : Prop :=
  net16 p 12 = 0x0800 ∧ 20 ≤ ipHeader p ∧ byteAt p 23 = 6 ∧ tcpStart p + 20 ≤ p.length ∧
    ipHeader p + tcpHeader p + 7 ≤ net16 p 16 ∧ payloadStart p + 7 ≤ p.length ∧
    ∃ m ∈ methods, m <+: p.drop (payloadStart p)

instance decHttpSegment (p : List UInt8) : Decidable (HttpSegment p) :=
  inferInstanceAs (Decidable (_ ∧ _))

/-- The addresses of the packet and the ports of its TCP header. -/
def keyOf (p : List UInt8) : Key :=
  ⟨u32At p 26, u32At p 30, u16At p (tcpStart p), u16At p (tcpStart p + 2)⟩

/-- Whatever is in the map, the filter returns, and has put in the key of a
wanted segment and of no other. -/
def FilterRight [HashOrder Key] (p : List UInt8) : Prop :=
  ∀ sessions, socketFilterHttpFilter sessions p
    = some (if HttpSegment p then tryInit sessions (keyOf p) else sessions)

/-! ## The packets the program puts in -/

/-- `ip_header_length`. -/
def ipHeaderLength (p : List UInt8) : UInt32 := (byteAt p 14 &&& 0xF).toUInt32 <<< 2

/-- `tcp_header_length`, of a TCP header after an IP header of 20 bytes. -/
def tcpHeaderLength (p : List UInt8) : UInt32 := (byteAt p 46 >>> 4).toUInt32 <<< 2

/-- `payload_offset`. -/
def payloadOffset (p : List UInt8) : UInt32 := 14 + ipHeaderLength p + tcpHeaderLength p

/-- `payload_length`, which can wrap around. -/
def payloadLength (p : List UInt8) : UInt32 :=
  (u16At p 16).toUInt32 - ipHeaderLength p - tcpHeaderLength p

/-- What the program reads through a pointer is in the packet. -/
def Readable (p : List UInt8) : Prop :=
  14 ≤ p.length ∧ (u16At p 12 = 0x0800 → 24 ≤ p.length ∧
    (byteAt p 23 = 6 → 20 ≤ ipHeaderLength p → 47 ≤ p.length))

/-- The program comes to `HTTP_MATCH`. -/
def Reaches (p : List UInt8) : Prop :=
  u16At p 12 = 0x0800 ∧ byteAt p 23 = 6 ∧ 20 ≤ ipHeaderLength p ∧ 7 ≤ payloadLength p ∧
    (payloadOffset p).toNat + 7 ≤ p.length

instance decReaches (p : List UInt8) : Decidable (Reaches p) := inferInstanceAs (Decidable (_ ∧ _))

/-- The key it puts in, with the ports from the fixed place. -/
def fixedKey (p : List UInt8) : Key := ⟨u32At p 26, u32At p 30, u16At p 34, u16At p 36⟩

theorem headerLength_le (b : UInt8) (h : b.toNat < 16) : (b.toUInt32 <<< 2).toNat ≤ 60 := by
  rw [UInt32.toNat_shiftLeft, UInt8.toNat_toUInt32, Nat.shiftLeft_eq]
  show b.toNat * 2 ^ 2 % 2 ^ 32 ≤ 60
  omega

theorem payloadOffset_le (p : List UInt8) : (payloadOffset p).toNat ≤ 134 := by
  have hip : (ipHeaderLength p).toNat ≤ 60 := by
    refine headerLength_le _ ?_
    rw [UInt8.toNat_and]
    exact Nat.lt_succ_iff.mpr Nat.and_le_right
  have htcp : (tcpHeaderLength p).toNat ≤ 60 := by
    refine headerLength_le _ ?_
    have hb := (byteAt p 46).toNat_lt
    rw [UInt8.toNat_shiftRight, Nat.shiftRight_eq_div_pow]
    show (byteAt p 46).toNat / 2 ^ 4 < 16
    omega
  rw [payloadOffset, UInt32.toNat_add, UInt32.toNat_add]
  show ((14 + (ipHeaderLength p).toNat) % 2 ^ 32 + (tcpHeaderLength p).toNat) % 2 ^ 32 ≤ 134
  omega

/-- `load_byte` reads all of the bytes, or ends the program at the first that is
outside. -/
theorem loadBytes_isSome_iff (p : List UInt8) (off : UInt32) {n i : Nat}
    (h : off.toNat + i + n < 2 ^ 32) :
    (loadBytes p off n i).isSome = true ↔ n = 0 ∨ off.toNat + i + n ≤ p.length := by
  induction n generalizing i with
  | zero => simp [loadBytes]
  | succ n ih =>
      have hoff : (off + UInt32.ofNat i).toNat = off.toNat + i := by
        rw [UInt32.toNat_add, UInt32.toNat_ofNat']
        omega
      rw [loadBytes, hoff]
      by_cases hin : off.toNat + i < p.length
      · have hrest := ih (i := i + 1) (by omega)
        rw [load8_eq hin]
        cases hbs : loadBytes p off n (i + 1) with
        | none =>
            rw [hbs] at hrest
            simp at hrest ⊢
            omega
        | some bs =>
            rw [hbs] at hrest
            simp at hrest ⊢
            omega
      · have hnone : load8 p (off.toNat + i) = none := List.getElem?_eq_none (Nat.le_of_not_lt hin)
        rw [hnone]
        simp
        omega

/-! ## What the program does -/

section Key
variable {p : List UInt8}

/-- The part after the checks, on a packet that has all it reads. -/
theorem segmentKey_eq (hlen : 47 ≤ p.length) :
    segmentKey p (ipHeaderLength p)
      = some (if 7 ≤ payloadLength p ∧ (payloadOffset p).toNat + 7 ≤ p.length
          then some (fixedKey p) else none) := by
  have hoff := payloadOffset_le p
  have hbytes := loadBytes_isSome_iff p (payloadOffset p) (n := 7) (i := 0) (by omega)
  simp only [segmentKey, load8_eq (show 46 < p.length by omega),
    load32_eq (show 30 + 4 ≤ p.length by omega), load32_eq (show 26 + 4 ≤ p.length by omega),
    load16_eq (show 36 + 2 ≤ p.length by omega), load16_eq (show 34 + 2 ≤ p.length by omega),
    load16_eq (show 16 + 2 ≤ p.length by omega), Option.bind_eq_bind, Option.bind_some, ite_self]
  show (if payloadLength p < 7 then some none
    else match loadBytes p (payloadOffset p) 7 0 with
      | none => some none
      | some _ => some (some (fixedKey p))) = _
  by_cases hseven : payloadLength p < 7
  · rw [if_pos hseven, if_neg fun h => UInt32.not_lt.mpr h.1 hseven]
  · rw [if_neg hseven]
    cases hbs : loadBytes p (payloadOffset p) 7 0 with
    | none =>
        have hout : ¬ (payloadOffset p).toNat + 7 ≤ p.length := by
          intro hin
          have hsome := hbytes.mpr (Or.inr hin)
          rw [hbs] at hsome
          cases hsome
        rw [if_neg fun h => hout h.2]
    | some bs =>
        have hin : (payloadOffset p).toNat + 7 ≤ p.length := by
          rw [hbs] at hbytes
          have hin := hbytes.mp rfl
          omega
        rw [if_pos ⟨UInt32.not_lt.mp hseven, hin⟩]

theorem segmentKey_short (hlen : p.length < 47) (ipHeaderLength : UInt32) :
    segmentKey p ipHeaderLength = none := by
  have hgone : load8 p 46 = none := List.getElem?_eq_none (Nat.le_of_lt_succ hlen)
  simp only [segmentKey, hgone, Option.bind_eq_bind, Option.bind_none, Option.bind_fun_none]

/-- The checks, on a packet that has what they read. -/
theorem sessionKey_checks (hlen : 24 ≤ p.length) (htype : u16At p 12 = 0x0800) :
    sessionKey p = if byteAt p 23 ≠ 6 ∨ ipHeaderLength p < 20 then some none
      else segmentKey p (ipHeaderLength p) := by
  have htype' : load16 p 12 = some 0x0800 := htype ▸ load16_eq (by omega)
  simp only [sessionKey, htype', load8_eq (show 23 < p.length by omega),
    load8_eq (show 14 < p.length by omega), Option.bind_eq_bind, Option.bind_some,
    not_true_eq_false, if_false]
  rw [← ipHeaderLength, ite_or]

/-- A packet that has all that is read through pointers. -/
theorem sessionKey_readable (h : Readable p) :
    sessionKey p = some (if Reaches p then some (fixedKey p) else none) := by
  obtain ⟨hlen, hrest⟩ := h
  by_cases htype : u16At p 12 = 0x0800
  · obtain ⟨hlen', hrest⟩ := hrest htype
    rw [sessionKey_checks hlen' htype]
    split
    · rename_i hfail
      have hnot : ¬ Reaches p := fun hreach => hfail.elim (fun hne => hne hreach.2.1)
        fun hlt => UInt32.not_lt.mpr hreach.2.2.1 hlt
      rw [if_neg hnot]
    · rename_i hpass
      rw [not_or, not_not, UInt32.not_lt] at hpass
      rw [segmentKey_eq (hrest hpass.1 hpass.2)]
      simp only [Reaches, htype, hpass.1, hpass.2, true_and]
  · have htype' : load16 p 12 = some (u16At p 12) := load16_eq (by omega)
    rw [if_neg fun hreach => htype hreach.1, sessionKey, htype']
    exact if_pos htype

/-- A packet that has not. -/
theorem sessionKey_unreadable (h : ¬ Readable p) : sessionKey p = none := by
  by_cases hlen : 14 ≤ p.length
  · have htype' : load16 p 12 = some (u16At p 12) := load16_eq (by omega)
    by_cases htype : u16At p 12 = 0x0800
    · by_cases hlen' : 24 ≤ p.length
      · have hproto : byteAt p 23 = 6 := by
          by_contra hne
          exact h ⟨hlen, fun _ => ⟨hlen', fun hp => absurd hp hne⟩⟩
        have hihl : 20 ≤ ipHeaderLength p := by
          by_contra hlt
          exact h ⟨hlen, fun _ => ⟨hlen', fun _ hle => absurd hle hlt⟩⟩
        have hshort : p.length < 47 := by
          by_contra hge
          exact h ⟨hlen, fun _ => ⟨hlen', fun _ _ => Nat.le_of_not_lt hge⟩⟩
        rw [sessionKey_checks hlen' htype, if_neg (not_or.mpr ⟨not_not.mpr hproto,
          UInt32.not_lt.mpr hihl⟩), segmentKey_short hshort]
      · have hgone : load8 p 23 = none := List.getElem?_eq_none (by omega)
        rw [htype] at htype'
        simp [sessionKey, htype', hgone]
    · exact absurd ⟨hlen, fun h' => absurd h' htype⟩ h
  · have hgone : load16 p 12 = none := by
      have h13 : load8 p (12 + 1) = none := List.getElem?_eq_none (by omega)
      rw [load16, h13]
      cases load8 p 12 with
      | none => rfl
      | some b => rfl
    simp [sessionKey, hgone]

end Key

/-! ## When it is right -/

/-- The type of an IPv4 packet, read without a byte swap, is not 0x0800. -/
theorem not_reaches_of_httpSegment {p : List UInt8} (h : HttpSegment p) : ¬ Reaches p := by
  intro hreach
  have hnet := h.1
  have hraw := congrArg UInt16.toNat hreach.1
  rw [u16At, le16_toNat] at hraw
  rw [net16] at hnet
  have hlo := (byteAt p 12).toNat_lt
  have hhi := (byteAt p 13).toNat_lt
  have hconst : (0x0800 : UInt16).toNat = 2048 := rfl
  omega

section Map
variable [HashOrder Key]

/-- A key put into the empty map is in it. -/
theorem tryInit_empty_ne (key : Key) : tryInit HashMap.empty key ≠ HashMap.empty := by
  intro h
  obtain ⟨sessions, hinit, hlookup⟩ :=
    HashMap.lookupOrTryInit_ok (m := (HashMap.empty : Sessions)) key ⟨0⟩ (Or.inl Nat.one_pos)
  rw [tryInit, hinit, Option.getD_some] at h
  have hself := hlookup key
  rw [h, if_pos rfl] at hself
  cases hself

/-- The filter is right exactly for the packets that are no HTTP segment, that
have what is read through pointers, and that do not come to `HTTP_MATCH`. -/
theorem filter_right_iff (p : List UInt8) :
    FilterRight p ↔ ¬ HttpSegment p ∧ Readable p ∧ ¬ Reaches p := by
  by_cases hread : Readable p
  · simp only [FilterRight, socketFilterHttpFilter, sessionKey_readable hread, Option.map_some,
      Option.some.injEq, hread, true_and]
    constructor
    · intro hright
      have hempty := hright HashMap.empty
      by_cases hseg : HttpSegment p
      · rw [if_pos hseg, if_neg (not_reaches_of_httpSegment hseg)] at hempty
        exact absurd hempty.symm (tryInit_empty_ne _)
      · refine ⟨hseg, fun hreach => ?_⟩
        rw [if_neg hseg, if_pos hreach] at hempty
        exact tryInit_empty_ne _ hempty
    · rintro ⟨hseg, hreach⟩ sessions
      rw [if_neg hseg, if_neg hreach]
  · refine iff_of_false ?_ fun h => hread h.2.1
    intro hright
    have hempty := hright HashMap.empty
    rw [socketFilterHttpFilter, sessionKey_unreadable hread] at hempty
    cases hempty

end Map

/-- A `GET` from port 4660 of 10.0.0.2 to port 80 of 10.0.0.1. -/
def getRequest : List UInt8 :=
  [2, 0, 0, 0, 0, 1, 2, 0, 0, 0, 0, 2, 8, 0] ++
    [0x45, 0, 0, 47, 0, 1, 0, 0, 64, 6, 0, 0, 10, 0, 0, 2, 10, 0, 0, 1] ++
    [0x12, 0x34, 0, 80, 0, 0, 0, 1, 0, 0, 0, 1, 0x50, 0x18, 1, 0, 0, 0, 0, 0] ++
    cstr ['G', 'E', 'T', ' ', '/', ' ', 'H']

/-- It is not put into the map. -/
theorem filter_getRequest : HttpSegment getRequest ∧ ¬ @FilterRight ⟨fun _ => 0⟩ getRequest := by
  have hseg : HttpSegment getRequest := by decide +kernel
  refine ⟨hseg, fun hright => ?_⟩
  have hempty := hright HashMap.empty
  have hkey : sessionKey getRequest = some none := by decide +kernel
  simp only [socketFilterHttpFilter, hkey, if_pos hseg, Option.map_some] at hempty
  exact @tryInit_empty_ne ⟨fun _ => 0⟩ (keyOf getRequest) (Option.some.inj hempty).symm

end NetProbes.HttpFilter
