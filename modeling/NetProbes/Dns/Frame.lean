/-
# `NetProbes.Dns.Frame` — the frame by its header fields

The program writes into the frame at fixed offsets.  Here the frame is read as
the list of its header fields (`Frame`) and what the program's parts do to the
bytes is said as a change of fields:

    modifyDnsHeaderResponse   flags and ans_count                (`marked`)
    rewriteHeaders            MAC, addresses, ports exchanged,
                              lengths, checksums                 (`reply`)

so that whatever a record update does not mention is unchanged, byte for byte.
Every frame of at least 54 bytes is the bytes of one `Frame` (`bytes_ofBytes`).
-/
import NetProbes.Dns.Checksum

namespace NetProbes.Dns

open NetProbes.Lib

/-- The Ethernet, IPv4, UDP and DNS headers at the fixed offsets of `xdp_dns`,
and what follows them.  `ipHead` is version, header length and type of service;
`ipMid` is identification, fragmentation, time to live and protocol. -/
@[ext] structure Frame where
  hDest : Buf 6
  hSource : Buf 6
  hProto : Buf 2
  ipHead : Buf 2
  totLen : Buf 2
  ipMid : Buf 6
  ipCheck : Buf 2
  saddr : Buf 4
  daddr : Buf 4
  source : Buf 2
  dest : Buf 2
  udpLen : Buf 2
  udpCheck : Buf 2
  transactionId : Buf 2
  flagsQr : UInt8
  flagsRa : UInt8
  qCount : Buf 2
  ansCount : Buf 2
  authCount : Buf 2
  addCount : Buf 2
  body : List UInt8

namespace Frame

/-- The bytes of a frame. -/
def bytes (f : Frame) : List UInt8 :=
  [f.hDest.1, f.hSource.1, f.hProto.1, f.ipHead.1, f.totLen.1, f.ipMid.1, f.ipCheck.1,
    f.saddr.1, f.daddr.1, f.source.1, f.dest.1, f.udpLen.1, f.udpCheck.1, f.transactionId.1,
    [f.flagsQr], [f.flagsRa], f.qCount.1, f.ansCount.1, f.authCount.1, f.addCount.1,
    f.body].flatten

theorem bytes_eq (f : Frame) :
    f.bytes = f.hDest.1 ++ (f.hSource.1 ++ (f.hProto.1 ++ (f.ipHead.1 ++ (f.totLen.1
      ++ (f.ipMid.1 ++ (f.ipCheck.1 ++ (f.saddr.1 ++ (f.daddr.1 ++ (f.source.1 ++ (f.dest.1
      ++ (f.udpLen.1 ++ (f.udpCheck.1 ++ (f.transactionId.1 ++ ([f.flagsQr] ++ ([f.flagsRa]
      ++ (f.qCount.1 ++ (f.ansCount.1 ++ (f.authCount.1 ++ (f.addCount.1
      ++ f.body))))))))))))))))))) := by
  simp only [bytes, List.flatten_cons, List.flatten_nil, List.append_nil]

theorem bytes_length (f : Frame) : f.bytes.length = 54 + f.body.length := by
  simp only [bytes_eq, List.length_append, Buf.length_val, List.length_singleton]
  omega

theorem bytes_drop (f : Frame) : f.bytes.drop 54 = f.body := by
  simp [bytes_eq, List.drop_append, List.drop_of_length_le]

/-- What follows the headers can be replaced without a change to them. -/
theorem bytes_body (f : Frame) (b : List UInt8) :
    { f with body := b }.bytes = f.bytes.take 54 ++ b := by
  simp [bytes_eq, List.take_append, List.take_of_length_le]

/-- The `n` bytes of a string at an offset, as an array. -/
def field (p : List UInt8) (h : 54 ≤ p.length) (i n : Nat) (hi : i + n ≤ 54) : Buf n :=
  ⟨slice p i n, slice_length (by omega)⟩

/-- A string of at least 54 bytes, by its fields. -/
def ofBytes (p : List UInt8) (h : 54 ≤ p.length) : Frame where
  hDest := field p h 0 6 (by omega)
  hSource := field p h 6 6 (by omega)
  hProto := field p h 12 2 (by omega)
  ipHead := field p h 14 2 (by omega)
  totLen := field p h 16 2 (by omega)
  ipMid := field p h 18 6 (by omega)
  ipCheck := field p h 24 2 (by omega)
  saddr := field p h 26 4 (by omega)
  daddr := field p h 30 4 (by omega)
  source := field p h 34 2 (by omega)
  dest := field p h 36 2 (by omega)
  udpLen := field p h 38 2 (by omega)
  udpCheck := field p h 40 2 (by omega)
  transactionId := field p h 42 2 (by omega)
  flagsQr := byteAt p 44
  flagsRa := byteAt p 45
  qCount := field p h 46 2 (by omega)
  ansCount := field p h 48 2 (by omega)
  authCount := field p h 50 2 (by omega)
  addCount := field p h 52 2 (by omega)
  body := p.drop 54

theorem bytes_ofBytes (p : List UInt8) (h : 54 ≤ p.length) : (ofBytes p h).bytes = p := by
  have h₄₄ : [byteAt p 44] = slice p 44 1 := by
    rw [slice_cons (by omega)]
    rfl
  have h₄₅ : [byteAt p 45] = slice p 45 1 := by
    rw [slice_cons (by omega)]
    rfl
  have hbody : p.drop 54 = slice p 54 (p.length - 54) := by
    rw [slice, List.take_of_length_le (by simp)]
  have hall : slice p 0 (p.length) = p := by simp [slice]
  -- the fields follow each other without a gap
  have hjoin : ∀ i m n, slice p i m ++ slice p (i + m) n = slice p i (m + n) :=
    fun _ _ _ => slice_append_slice
  simp only [bytes_eq, ofBytes, field, h₄₄, h₄₅, hbody]
  rw [hjoin 52 2, hjoin 50 2, hjoin 48 2, hjoin 46 2, hjoin 45 1, hjoin 44 1, hjoin 42 2,
    hjoin 40 2, hjoin 38 2, hjoin 36 2, hjoin 34 2, hjoin 30 4, hjoin 26 4, hjoin 24 2,
    hjoin 18 6, hjoin 16 2, hjoin 14 2, hjoin 12 2, hjoin 6 6, hjoin 0 6]
  simp only [← Nat.add_assoc, Nat.reduceAdd, Nat.add_sub_cancel' h, hall]

/-! ## Stores and loads are changes and reads of fields -/

theorem store_bytes {f : Frame} {i : Nat} {bs : List UInt8} (h : i + bs.length ≤ 54) :
    store f.bytes i bs = some (overwrite f.bytes i bs) :=
  store_eq (by rw [bytes_length]; omega)

section Fields
variable (f : Frame)

theorem overwrite_totLen (v : Buf 2) :
    overwrite f.bytes 16 v.1 = { f with totLen := v }.bytes := by
  simp [bytes_eq, overwrite_append_right, overwrite_append_left]

theorem overwrite_ipCheck (v : Buf 2) :
    overwrite f.bytes 24 v.1 = { f with ipCheck := v }.bytes := by
  simp [bytes_eq, overwrite_append_right, overwrite_append_left]

theorem overwrite_saddr (v : Buf 4) :
    overwrite f.bytes 26 v.1 = { f with saddr := v }.bytes := by
  simp [bytes_eq, overwrite_append_right, overwrite_append_left]

theorem overwrite_daddr (v : Buf 4) :
    overwrite f.bytes 30 v.1 = { f with daddr := v }.bytes := by
  simp [bytes_eq, overwrite_append_right, overwrite_append_left]

theorem overwrite_source (v : Buf 2) :
    overwrite f.bytes 34 v.1 = { f with source := v }.bytes := by
  simp [bytes_eq, overwrite_append_right, overwrite_append_left]

theorem overwrite_dest (v : Buf 2) :
    overwrite f.bytes 36 v.1 = { f with dest := v }.bytes := by
  simp [bytes_eq, overwrite_append_right, overwrite_append_left]

theorem overwrite_udpLen (v : Buf 2) :
    overwrite f.bytes 38 v.1 = { f with udpLen := v }.bytes := by
  simp [bytes_eq, overwrite_append_right, overwrite_append_left]

theorem overwrite_udpCheck (v : Buf 2) :
    overwrite f.bytes 40 v.1 = { f with udpCheck := v }.bytes := by
  simp [bytes_eq, overwrite_append_right, overwrite_append_left]

theorem overwrite_flagsQr (b : UInt8) :
    overwrite f.bytes 44 [b] = { f with flagsQr := b }.bytes := by
  simp [bytes_eq, overwrite_append_right, overwrite_cons_zero]

theorem overwrite_flagsRa (b : UInt8) :
    overwrite f.bytes 45 [b] = { f with flagsRa := b }.bytes := by
  simp [bytes_eq, overwrite_append_right, overwrite_cons_succ, overwrite_cons_zero]

theorem overwrite_ansCount (v : Buf 2) :
    overwrite f.bytes 48 v.1 = { f with ansCount := v }.bytes := by
  simp [bytes_eq, overwrite_append_right, overwrite_cons_succ, overwrite_append_left]

theorem slice_totLen : slice f.bytes 16 2 = f.totLen.1 := by
  simp [bytes_eq, slice_append_right, slice_append_left]

theorem slice_udpLen : slice f.bytes 38 2 = f.udpLen.1 := by
  simp [bytes_eq, slice_append_right, slice_append_left]

theorem slice_qCount : slice f.bytes 46 2 = f.qCount.1 := by
  simp [bytes_eq, slice_append_right, slice_cons_succ, slice_append_left]

theorem slice_ansCount : slice f.bytes 48 2 = f.ansCount.1 := by
  simp [bytes_eq, slice_append_right, slice_cons_succ, slice_append_left]

theorem slice_authCount : slice f.bytes 50 2 = f.authCount.1 := by
  simp [bytes_eq, slice_append_right, slice_cons_succ, slice_append_left]

theorem slice_addCount : slice f.bytes 52 2 = f.addCount.1 := by
  simp [bytes_eq, slice_append_right, slice_cons_succ, slice_append_left]

theorem load8_flagsQr : load8 f.bytes 44 = some f.flagsQr := by
  rw [load8_eq (by rw [bytes_length]; omega)]
  simp [bytes_eq, byteAt_append_right, byteAt_cons_zero]

theorem load8_flagsRa : load8 f.bytes 45 = some f.flagsRa := by
  rw [load8_eq (by rw [bytes_length]; omega)]
  simp [bytes_eq, byteAt_append_right, byteAt_cons_succ, byteAt_cons_zero]

theorem load32_saddr : load32 f.bytes 26 = some f.saddr.word32 :=
  load32_of_slice (by rw [bytes_length]; omega)
    (by simp [bytes_eq, slice_append_right, slice_append_left])

theorem load32_daddr : load32 f.bytes 30 = some f.daddr.word32 :=
  load32_of_slice (by rw [bytes_length]; omega)
    (by simp [bytes_eq, slice_append_right, slice_append_left])

theorem load16_source : load16 f.bytes 34 = some f.source.word16 :=
  load16_of_slice (by rw [bytes_length]; omega)
    (by simp [bytes_eq, slice_append_right, slice_append_left])

theorem load16_dest : load16 f.bytes 36 = some f.dest.word16 :=
  load16_of_slice (by rw [bytes_length]; omega)
    (by simp [bytes_eq, slice_append_right, slice_append_left])

end Fields

/-! ## The answer's DNS header -/

/-- `qr`, `ra` and `ans_count` set. -/
def marked (f : Frame) : Frame :=
  { f with
    flagsQr := f.flagsQr ||| 0x80
    flagsRa := f.flagsRa ||| 0x80
    ansCount := ⟨be16 1, rfl⟩ }

theorem modifyDnsHeaderResponse_bytes (f : Frame) :
    modifyDnsHeaderResponse f.bytes 42 = some f.marked.bytes := by
  simp only [modifyDnsHeaderResponse, Nat.reduceAdd, load8_flagsQr, Option.bind_eq_bind,
    Option.bind_some]
  rw [store_bytes (by simp), overwrite_flagsQr, Option.bind_some, load8_flagsRa,
    Option.bind_some, store_bytes (by simp), overwrite_flagsRa, Option.bind_some,
    bytes16_bswap16, store_bytes (by simp)]
  exact congrArg some (overwrite_ansCount _ ⟨be16 1, rfl⟩)

/-! ## The exchange of addresses -/

/-- The loop of `swap_mac` between two neighbouring arrays: `d₁` and `s₁` are
exchanged already, `d₂` and `s₂` not yet. -/
theorem swapMacLoop_eq (r : List UInt8) :
    ∀ (d₂ s₂ d₁ s₁ : List UInt8), d₂.length = s₂.length → d₁.length = s₁.length →
      swapMacLoop (d₁.length + d₂.length) 0 d₂.length d₁.length (d₁ ++ (d₂ ++ (s₁ ++ (s₂ ++ r))))
        = some (d₁ ++ (s₂ ++ (s₁ ++ (d₂ ++ r))))
  | [], [], d₁, s₁, _, _ => rfl
  | [], _ :: _, _, _, h, _ => by simp at h
  | _ :: _, [], _, _, h, _ => by simp at h
  | x :: d₂, y :: s₂, d₁, s₁, h, h₁ => by
      have hloadS : load8 (d₁ ++ (x :: d₂ ++ (s₁ ++ (y :: s₂ ++ r))))
          (d₁.length + (x :: d₂).length + d₁.length) = some y := by
        have hi : d₁.length + (x :: d₂).length + d₁.length = (d₁ ++ (x :: d₂ ++ s₁)).length := by
          simp only [List.length_append]
          omega
        simpa using load8_at (r := s₂ ++ r) (b := y) hi
      have hloadD : load8 (d₁ ++ (x :: d₂ ++ (s₁ ++ (y :: s₂ ++ r)))) (0 + d₁.length) = some x :=
        load8_at (Nat.zero_add _)
      have hstoreS : store (d₁ ++ (x :: d₂ ++ (s₁ ++ (y :: s₂ ++ r))))
          (d₁.length + (x :: d₂).length + d₁.length) [x]
            = some (d₁ ++ (x :: d₂ ++ (s₁ ++ (x :: s₂ ++ r)))) := by
        have hi : d₁.length + (x :: d₂).length + d₁.length = (d₁ ++ (x :: d₂ ++ s₁)).length := by
          simp only [List.length_append]
          omega
        simpa using store_at (r := s₂ ++ r) (b := y) (c := x) hi
      have hstoreD : store (d₁ ++ (x :: d₂ ++ (s₁ ++ (x :: s₂ ++ r)))) (0 + d₁.length) [y]
          = some (d₁ ++ (y :: d₂ ++ (s₁ ++ (x :: s₂ ++ r)))) :=
        store_at (Nat.zero_add _)
      have ih := swapMacLoop_eq r d₂ s₂ (d₁ ++ [y]) (s₁ ++ [x]) (by simpa using h)
        (by simpa using h₁)
      simp only [swapMacLoop, List.length_cons, Option.bind_eq_bind] at *
      rw [hloadS, Option.bind_some, hloadD, Option.bind_some, hstoreS, Option.bind_some, hstoreD,
        Option.bind_some]
      have hoff : d₁.length + (d₂.length + 1) = (d₁ ++ [y]).length + d₂.length := by
        simp
        omega
      rw [hoff]
      simpa using ih

theorem swapMac_bytes (f : Frame) :
    swapMac f.bytes 6 0 = some { f with hDest := f.hSource, hSource := f.hDest }.bytes := by
  have hcut : f.bytes = f.hDest.1 ++ (f.hSource.1 ++ f.bytes.drop 12) := by
    simp [bytes_eq, List.drop_append]
  have hcut' : { f with hDest := f.hSource, hSource := f.hDest }.bytes
      = f.hSource.1 ++ (f.hDest.1 ++ f.bytes.drop 12) := by
    simp [bytes_eq, List.drop_append]
  have h := swapMacLoop_eq (f.bytes.drop 12) f.hDest.1 f.hSource.1 [] [] (by simp) rfl
  rw [hcut', swapMac]
  nth_rewrite 1 [hcut]
  simpa using h

/-! ## The checksum -/

/-- The 20 bytes of the IPv4 header. -/
def ipHeader (f : Frame) : List UInt8 :=
  f.ipHead.1 ++ (f.totLen.1 ++ (f.ipMid.1 ++ (f.ipCheck.1 ++ (f.saddr.1 ++ f.daddr.1))))

theorem slice_ipHeader (f : Frame) : slice f.bytes 14 20 = f.ipHeader := by
  simp [bytes_eq, slice_append_right]
  simp [slice, List.take_append, List.take_of_length_le, ipHeader]

/-- The frame with the RFC 1071 checksum of its IPv4 header. -/
def checksummed (f : Frame) : Frame :=
  { f with
    ipCheck := ⟨be16 (onesChecksum (wordsBE { f with ipCheck := ⟨[0, 0], rfl⟩ }.ipHeader)), rfl⟩ }

theorem updateIpChecksum_bytes (f : Frame) :
    updateIpChecksum f.bytes 14 20 24 = some f.checksummed.bytes := by
  have hlen : 14 + 2 * 10 ≤ f.bytes.length := by rw [bytes_length]; omega
  have h := updateIpChecksum_eq (show 5 < 10 by omega) (by omega) hlen
  have hclear : cleared f.bytes 24 = { f with ipCheck := ⟨[0, 0], rfl⟩ }.bytes :=
    f.overwrite_ipCheck ⟨[0, 0], rfl⟩
  simp only [Nat.reduceMul, Nat.reduceAdd, hclear, slice_ipHeader] at h
  rw [h]
  exact congrArg some (f.overwrite_ipCheck ⟨be16 _, rfl⟩)

/-! ## The reply -/

/-- The header of the answer: MAC addresses, IP addresses and ports exchanged,
the lengths those of the whole frame, no UDP checksum, a fresh IP checksum. -/
def reply (f : Frame) : Frame :=
  checksummed { f with
    hDest := f.hSource
    hSource := f.hDest
    totLen := ⟨be16 (f.bytes.length - 14), rfl⟩
    saddr := f.daddr
    daddr := f.saddr
    source := f.dest
    dest := f.source
    udpLen := ⟨be16 (f.bytes.length - 14 - 20), rfl⟩
    udpCheck := ⟨[0, 0], rfl⟩ }

theorem rewriteHeaders_bytes (f : Frame) : rewriteHeaders f.bytes = some f.reply.bytes := by
  simp only [rewriteHeaders, bytes16_bswap16, be16_ofNat, Option.bind_eq_bind]
  -- each `dsimp only` merges the record updates of the group before it
  rw [store_bytes (by simp), Option.bind_some, f.overwrite_totLen ⟨be16 _, rfl⟩,
    store_bytes (by simp), Option.bind_some, overwrite_udpLen _ ⟨be16 _, rfl⟩,
    swapMac_bytes, Option.bind_some]
  dsimp only
  rw [load32_saddr, Option.bind_some, load32_daddr, Option.bind_some, bytes32_word32,
    bytes32_word32, store_bytes (by simp), Option.bind_some, overwrite_saddr,
    store_bytes (by simp), Option.bind_some, overwrite_daddr]
  dsimp only
  rw [store_bytes (by simp), Option.bind_some, overwrite_udpCheck _ ⟨bytes16 0, rfl⟩]
  dsimp only
  rw [load16_source, Option.bind_some, load16_dest, Option.bind_some, bytes16_word16,
    bytes16_word16, store_bytes (by simp), Option.bind_some, overwrite_source,
    store_bytes (by simp), Option.bind_some, overwrite_dest]
  exact updateIpChecksum_bytes _

end Frame

end NetProbes.Dns
