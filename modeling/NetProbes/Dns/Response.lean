/-
# `NetProbes.Dns.Response` — what `xdp_dns` does to a frame

The question decides between three ends of an invocation (`XdpEnd`, `xdpDns_ends`):

    no question bound in the map         pass, frame as received
    bound, the resize fails              pass, DNS header already marked
    bound, the resize succeeds           tx, the answer

The answer (`answerFrame`) is a record update of the request's fields followed
by the question and the 16 bytes of the answer record (`answer`).
-/
import NetProbes.Dns.Question
import NetProbes.Dns.Frame

namespace NetProbes.Dns

open NetProbes.Lib

/-! ## The answer record -/

/-- The answer record: a pointer to the name at offset 12, type A, class IN,
time to live, length 4 and the address. -/
def answer (a : ARecord) : List UInt8 :=
  be16 0xc00c ++ (be16 1 ++ (be16 1 ++ (be32 a.ttl.toNat ++ (be16 4 ++ bytes32 a.ipAddr))))

@[simp] theorem answer_length (a : ARecord) : (answer a).length = 16 := rfl

/-- The static buffer after `create_query_response`. -/
def answerBuffer (a : ARecord) (buf : Buf 512) : Buf 512 :=
  ⟨answer a ++ buf.1.drop 16, by simp⟩

theorem createQueryResponse_eq (a : ARecord) (buf : Buf 512) :
    createQueryResponse a buf 0 0 = some (answerBuffer a buf, 16) := by
  simp only [createQueryResponse, bytes16_bswap16, bytes32_bswap32, Nat.zero_add,
    Option.bind_eq_bind]
  -- six stores, each right behind the one before
  rw [Buf.store_bind (by rfl) (by simp), Buf.store_bind (by rfl) (by simp),
    Buf.store_bind (by rfl) (by simp), Buf.store_bind (by rfl) (by simp),
    Buf.store_bind (by rfl) (by simp), Buf.store_eq (by simp), Option.bind_some]
  refine congrArg some (Prod.ext (Subtype.ext ?_) rfl)
  simp [overwrite, answerBuffer, answer]

theorem copyToPktBuf_answer {p : List UInt8} {dst : Nat} (a : ARecord) (buf : Buf 512)
    (h : p.length = dst + 16) :
    copyToPktBuf p dst (answerBuffer a buf) 16 = some (p.take dst ++ answer a) := by
  have htake : (answerBuffer a buf).1.take 16 = answer a :=
    List.take_append_of_le_length (by simp)
  rw [copyToPktBuf, if_pos (by omega)]
  show memcpy p dst (answerBuffer a buf) 16 = _
  rw [memcpy, if_pos (by omega), htake, store_eq (by simp; omega)]
  simp [overwrite, ← h]

/-! ## The answer to a request -/

theorem zeroField_length : ([0, 0] : List UInt8).length = 2 := rfl

theorem oneField_length : (be16 1).length = 2 := rfl

/-- The answer to the request `f` with the given question: addresses and ports
exchanged, lengths and checksums new, `qr`, `ra` and `ans_count` set, the
question and the answer record behind the headers, all else as in `f`. -/
def answerFrame (f : Frame) (question : List UInt8) (a : ARecord) : Frame :=
  Frame.checksummed { f with
    hDest := f.hSource
    hSource := f.hDest
    totLen := ⟨be16 (54 + question.length + 16 - 14), rfl⟩
    saddr := f.daddr
    daddr := f.saddr
    source := f.dest
    dest := f.source
    udpLen := ⟨be16 (54 + question.length + 16 - 34), rfl⟩
    udpCheck := ⟨[0, 0], zeroField_length⟩
    flagsQr := f.flagsQr ||| 0x80
    flagsRa := f.flagsRa ||| 0x80
    ansCount := ⟨be16 1, oneField_length⟩
    body := question ++ answer a }

theorem reply_marked (f : Frame) (question : List UInt8) (a : ARecord) :
    { f.marked with body := question ++ answer a }.reply = answerFrame f question a := by
  simp only [Frame.reply, Frame.marked, answerFrame, Frame.bytes_length, List.length_append,
    answer_length, Nat.sub_sub, Nat.add_assoc, Nat.reduceAdd]

/-- The end of an invocation whose resize succeeded with `p₂`: the headers of
`p₂` are rewritten, the answer stands behind the question. -/
theorem finishResponse_reply {g : Frame} {p₂ : List UInt8} {n : Nat} (a : ARecord) (buf : Buf 512)
    (hlen : p₂.length = 54 + n + 16) (hkeep : p₂.take 54 = g.bytes.take 54) :
    finishResponse p₂ n (answerBuffer a buf) 16
      = some (.tx, { g with body := slice p₂ 54 n ++ answer a }.reply.bytes) := by
  have hbytes : p₂.take (54 + n) ++ answer a
      = { g with body := slice p₂ 54 n ++ answer a }.bytes := by
    rw [Frame.bytes_body, List.take_add, hkeep, List.append_assoc]
    rfl
  have hlong : ¬ 14 + 20 + 8 > { g with body := slice p₂ 54 n ++ answer a }.bytes.length := by
    rw [Frame.bytes_length]
    omega
  simp only [finishResponse, Int.toNat_natCast, Nat.reduceAdd, copyToPktBuf_answer a buf hlen,
    hbytes, Option.bind_eq_bind, Option.bind_some]
  rw [if_neg hlong, Frame.rewriteHeaders_bytes, Option.bind_some]

theorem finishResponse_eq {f : Frame} {p₂ : List UInt8} {n : Nat} (a : ARecord) (buf : Buf 512)
    (hlen : p₂.length = 54 + n + 16) (hkeep : p₂.take 54 = f.marked.bytes.take 54) :
    finishResponse p₂ n (answerBuffer a buf) 16
      = some (.tx, (answerFrame f (slice p₂ 54 n) a).bytes) := by
  rw [finishResponse_reply a buf hlen hkeep, reply_marked]

/-! ## The ends of an invocation -/

/-- The frame carries a question, `k` bytes of name long, that the map binds
to the record `a`. -/
def Answers (records : RecordMap) (p : List UInt8) (k : Nat) (a : ARecord) : Prop :=
  IsDnsQuery p ∧ NameEnds p 54 k ∧ records.lookup (questionKey p 54 k) = some a

instance decAnswers (records : RecordMap) (p : List UInt8) (k : Nat) (a : ARecord) :
    Decidable (Answers records p k a) :=
  inferInstanceAs (Decidable (_ ∧ _ ∧ _))

theorem Answers.length_ge {records : RecordMap} {p : List UInt8} {k : Nat} {a : ARecord}
    (h : Answers records p k a) : 54 ≤ p.length := h.1.1

theorem Answers.unique {records : RecordMap} {p : List UInt8} {k k' : Nat} {a a' : ARecord}
    (h : Answers records p k a) (h' : Answers records p k' a') : k = k' ∧ a = a' := by
  obtain rfl := h.2.1.unique h'.2.1
  exact ⟨rfl, Option.some.inj (h.2.2.symm.trans h'.2.2)⟩

/-- The frame with a marked header, as it is handed to `bpf_xdp_adjust_tail`. -/
def markedPacket (p : List UInt8) (hp : 54 ≤ p.length) : List UInt8 :=
  (Frame.ofBytes p hp).marked.bytes

theorem markedPacket_length (p : List UInt8) (hp : 54 ≤ p.length) :
    (markedPacket p hp).length = p.length := by
  have h := congrArg List.length (Frame.bytes_ofBytes p hp)
  rw [Frame.bytes_length] at h
  rw [markedPacket, Frame.bytes_length]
  exact h

theorem markedPacket_drop (p : List UInt8) (hp : 54 ≤ p.length) :
    (markedPacket p hp).drop 54 = p.drop 54 :=
  Frame.bytes_drop _

theorem tailAdjust_marked (p : List UInt8) (hp : 54 ≤ p.length) (n : Int) (m : Nat) :
    tailAdjust (markedPacket p hp) n m = tailAdjust p n m := by
  rw [tailAdjust, tailAdjust, markedPacket_length]

theorem findQuestion_of_not_answers {records : RecordMap} {p : List UInt8}
    (h : ∀ k a, ¬ Answers records p k a) :
    findQuestion p = some none ∨
      ∃ n q, findQuestion p = some (some (n, q)) ∧ matchARecords records q = none := by
  rcases findQuestion_cases p with ⟨k, hquery, hname, hfind⟩ | ⟨-, hfind⟩
  · refine Or.inr ⟨_, _, hfind, ?_⟩
    cases hl : records.lookup (questionKey p 54 k) with
    | none => exact hl
    | some a => exact absurd ⟨hquery, hname, hl⟩ (h k a)
  · exact Or.inl hfind

/-- A question that is not bound, or no question: the frame is passed. -/
theorem xdpDns_of_not_answers {adjust : AdjustTail} {records : RecordMap} {buf : Buf 512}
    {p : List UInt8} (h : ∀ k a, ¬ Answers records p k a) :
    xdpDns adjust records buf p = some ⟨.pass, p, buf⟩ := by
  rcases findQuestion_of_not_answers h with hfind | ⟨n, q, hfind, hnone⟩
  · simp only [xdpDns, hfind, Option.bind_eq_bind, Option.bind_some]
  · simp only [xdpDns, hfind, Option.bind_eq_bind, Option.bind_some, hnone]

theorem findQuestion_of_answers {records : RecordMap} {p : List UInt8} {k : Nat} {a : ARecord}
    (h : Answers records p k a) :
    findQuestion p = some (some ((k : Int) + 5, questionKey p 54 k)) := by
  rcases findQuestion_cases p with ⟨k', -, hname, hfind⟩ | ⟨hno, -⟩
  · obtain rfl := h.2.1.unique hname
    exact hfind
  · exact absurd ⟨h.1, h.2.1⟩ (hno k)

theorem modifyDnsHeaderResponse_eq {p : List UInt8} (hp : 54 ≤ p.length) :
    modifyDnsHeaderResponse p 42 = some (markedPacket p hp) := by
  have hm := Frame.modifyDnsHeaderResponse_bytes (Frame.ofBytes p hp)
  rw [Frame.bytes_ofBytes] at hm
  exact hm

/-- A bound question, up to the outcome of the resize. -/
theorem xdpDns_of_answers (adjust : AdjustTail) {records : RecordMap} (buf : Buf 512)
    {p : List UInt8} {k : Nat} {a : ARecord} (h : Answers records p k a) :
    xdpDns adjust records buf p
      = match adjust.run (markedPacket p h.length_ge) (tailAdjust p (k + 5 : Nat) 16) with
        | none => some ⟨.pass, markedPacket p h.length_ge, answerBuffer a buf⟩
        | some p₂ => (finishResponse p₂ (k + 5 : Nat) (answerBuffer a buf) 16).map
            fun r => ⟨r.1, r.2, answerBuffer a buf⟩ := by
  have hmatch : matchARecords records (questionKey p 54 k) = some a := h.2.2
  simp only [xdpDns, findQuestion_of_answers h, hmatch, modifyDnsHeaderResponse_eq h.length_ge,
    createQueryResponse_eq, Option.bind_eq_bind, Option.bind_some, Nat.cast_add, Nat.cast_ofNat,
    tailAdjust_marked]
  cases hadj : adjust.run (markedPacket p h.length_ge) (tailAdjust p (k + 5) 16) with
  | none => rfl
  | some p₂ =>
      simp only [Option.map_eq_bind]
      rfl

/-! ## The resize -/

/-- After a successful resize the frame ends right behind the place of the
answer, whatever its length was before. -/
theorem resized_length {adjust : AdjustTail} {m p₂ : List UInt8} {k : Nat} (hk : k ≤ 255)
    (h : adjust.run m (tailAdjust m (k + 5 : Nat) 16) = some p₂) :
    p₂.length = 54 + (k + 5) + 16 := by
  have hlen := adjust.length_eq h
  have hfits := adjust.fits h
  have hmod : tailAdjust m (k + 5 : Nat) 16 % 4294967296
      = (54 + ((k + 5 : Nat) : Int) + (16 : Nat) - m.length) % 4294967296 := Int.bmod_emod
  generalize tailAdjust m (k + 5 : Nat) 16 = d at hlen hmod
  omega

theorem markedPacket_resized_length {adjust : AdjustTail} {p p₂ : List UInt8} {k : Nat}
    (hp : 54 ≤ p.length) (hk : k ≤ 255)
    (h : adjust.run (markedPacket p hp) (tailAdjust p (k + 5 : Nat) 16) = some p₂) :
    p₂.length = 54 + (k + 5) + 16 :=
  resized_length hk (by rw [tailAdjust_marked]; exact h)

theorem resized_take {adjust : AdjustTail} {m p₂ : List UInt8} {d : Int} {n : Nat}
    (h : adjust.run m d = some p₂) (hm : n ≤ m.length) (hp₂ : n ≤ p₂.length) :
    p₂.take n = m.take n := by
  have hslice := slice_congr (p := p₂) (q := m) (i := 0) (n := n) (by omega) (by omega)
    fun j _ hj => adjust.keeps h j (by omega) (by omega)
  simpa [slice] using hslice

theorem xdpDns_of_resized {adjust : AdjustTail} {records : RecordMap} (buf : Buf 512)
    {p p₂ : List UInt8} {k : Nat} {a : ARecord} (h : Answers records p k a)
    (hrun : adjust.run (markedPacket p h.length_ge) (tailAdjust p (k + 5 : Nat) 16) = some p₂) :
    xdpDns adjust records buf p = some ⟨.tx,
      (answerFrame (Frame.ofBytes p h.length_ge) (slice p₂ 54 (k + 5)) a).bytes,
      answerBuffer a buf⟩ := by
  have hlen := markedPacket_resized_length h.length_ge h.2.1.1 hrun
  have hp : 54 ≤ (markedPacket p h.length_ge).length := by
    rw [markedPacket_length]
    exact h.length_ge
  have hkeep := resized_take hrun hp (by omega)
  rw [xdpDns_of_answers adjust buf h, hrun]
  simp only [finishResponse_eq a buf hlen hkeep, Option.map_some]

theorem xdpDns_of_not_resized {adjust : AdjustTail} {records : RecordMap} (buf : Buf 512)
    {p : List UInt8} {k : Nat} {a : ARecord} (h : Answers records p k a)
    (hrun : adjust.run (markedPacket p h.length_ge) (tailAdjust p (k + 5 : Nat) 16) = none) :
    xdpDns adjust records buf p
      = some ⟨.pass, markedPacket p h.length_ge, answerBuffer a buf⟩ := by
  rw [xdpDns_of_answers adjust buf h, hrun]

/-- The ends of an invocation. -/
inductive XdpEnd (adjust : AdjustTail) (records : RecordMap) (buf : Buf 512) (p : List UInt8) :
    XdpResult → Prop
  | sent {k : Nat} {a : ARecord} {p₂ : List UInt8} (h : Answers records p k a) :
      adjust.run (markedPacket p h.length_ge) (tailAdjust p (k + 5 : Nat) 16) = some p₂ →
      XdpEnd adjust records buf p ⟨.tx,
        (answerFrame (Frame.ofBytes p h.length_ge) (slice p₂ 54 (k + 5)) a).bytes,
        answerBuffer a buf⟩
  | marked {k : Nat} {a : ARecord} (h : Answers records p k a) :
      adjust.run (markedPacket p h.length_ge) (tailAdjust p (k + 5 : Nat) 16) = none →
      XdpEnd adjust records buf p ⟨.pass, markedPacket p h.length_ge, answerBuffer a buf⟩
  | passed : (∀ k a, ¬ Answers records p k a) → XdpEnd adjust records buf p ⟨.pass, p, buf⟩

/-- Every invocation returns, at one of its ends. -/
theorem xdpDns_ends (adjust : AdjustTail) (records : RecordMap) (buf : Buf 512) (p : List UInt8) :
    ∃ r, xdpDns adjust records buf p = some r ∧ XdpEnd adjust records buf p r := by
  by_cases h : ∃ k a, Answers records p k a
  · obtain ⟨k, a, hans⟩ := h
    cases hrun : adjust.run (markedPacket p hans.length_ge) (tailAdjust p (k + 5 : Nat) 16) with
    | none => exact ⟨_, xdpDns_of_not_resized _ hans hrun, .marked hans hrun⟩
    | some p₂ => exact ⟨_, xdpDns_of_resized _ hans hrun, .sent hans hrun⟩
  · have hno : ∀ k a, ¬ Answers records p k a := fun k a hans => h ⟨k, a, hans⟩
    exact ⟨_, xdpDns_of_not_answers hno, .passed hno⟩

/-- Where the question lies inside the frame, the resize keeps it. -/
theorem resized_question {adjust : AdjustTail} {p p₂ : List UInt8} {k : Nat} (hp : 54 ≤ p.length)
    (hk : k ≤ 255) (hin : 54 + (k + 5) ≤ p.length)
    (hrun : adjust.run (markedPacket p hp) (tailAdjust p (k + 5 : Nat) 16) = some p₂) :
    slice p₂ 54 (k + 5) = slice p 54 (k + 5) := by
  have hlen := markedPacket_resized_length hp hk hrun
  have htake := resized_take (n := 54 + (k + 5)) hrun (by rw [markedPacket_length]; exact hin)
    (by omega)
  have hslice : ∀ q : List UInt8, slice q 54 (k + 5) = (q.take (54 + (k + 5))).drop 54 := by
    intro q
    rw [List.drop_take, Nat.add_sub_cancel_left]
    rfl
  rw [hslice p₂, htake, ← hslice, slice, markedPacket_drop]
  rfl

/-- A key of type and class 1 comes only from a question inside the frame. -/
theorem Answers.inside {records : RecordMap} {p : List UInt8} {k : Nat} {a : ARecord}
    (hkeys : ∀ q ∈ records.keys, q.recordType = 1 ∧ q.cls = 1) (h : Answers records p k a) :
    54 + (k + 5) ≤ p.length := by
  by_contra hcut
  have hmem := HashMap.mem_keys_iff.mpr ⟨a, h.2.2⟩
  have htype := (hkeys _ hmem).1
  rw [← Nat.add_assoc] at hcut
  simp only [questionKey, if_neg hcut] at htype
  exact absurd htype (by decide)

/-- Every invocation returns.  Where the map's keys all have type and class 1
and the frame is sent back, it is the request turned into its answer: the
lengths are the numbers they should be, and nothing follows the answer. -/
theorem xdpDns_tx_packet (adjust : AdjustTail) (records : RecordMap)
    (hkeys : ∀ q ∈ records.keys, q.recordType = 1 ∧ q.cls = 1) (buf : Buf 512)
    (p : List UInt8) :
    ∃ r, xdpDns adjust records buf p = some r ∧ (r.action = .tx →
      ∃ (hp : 54 ≤ p.length) (k : Nat) (a : ARecord),
        NameEnds p 54 k ∧ 54 + (k + 5) ≤ p.length ∧
        records.lookup (questionKey p 54 k) = some a ∧
        r.packet = (answerFrame (Frame.ofBytes p hp) (slice p 54 (k + 5)) a).bytes ∧
        r.packet.length = 54 + (k + 5) + 16 ∧
        net16 r.packet 16 = r.packet.length - 14 ∧
        net16 r.packet 38 = r.packet.length - 34) := by
  obtain ⟨r, hr, hend⟩ := xdpDns_ends adjust records buf p
  refine ⟨r, hr, fun htx => ?_⟩
  cases hend with
  | marked _ _ => cases htx
  | passed _ => cases htx
  | @sent k a p₂ hans hrun =>
      have hk := hans.2.1.1
      have hin := hans.inside hkeys
      have hq := resized_question hans.length_ge hk hin hrun
      have hqlen : (slice p 54 (k + 5)).length = k + 5 := slice_length hin
      have hlen : (answerFrame (Frame.ofBytes p hans.length_ge) (slice p 54 (k + 5)) a).bytes.length
          = 54 + (k + 5) + 16 := by
        rw [Frame.bytes_length]
        show 54 + (slice p 54 (k + 5) ++ answer a).length = _
        rw [List.length_append, hqlen, answer_length]
        rfl
      refine ⟨hans.length_ge, k, a, hans.2.1, hin, hans.2.2, by rw [hq], ?_⟩
      simp only [hq, hlen, true_and]
      constructor
      · refine net16_of_slice ((Frame.slice_totLen _).trans ?_) (by omega)
        simp only [answerFrame, Frame.checksummed, hqlen]
      · refine net16_of_slice ((Frame.slice_udpLen _).trans ?_) (by omega)
        simp only [answerFrame, Frame.checksummed, hqlen]

section Driver
variable {hardEnd : Nat} {p p' : List UInt8} {d : Int}

/-- What a driver whose frames have room up to `hardEnd` returns. -/
theorem kernelAdjust_cases (hrun : (if 14 ≤ (p.length : Int) + d ∧ (p.length : Int) + d ≤ hardEnd then
      let n := ((p.length : Int) + d).toNat
      some (p.take n ++ List.replicate (n - p.length) 0)
    else none) = some p') :
    14 ≤ (p.length : Int) + d ∧ (p.length : Int) + d ≤ hardEnd ∧
      p' = p.take ((p.length : Int) + d).toNat
        ++ List.replicate (((p.length : Int) + d).toNat - p.length) 0 := by
  split at hrun
  · rename_i hroom
    exact ⟨hroom.1, hroom.2, (Option.some.inj hrun).symm⟩
  · cases hrun

theorem kernelAdjust_length (hmin : 14 ≤ (p.length : Int) + d) :
    ((p.take ((p.length : Int) + d).toNat
      ++ List.replicate (((p.length : Int) + d).toNat - p.length) (0 : UInt8)).length : Int)
      = p.length + d := by
  simp only [List.length_append, List.length_take, List.length_replicate]
  omega

theorem kernelAdjust_keeps (hmin : 14 ≤ (p.length : Int) + d) {i : Nat} (hi : i < p.length)
    (hi' : (i : Int) < p.length + d) :
    byteAt (p.take ((p.length : Int) + d).toNat
      ++ List.replicate (((p.length : Int) + d).toNat - p.length) 0) i = byteAt p i := by
  have hn : i < ((p.length : Int) + d).toNat := by omega
  have hlt : i < (p.take ((p.length : Int) + d).toNat).length := by
    simp only [List.length_take]
    omega
  rw [byteAt_append, if_pos hlt]
  simp [byteAt, List.getD_eq_getElem?_getD, hn]

end Driver

/-- A driver whose frames have room up to `hardEnd`: the frame never becomes
shorter than an Ethernet header and what it grows by is zero. -/
def kernelAdjustTail (hardEnd : Nat) (h : hardEnd < 4294967296) : AdjustTail where
  run p d :=
    if 14 ≤ (p.length : Int) + d ∧ (p.length : Int) + d ≤ hardEnd then
      let n := ((p.length : Int) + d).toNat
      some (p.take n ++ List.replicate (n - p.length) 0)
    else none
  length_eq := by
    intro p d p' hrun
    obtain ⟨hmin, -, rfl⟩ := kernelAdjust_cases hrun
    exact kernelAdjust_length hmin
  keeps := by
    intro p d p' hrun i hi hi'
    obtain ⟨hmin, -, rfl⟩ := kernelAdjust_cases hrun
    exact kernelAdjust_keeps hmin hi (kernelAdjust_length hmin ▸ Int.ofNat_lt.mpr hi')
  fits := by
    intro p d p' hrun
    obtain ⟨hmin, hmax, rfl⟩ := kernelAdjust_cases hrun
    have hlen := kernelAdjust_length hmin
    omega

/-- A query for the name `a`, type A, class IN. -/
def sampleQuery : List UInt8 :=
  [2, 0, 0, 0, 0, 1, 2, 0, 0, 0, 0, 2, 8, 0,
    0x45, 0, 0, 47, 0, 1, 0, 0, 64, 17, 0x26, 0xbb, 10, 0, 0, 2, 10, 0, 0, 1,
    0xc0, 1, 0, 53, 0, 27, 0, 0,
    0x12, 0x34, 1, 0, 0, 1, 0, 0, 0, 0, 0, 0,
    1, 97, 0, 0, 1, 0, 1]

/-- A map that binds the name `a` to 192.0.2.1 for 300 seconds. -/
def sampleRecords : RecordMap where
  entries := [(⟨1, 1, padded 256 [1, 97]⟩, ⟨le32 192 0 2 1, 300⟩)]
  nodup := by simp
  size_le := by simp

theorem sampleRecords_answers : Answers sampleRecords sampleQuery 2 ⟨le32 192 0 2 1, 300⟩ := by
  decide +kernel

theorem xdpDns_tx_packet_sampleQuery :
    (∀ q ∈ sampleRecords.keys, q.recordType = 1 ∧ q.cls = 1) ∧
    ∃ r, xdpDns (kernelAdjustTail 1518 (by decide)) sampleRecords (Buf.zero 512) sampleQuery
        = some r ∧ r.action = .tx ∧
      ∃ (hp : 54 ≤ sampleQuery.length) (k : Nat) (a : ARecord),
        r.packet = (answerFrame (Frame.ofBytes sampleQuery hp) (slice sampleQuery 54 (k + 5)) a).bytes ∧
        r.packet.length = 54 + (k + 5) + 16 := by
  have hkeys : ∀ q ∈ sampleRecords.keys, q.recordType = 1 ∧ q.cls = 1 := by decide +kernel
  have haction : ((xdpDns (kernelAdjustTail 1518 (by decide)) sampleRecords (Buf.zero 512)
      sampleQuery).map XdpResult.action) = some .tx := by
    decide +kernel
  obtain ⟨r, hr, h⟩ := xdpDns_tx_packet (kernelAdjustTail 1518 (by decide)) sampleRecords hkeys
    (Buf.zero 512) sampleQuery
  have htx : r.action = .tx := by
    rw [hr] at haction
    exact Option.some.inj haction
  obtain ⟨hp, k, a, -, -, -, hpacket, hlen, -, -⟩ := h htx
  exact ⟨hkeys, r, hr, htx, hp, k, a, hpacket, hlen⟩

/-! ## The pass exits

Every exit before the header is marked passes the frame as it came, and the
exit behind the resize is never taken.  The exit where the resize itself fails
comes after `modify_dns_header_response`: the frame goes on to the stack with
`qr`, `ra` and `ans_count` set, as an answer without its answer. -/

/-- Marking changes every query: its `qr` bit was zero. -/
theorem markedPacket_ne {p : List UInt8} (h : IsDnsQuery p) : markedPacket p h.1 ≠ p := by
  intro heq
  have hflag : byteAt p 44 ||| 0x80 = byteAt p 44 := by
    have hload := (Frame.ofBytes p h.1).marked.load8_flagsQr
    have hload' := (Frame.ofBytes p h.1).load8_flagsQr
    rw [Frame.bytes_ofBytes] at hload'
    change load8 (markedPacket p h.1) 44 = _ at hload
    rw [heq, hload'] at hload
    exact (Option.some.inj hload).symm
  have hlow : ∀ n : Fin 8, UInt8.ofNat n.val ||| 0x80 ≠ UInt8.ofNat n.val := by decide
  have hlt : (byteAt p 44).toNat < 8 := h.2.2.2.2.2.2
  have hb := hlow ⟨(byteAt p 44).toNat, hlt⟩
  simp only [UInt8.ofNat_toNat] at hb
  exact hb hflag

/-- A passed frame is the frame received, except where the question is bound
and `bpf_xdp_adjust_tail` fails: then it never is. -/
theorem xdpDns_pass_unchanged_iff (adjust : AdjustTail) (records : RecordMap) (buf : Buf 512)
    (p : List UInt8) :
    ∃ r, xdpDns adjust records buf p = some r ∧ ((r.action = .pass → r.packet = p) ↔
      ∀ (k : Nat) (a : ARecord) (h : Answers records p k a),
        adjust.run (markedPacket p h.length_ge) (tailAdjust p (k + 5 : Nat) 16) ≠ none) := by
  obtain ⟨r, hr, hend⟩ := xdpDns_ends adjust records buf p
  refine ⟨r, hr, ?_⟩
  cases hend with
  | sent hans hrun =>
      refine iff_of_true (fun hpass => by cases hpass) ?_
      intro k' a' hans'
      obtain ⟨rfl, rfl⟩ := hans.unique hans'
      rw [hrun]
      exact Option.some_ne_none _
  | marked hans hrun =>
      constructor
      · intro hkeep
        exact absurd (hkeep rfl) (markedPacket_ne hans.1)
      · intro hnot
        exact absurd hrun (hnot _ _ hans)
  | passed hno =>
      refine iff_of_true (fun _ => rfl) ?_
      intro k a hans
      exact absurd hans (hno k a)

/-- With no tail room for the answer the query for `a` goes on as an answer. -/
theorem xdpDns_pass_changed :
    ¬ ∀ (adjust : AdjustTail) (records : RecordMap) (buf : Buf 512) (p : List UInt8) (r : XdpResult),
      xdpDns adjust records buf p = some r → r.action = .pass → r.packet = p := by
  intro hall
  have hrun : (kernelAdjustTail 64 (by decide)).run
      (markedPacket sampleQuery sampleRecords_answers.length_ge)
      (tailAdjust sampleQuery (2 + 5 : Nat) 16) = none := by
    decide +kernel
  have hres := xdpDns_of_not_resized (Buf.zero 512) sampleRecords_answers hrun
  exact markedPacket_ne sampleRecords_answers.1 (hall _ _ _ _ _ hres rfl)

end NetProbes.Dns
