/-
# `NetProbes.Dns.Shared` — invocations on several CPUs share one buffer

`dns_buffer` is a static array: `create_query_response` writes the answer
record into it and `copy_to_pkt_buf` copies it from there, and between the two
calls any other invocation may do the same.  The calls are the steps of a
system with any number of invocations:

    receive p     a frame arrives
    find i        the checks, `parse_query`, `match_a_records`; the header of
                  a frame that is to be answered is marked
    create i      `create_query_response` into the shared buffer
    adjust i      `bpf_xdp_adjust_tail`
    copy i        `copy_to_pkt_buf` from the shared buffer, and the headers
    setRecords m  the record map changes

An invocation alone is `xdpDns` (`exec_lone`).  Two of them can send each
other's records (`shared_run_mixed`); they do not as long as no `create` falls
between the `create` and the `copy` of an invocation with another record
(`shared_run_own_record`).
-/
import NetProbes.Dns.Response
import NetProbes.Lib.Run

namespace NetProbes.Dns

open NetProbes.Lib

/-! ## The system -/

/-- How far an invocation has come, with its frame and what it has on its own
stack: the length of the question and the record its query matched. -/
inductive Stage where
  | received (p : List UInt8)
  | found (p : List UInt8) (queryLength : Int) (a : ARecord)
  | created (p : List UInt8) (queryLength : Int) (a : ARecord) (bufSize : Nat)
  | resized (p : List UInt8) (queryLength : Int) (a : ARecord) (bufSize : Nat)
  | done (action : XdpAction) (p : List UInt8) (own : Option ARecord)
  deriving DecidableEq

/-- The map, the static buffer and the invocations so far. -/
structure Shared where
  records : RecordMap
  dnsBuffer : Buf 512
  stages : List Stage

/-- The steps. -/
inductive SharedAction where
  | setRecords (m : RecordMap)
  | receive (p : List UInt8)
  | find (i : Nat)
  | create (i : Nat)
  | adjust (i : Nat)
  | copy (i : Nat)

/-- The stage of an invocation is replaced. -/
def Shared.put (s : Shared) (i : Nat) (st : Stage) : Shared :=
  { s with stages := s.stages.set i st }

/-- One step; `none` where the invocation is not at it. -/
def sharedStep (adjust : AdjustTail) (s : Shared) : SharedAction → Option Shared
  | .setRecords m => some { s with records := m }
  | .receive p => some { s with stages := s.stages ++ [.received p] }
  | .find i =>
      match s.stages[i]? with
      | some (.received p) =>
          (findQuestion p).bind fun
            | none => some (s.put i (.done .pass p none))
            | some (queryLength, q) =>
                match matchARecords s.records q with
                | none => some (s.put i (.done .pass p none))
                | some a => (modifyDnsHeaderResponse p 42).map fun p =>
                    s.put i (.found p queryLength a)
      | _ => none
  | .create i =>
      match s.stages[i]? with
      | some (.found p queryLength a) =>
          (createQueryResponse a s.dnsBuffer 0 0).map fun (buf, bufSize) =>
            { s.put i (.created p queryLength a bufSize) with dnsBuffer := buf }
      | _ => none
  | .adjust i =>
      match s.stages[i]? with
      | some (.created p queryLength a bufSize) =>
          match adjust.run p (tailAdjust p queryLength bufSize) with
          | none => some (s.put i (.done .pass p (some a)))
          | some p₂ => some (s.put i (.resized p₂ queryLength a bufSize))
      | _ => none
  | .copy i =>
      match s.stages[i]? with
      | some (.resized p queryLength a bufSize) =>
          (finishResponse p queryLength s.dnsBuffer bufSize).map fun (action, p) =>
            s.put i (.done action p (some a))
      | _ => none

/-- No invocation has begun. -/
def Shared.init (records : RecordMap) (buf : Buf 512) : Shared := ⟨records, buf, []⟩

/-- The record an invocation has in the buffer and not yet in its frame. -/
def Stage.pending : Stage → Option ARecord
  | .created _ _ a _ => some a
  | .resized _ _ a _ => some a
  | _ => none

/-- The record an invocation is about to write. -/
def Stage.matched : Stage → Option ARecord
  | .found _ _ a => some a
  | _ => none

/-- What keeps records apart: when an invocation writes its record into the
buffer, every invocation with a record pending there has the same one. -/
def NoMix (s : Shared) : SharedAction → Prop
  | .create i => ∀ st ∈ s.stages, st.pending = none ∨
      st.pending = (s.stages[i]?).bind Stage.matched
  | _ => True

instance decNoMix : ∀ (s : Shared) (a : SharedAction), Decidable (NoMix s a)
  | s, .create i => inferInstanceAs (Decidable (∀ st ∈ s.stages, st.pending = none ∨
      st.pending = (s.stages[i]?).bind Stage.matched))
  | _, .setRecords _ => isTrue trivial
  | _, .receive _ => isTrue trivial
  | _, .find _ => isTrue trivial
  | _, .adjust _ => isTrue trivial
  | _, .copy _ => isTrue trivial

/-! ## The invariant -/

/-- A pending record is the one in the buffer, and a sent frame ends with the
record of its own query. -/
def Stage.Ok (buf : Buf 512) : Stage → Prop
  | .received _ => True
  | .found _ queryLength _ => ∃ k : Nat, k ≤ 255 ∧ queryLength = (k + 5 : Nat)
  | .created _ queryLength a bufSize =>
      bufSize = 16 ∧ buf.1.take 16 = answer a ∧ ∃ k : Nat, k ≤ 255 ∧ queryLength = (k + 5 : Nat)
  | .resized p queryLength a bufSize =>
      bufSize = 16 ∧ buf.1.take 16 = answer a ∧
        ∃ k : Nat, queryLength = (k + 5 : Nat) ∧ p.length = 54 + (k + 5) + 16
  | .done .pass _ _ => True
  | .done .tx p own => ∃ a, own = some a ∧ p.drop (p.length - 16) = answer a

/-- Every invocation is in order. -/
def SharedInv (s : Shared) : Prop := ∀ st ∈ s.stages, st.Ok s.dnsBuffer

theorem SharedInv.put {s : Shared} {i : Nat} {st : Stage} (hinv : SharedInv s)
    (hst : st.Ok s.dnsBuffer) : SharedInv (s.put i st) := by
  intro st' hmem
  rcases List.mem_or_eq_of_mem_set hmem with hmem | rfl
  · exact hinv st' hmem
  · exact hst

theorem SharedInv.at {s : Shared} {i : Nat} {st : Stage} (hinv : SharedInv s)
    (hi : s.stages[i]? = some st) : st.Ok s.dnsBuffer :=
  hinv st (List.mem_of_getElem? hi)

/-- A stage stays in order when the buffer takes a record that no pending one
differs from. -/
theorem Stage.Ok.buffer {buf buf' : Buf 512} {st : Stage} {a : ARecord} (h : st.Ok buf)
    (hpend : st.pending = none ∨ st.pending = some a) (hbuf : buf'.1.take 16 = answer a) :
    st.Ok buf' := by
  cases st with
  | received p => trivial
  | found p n b => exact h
  | created p n b m =>
      obtain ⟨hm, -, hk⟩ := h
      rcases hpend with hp | hp
      · cases hp
      · cases hp
        exact ⟨hm, hbuf, hk⟩
  | resized p n b m =>
      obtain ⟨hm, -, hk⟩ := h
      rcases hpend with hp | hp
      · cases hp
      · cases hp
        exact ⟨hm, hbuf, hk⟩
  | done action p own =>
      cases action with
      | pass => trivial
      | tx => exact h

theorem take_answerBuffer (a : ARecord) (buf : Buf 512) :
    (answerBuffer a buf).1.take 16 = answer a :=
  List.take_append_of_le_length (by simp)

theorem eq_answerBuffer {a : ARecord} {buf : Buf 512} (h : buf.1.take 16 = answer a) :
    buf = answerBuffer a buf := by
  apply Subtype.ext
  show buf.1 = answer a ++ buf.1.drop 16
  rw [← h, List.take_append_drop]

/-- What the last call leaves when the buffer holds the invocation's record. -/
theorem finishResponse_own {p : List UInt8} {n : Nat} {a : ARecord} {buf : Buf 512}
    (hlen : p.length = 54 + n + 16) (hbuf : buf.1.take 16 = answer a) :
    ∃ p', finishResponse p n buf 16 = some (.tx, p') ∧ p'.drop (p'.length - 16) = answer a := by
  have hkeep : p.take 54 = (Frame.ofBytes p (by omega)).bytes.take 54 := by
    rw [Frame.bytes_ofBytes]
  have hfin := finishResponse_reply a buf hlen hkeep
  rw [← eq_answerBuffer hbuf] at hfin
  refine ⟨_, hfin, ?_⟩
  have hslice : (slice p 54 n).length = n := slice_length (by omega)
  rw [Frame.bytes_length]
  show List.drop (54 + (slice p 54 n ++ answer a).length - 16) _ = _
  have hcount : 54 + (slice p 54 n ++ answer a).length - 16 = 54 + n := by
    rw [List.length_append, hslice, answer_length]
    omega
  rw [hcount, ← List.drop_drop, Frame.bytes_drop]
  exact List.drop_left' hslice

/-! ## Steps and runs -/

section Steps
variable {adjust : AdjustTail} {s s' : Shared} {i : Nat}

theorem sharedInv_find (hinv : SharedInv s) (hstep : sharedStep adjust s (.find i) = some s') :
    SharedInv s' := by
  simp only [sharedStep] at hstep
  split at hstep
  · rename_i p hi
    rcases findQuestion_cases p with ⟨k, hquery, hname, hfind⟩ | ⟨-, hfind⟩
    · rw [hfind, Option.bind_some] at hstep
      simp only at hstep
      split at hstep
      · cases hstep
        exact hinv.put trivial
      · obtain ⟨p', -, rfl⟩ := Option.map_eq_some_iff.mp hstep
        exact hinv.put ⟨k, hname.1, rfl⟩
    · rw [hfind, Option.bind_some] at hstep
      cases hstep
      exact hinv.put trivial
  · cases hstep

theorem sharedInv_create (hinv : SharedInv s) (hmix : NoMix s (.create i))
    (hstep : sharedStep adjust s (.create i) = some s') : SharedInv s' := by
  simp only [sharedStep] at hstep
  split at hstep
  · rename_i p n a hi
    rw [createQueryResponse_eq, Option.map_some] at hstep
    cases hstep
    have hmatched : (s.stages[i]?).bind Stage.matched = some a := by
      rw [hi]
      rfl
    intro st hmem
    have hbuf := take_answerBuffer a s.dnsBuffer
    rcases List.mem_or_eq_of_mem_set hmem with hmem | rfl
    · have hpend := hmix st hmem
      rw [hmatched] at hpend
      exact (hinv st hmem).buffer hpend hbuf
    · exact ⟨rfl, hbuf, hinv.at hi⟩
  · cases hstep

theorem sharedInv_adjust (hinv : SharedInv s)
    (hstep : sharedStep adjust s (.adjust i) = some s') : SharedInv s' := by
  simp only [sharedStep] at hstep
  split at hstep
  · rename_i p n a m hi
    obtain ⟨rfl, hbuf, k, hk, rfl⟩ := hinv.at hi
    split at hstep
    · cases hstep
      exact hinv.put trivial
    · rename_i p₂ hrun
      cases hstep
      exact hinv.put ⟨rfl, hbuf, k, rfl, resized_length hk hrun⟩
  · cases hstep

theorem sharedInv_copy (hinv : SharedInv s)
    (hstep : sharedStep adjust s (.copy i) = some s') : SharedInv s' := by
  simp only [sharedStep] at hstep
  split at hstep
  · rename_i p n a m hi
    obtain ⟨rfl, hbuf, k, rfl, hlen⟩ := hinv.at hi
    obtain ⟨p', hfin, hown⟩ := finishResponse_own hlen hbuf
    rw [hfin, Option.map_some] at hstep
    cases hstep
    exact hinv.put ⟨a, rfl, hown⟩
  · cases hstep

/-- Every step that mixes no records keeps the invariant. -/
theorem sharedInv_step {a : SharedAction} (hinv : SharedInv s) (hmix : NoMix s a)
    (hstep : sharedStep adjust s a = some s') : SharedInv s' := by
  cases a with
  | setRecords m =>
      cases hstep
      exact hinv
  | receive p =>
      cases hstep
      intro st hmem
      rcases List.mem_append.mp hmem with hmem | hmem
      · exact hinv st hmem
      · cases List.mem_singleton.mp hmem
        trivial
  | find i => exact sharedInv_find hinv hstep
  | create i => exact sharedInv_create hinv hmix hstep
  | adjust i => exact sharedInv_adjust hinv hstep
  | copy i => exact sharedInv_copy hinv hstep

end Steps

/-- In every run in which no `create` meets another record pending, every
frame sent back ends with the record its own query matched. -/
theorem shared_run_own_record (adjust : AdjustTail) (records : RecordMap) (buf : Buf 512)
    (tr : List SharedAction) (s : Shared)
    (hmix : Meets (sharedStep adjust) NoMix (Shared.init records buf) tr)
    (hrun : exec (sharedStep adjust) (Shared.init records buf) tr = some s) :
    ∀ p own, .done .tx p own ∈ s.stages → ∃ a, own = some a ∧ p.drop (p.length - 16) = answer a := by
  have hinit : SharedInv (Shared.init records buf) := by
    intro st hmem
    cases hmem
  have hinv : SharedInv s := exec_invariant_of NoMix
    (fun s a s' hs hok hstep => sharedInv_step hs hok hstep) tr hinit hmix hrun
  intro p own hmem
  exact hinv _ hmem

/-! ## An invocation alone -/

/-- The invocation a step belongs to. -/
def SharedAction.belongs (i : Nat) : SharedAction → Prop
  | .setRecords _ => False
  | .receive _ => False
  | .find j => j = i
  | .create j => j = i
  | .adjust j => j = i
  | .copy j => j = i

section Lone
variable {adjust : AdjustTail} {records : RecordMap} {buf : Buf 512} {l : List Stage}

theorem put_last (st st' : Stage) :
    (⟨records, buf, l ++ [st]⟩ : Shared).put l.length st' = ⟨records, buf, l ++ [st']⟩ := by
  simp [Shared.put]

theorem find_of_not_answers {p : List UInt8} (h : ∀ k a, ¬ Answers records p k a) :
    sharedStep adjust ⟨records, buf, l ++ [Stage.received p]⟩ (.find l.length)
      = some ⟨records, buf, l ++ [Stage.done .pass p none]⟩ := by
  rcases findQuestion_of_not_answers h with hfind | ⟨n, q, hfind, hnone⟩
  · simp only [sharedStep, List.getElem?_concat_length, hfind, Option.bind_some, put_last]
  · simp only [sharedStep, List.getElem?_concat_length, hfind, Option.bind_some, hnone, put_last]

theorem find_of_answers {p : List UInt8} {k : Nat} {a : ARecord} (h : Answers records p k a) :
    sharedStep adjust ⟨records, buf, l ++ [Stage.received p]⟩ (.find l.length)
      = some ⟨records, buf, l ++ [Stage.found (markedPacket p h.length_ge) (k + 5 : Nat) a]⟩ := by
  have hmatch : matchARecords records (questionKey p 54 k) = some a := h.2.2
  simp only [sharedStep, List.getElem?_concat_length, findQuestion_of_answers h, Option.bind_some,
    hmatch, modifyDnsHeaderResponse_eq h.length_ge, Option.map_some, put_last, Nat.cast_add,
    Nat.cast_ofNat]

theorem create_last (p : List UInt8) (n : Int) (a : ARecord) :
    sharedStep adjust ⟨records, buf, l ++ [Stage.found p n a]⟩ (.create l.length)
      = some ⟨records, answerBuffer a buf, l ++ [Stage.created p n a 16]⟩ := by
  simp only [sharedStep, List.getElem?_concat_length, createQueryResponse_eq, Option.map_some,
    put_last]

theorem adjust_of_not_resized {p : List UInt8} {k : Nat} {a : ARecord} (hp : 54 ≤ p.length)
    (h : adjust.run (markedPacket p hp) (tailAdjust p (k + 5 : Nat) 16) = none) :
    sharedStep adjust ⟨records, buf, l ++ [Stage.created (markedPacket p hp) (k + 5 : Nat) a 16]⟩
        (.adjust l.length)
      = some ⟨records, buf, l ++ [Stage.done .pass (markedPacket p hp) (some a)]⟩ := by
  simp only [sharedStep, List.getElem?_concat_length, tailAdjust_marked, h, put_last]

theorem adjust_of_resized {p p₂ : List UInt8} {k : Nat} {a : ARecord} (hp : 54 ≤ p.length)
    (h : adjust.run (markedPacket p hp) (tailAdjust p (k + 5 : Nat) 16) = some p₂) :
    sharedStep adjust ⟨records, buf, l ++ [Stage.created (markedPacket p hp) (k + 5 : Nat) a 16]⟩
        (.adjust l.length)
      = some ⟨records, buf, l ++ [Stage.resized p₂ (k + 5 : Nat) a 16]⟩ := by
  simp only [sharedStep, List.getElem?_concat_length, tailAdjust_marked, h, put_last]

theorem copy_last {p : List UInt8} {n : Int} {a : ARecord} {m : Nat}
    {c : XdpAction × List UInt8} (h : finishResponse p n buf m = some c) :
    sharedStep adjust ⟨records, buf, l ++ [Stage.resized p n a m]⟩ (.copy l.length)
      = some ⟨records, buf, l ++ [Stage.done c.1 c.2 (some a)]⟩ := by
  simp only [sharedStep, List.getElem?_concat_length, h, Option.map_some, put_last]

end Lone

/-- The steps of an invocation with no other in between are `xdpDns`. -/
theorem exec_lone (adjust : AdjustTail) (s : Shared) (p : List UInt8) :
    ∃ r tr s' own, xdpDns adjust s.records s.dnsBuffer p = some r ∧
      (∀ act ∈ tr, SharedAction.belongs s.stages.length act) ∧
      exec (sharedStep adjust) s (.receive p :: tr) = some s' ∧ s'.dnsBuffer = r.dnsBuffer ∧
      s'.stages = s.stages ++ [Stage.done r.action r.packet own] := by
  obtain ⟨records, buf, l⟩ := s
  have hreceive : sharedStep adjust ⟨records, buf, l⟩ (.receive p)
      = some ⟨records, buf, l ++ [Stage.received p]⟩ := rfl
  obtain ⟨r, hr, hend⟩ := xdpDns_ends adjust records buf p
  cases hend with
  | @sent k a p₂ hans hrun =>
      have hfin := xdpDns_of_answers adjust buf hans
      rw [hr, hrun] at hfin
      obtain ⟨c, hc, hreq⟩ := Option.map_eq_some_iff.mp hfin.symm
      refine ⟨_, [.find l.length, .create l.length, .adjust l.length, .copy l.length],
        ⟨records, answerBuffer a buf, l ++ [Stage.done c.1 c.2 (some a)]⟩, some a, hr,
        by simp [SharedAction.belongs], ?_, rfl, ?_⟩
      · rw [exec_step hreceive, exec_step (find_of_answers hans), exec_step (create_last _ _ _),
          exec_step (adjust_of_resized hans.length_ge hrun), exec_step (copy_last hc)]
        rfl
      · rw [← hreq]
  | @marked k a hans hrun =>
      refine ⟨_, [.find l.length, .create l.length, .adjust l.length],
        ⟨records, answerBuffer a buf, l ++ [Stage.done .pass (markedPacket p hans.length_ge) (some a)]⟩,
        some a, hr, by simp [SharedAction.belongs], ?_, rfl, rfl⟩
      rw [exec_step hreceive, exec_step (find_of_answers hans), exec_step (create_last _ _ _),
        exec_step (adjust_of_not_resized hans.length_ge hrun)]
      rfl
  | passed hno =>
      refine ⟨_, [.find l.length], ⟨records, buf, l ++ [Stage.done .pass p none]⟩, none,
        hr, by simp [SharedAction.belongs], ?_, rfl, rfl⟩
      rw [exec_step hreceive, exec_step (find_of_not_answers hno)]
      rfl

/-- The query for the name `b`. -/
def sampleQueryB : List UInt8 := sampleQuery.take 55 ++ [98] ++ sampleQuery.drop 56

/-- A map that binds `a` and `b` to different addresses. -/
def sampleRecordsAB : RecordMap where
  entries := [(⟨1, 1, padded 256 [1, 97]⟩, ⟨le32 192 0 2 1, 300⟩),
    (⟨1, 1, padded 256 [1, 98]⟩, ⟨le32 192 0 2 2, 60⟩)]
  nodup := by decide +kernel
  size_le := by simp

/-- Two queries for `a` overlap, one for `b` comes when they are done. -/
def overlappingRun : List SharedAction :=
  [.receive sampleQuery, .receive sampleQuery, .find 0, .find 1, .create 0, .create 1, .adjust 1,
    .copy 1, .adjust 0, .receive sampleQueryB, .find 2, .copy 0, .create 2, .adjust 2, .copy 2]

theorem shared_run_own_record_overlappingRun :
    Meets (sharedStep (kernelAdjustTail 1518 (by decide))) NoMix
      (Shared.init sampleRecordsAB (Buf.zero 512)) overlappingRun ∧
    ∃ s, exec (sharedStep (kernelAdjustTail 1518 (by decide)))
        (Shared.init sampleRecordsAB (Buf.zero 512)) overlappingRun = some s ∧
      s.stages.length = 3 ∧ ∀ p own, .done .tx p own ∈ s.stages →
        ∃ a, own = some a ∧ p.drop (p.length - 16) = answer a := by
  have hmix : Meets (sharedStep (kernelAdjustTail 1518 (by decide))) NoMix
      (Shared.init sampleRecordsAB (Buf.zero 512)) overlappingRun := by
    decide +kernel
  have hlen : ((exec (sharedStep (kernelAdjustTail 1518 (by decide)))
      (Shared.init sampleRecordsAB (Buf.zero 512)) overlappingRun).map
        fun s => s.stages.length) = some 3 := by
    decide +kernel
  obtain ⟨s, hrun, hs⟩ := Option.map_eq_some_iff.mp hlen
  exact ⟨hmix, s, hrun, hs, shared_run_own_record _ _ _ _ s hmix hrun⟩

/-- The end of an answer that was sent, and the answer that was looked up. -/
def sentAndOwn : Stage → Option (List UInt8 × List UInt8)
  | .done .tx p (some a) => some (p.drop (p.length - 16), answer a)
  | _ => none

theorem sentAndOwn_eq_some {st : Stage} {sent own : List UInt8} (h : sentAndOwn st = some (sent, own)) :
    ∃ p a, st = .done .tx p (some a) ∧ sent = p.drop (p.length - 16) ∧ own = answer a := by
  unfold sentAndOwn at h
  split at h
  · rename_i p a
    obtain ⟨hsent, hown⟩ := Prod.mk.inj (Option.some.inj h)
    exact ⟨p, a, rfl, hsent.symm, hown.symm⟩
  · cases h

/-- The query for `b` writes the buffer between the `create` and the `copy` of
the query for `a`, and the answer to `a` carries the address of `b`. -/
theorem shared_run_mixed :
    ¬ ∀ (adjust : AdjustTail) (records : RecordMap) (buf : Buf 512) (tr : List SharedAction)
      (s : Shared), exec (sharedStep adjust) (Shared.init records buf) tr = some s →
      ∀ p own, .done .tx p own ∈ s.stages →
        ∃ a, own = some a ∧ p.drop (p.length - 16) = answer a := by
  intro hall
  have hrun : ((exec (sharedStep (kernelAdjustTail 1518 (by decide)))
      (Shared.init sampleRecordsAB (Buf.zero 512))
      [.receive sampleQuery, .receive sampleQueryB, .find 0, .find 1, .create 0, .create 1,
        .adjust 0, .copy 0]).bind fun s => s.stages.head?.bind sentAndOwn)
        = some (answer ⟨le32 192 0 2 2, 60⟩, answer ⟨le32 192 0 2 1, 300⟩) := by
    decide +kernel
  obtain ⟨s, hexec, hread⟩ := Option.bind_eq_some_iff.mp hrun
  obtain ⟨st, hhead, hread⟩ := Option.bind_eq_some_iff.mp hread
  obtain ⟨p, a, rfl, hsent, hown⟩ := sentAndOwn_eq_some hread
  obtain ⟨b, hb, hdrop⟩ := hall _ _ _ _ s hexec p (some a) (List.mem_of_head? hhead)
  cases hb
  rw [← hsent, ← hown] at hdrop
  exact absurd hdrop (by decide)

end NetProbes.Dns
