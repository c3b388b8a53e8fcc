/-
# `NetProbes.PerfBuffer.Buffer` — the perf buffer of a CPU

Every CPU has `2^k` bytes of memory that it shares with user space, and two
positions that count bytes: `data_head` is the kernel's, `data_tail` the
reader's.  A record starts with 8 bytes of header that say how long it is:

    type    9 a sample, 2 how many samples were lost, or any other
    misc
    size    with the header; a multiple of 8

The kernel writes a record where there is room for it and drops it otherwise;
the reader takes the record at its own `tail`, in a copy if it comes to the end
of the memory.

What was written is a stream of bytes (`stream`), and its end is in the memory:
`CpuInv` says so for a reader that has handed over the first records, and every
access of either side keeps it.
-/
import NetProbes.RingBuffer.Ring

namespace NetProbes.PerfBuffer

open NetProbes.Lib
open NetProbes.RingBuffer (Size)

/-! ## Records -/

inductive Rec where
  | sample (misc : UInt16) (raw : List UInt8)
  | lost (misc : UInt16) (id count : UInt64) (more : List UInt8)
  | other (type : UInt32) (misc : UInt16) (body : List UInt8)

/-- `struct perf_event_header`. -/
def header (type : UInt32) (misc : UInt16) (size : Nat) : List UInt8 :=
  bytes32 type ++ bytes16 misc ++ bytes16 (UInt16.ofNat size)

/-- The record in memory. -/
def Rec.bytes : Rec → List UInt8
  | .sample misc raw =>
      header 9 misc (12 + raw.length) ++ (bytes32 (UInt32.ofNat raw.length) ++ raw)
  | .lost misc id count more =>
      header 2 misc (24 + more.length) ++ (bytes64 id ++ (bytes64 count ++ more))
  | .other type misc body => header type misc (8 + body.length) ++ body

/-- The type of a record that is neither a sample nor lost samples. -/
def Rec.otherType : Rec → Option UInt32
  | .other type _ _ => some type
  | _ => none

/-- What the kernel writes. -/
@[mk_iff] structure Rec.Valid (r : Rec) : Prop where
  aligned : r.bytes.length % 8 = 0
  lt : r.bytes.length < 65536
  other : r.otherType ≠ some 9 ∧ r.otherType ≠ some 2

instance (r : Rec) : Decidable r.Valid := decidable_of_iff _ (Rec.valid_iff r).symm

/-- What `perf_buffer__process_record` does: `sample_cb`, `lost_cb`, or a
warning. -/
inductive Callback where
  | sample (raw : List UInt8)
  | lost (count : UInt64)
  | unknown (type : UInt32)
  deriving DecidableEq

/-- `enum bpf_perf_event_ret`; there is no `LIBBPF_PERF_EVENT_DONE` here. -/
inductive EventRet where
  | error
  | cont
  deriving DecidableEq

/-- `perf_buffer__process_record`, without an `event_cb`. -/
def processRecord (e : List UInt8) : Callback × EventRet :=
  if u32At e 0 = 9 then (.sample (slice e 12 (u32At e 8).toNat), .cont)
  else if u32At e 0 = 2 then (.lost (u64At e 16), .cont)
  else (.unknown (u32At e 0), .error)

/-! ## The kernel's side -/

/-- The buffer of a CPU, the size of the memory for copies, and what the kernel
did: the records it wrote, the samples there was no room for, and how many of
these it has not said yet. -/
structure Cpu where
  data : Nat → UInt8
  dataHead : UInt64
  dataTail : UInt64
  copySize : Nat
  records : List Rec
  dropped : List (List UInt8)
  lost : UInt64

/-- All that was written to the buffer. -/
def stream (records : List Rec) : List UInt8 := records.flatMap Rec.bytes

/-- A record is written where there is room for it; one byte stays free. -/
def Cpu.place (n : Size) (c : Cpu) (r : Rec) : Option Cpu :=
  if (c.dataHead - c.dataTail).toNat + r.bytes.length < n.bytes then
    some { c with
      data := ringWrite n.bytes c.data (c.dataHead &&& n.mask).toNat r.bytes
      dataHead := c.dataHead + UInt64.ofNat r.bytes.length
      records := c.records ++ [r] }
  else none

/-- The kernel says how many samples were lost before it writes the next one. -/
inductive KernelAction where
  | sample (misc : UInt16) (raw : List UInt8)
  | drop (raw : List UInt8)
  | lost (misc : UInt16) (id : UInt64) (more : List UInt8)
  | other (type : UInt32) (misc : UInt16) (body : List UInt8)

def kernelStep (n : Size) (c : Cpu) : KernelAction → Option Cpu
  | .sample misc raw =>
      if c.lost = 0 ∧ (Rec.sample misc raw).Valid then c.place n (.sample misc raw) else none
  | .drop raw => some { c with dropped := c.dropped ++ [raw], lost := c.lost + 1 }
  | .lost misc id more =>
      if c.lost ≠ 0 ∧ (Rec.lost misc id c.lost more).Valid then
        (c.place n (.lost misc id c.lost more)).map fun c => { c with lost := 0 }
      else none
  | .other type misc body =>
      if (Rec.other type misc body).Valid then c.place n (.other type misc body) else none

/-- The records an action writes, when so many samples are lost. -/
def KernelAction.written (lost : UInt64) : KernelAction → List Rec
  | .sample misc raw => [.sample misc raw]
  | .drop _ => []
  | .lost misc id more => [.lost misc id lost more]
  | .other type misc body => [.other type misc body]

def KernelAction.dropped : KernelAction → List (List UInt8)
  | .drop raw => [raw]
  | _ => []

def Cpu.init (data : Nat → UInt8) : Cpu := ⟨data, 0, 0, 0, [], [], 0⟩

/-! ## The reader -/

inductive Fetched where
  | outside
  | noMemory
  | record (copySize : Nat) (ehdr : List UInt8)

/-- The record at `tail`.  It is `outside` if its header is not all in the
memory; `alloc` says whether `malloc` has memory for a copy. -/
def Cpu.fetch (n : Size) (c : Cpu) (tail : UInt64) (alloc : Bool) : Fetched :=
  let off := (tail &&& n.mask).toNat
  if n.bytes < off + 8 then .outside
  else
    let size := (u16At (lineRead c.data off 8) 6).toNat
    if n.bytes < off + size then
      if c.copySize < size ∧ alloc = false then .noMemory
      else
        let first := n.bytes - off
        .record (max c.copySize size) (lineRead c.data off first ++ lineRead c.data 0 (size - first))
    else .record c.copySize (lineRead c.data off size)

/-! ## A record in memory -/

/-- What is done with a record. -/
def Rec.callback : Rec → Callback
  | .sample _ raw => .sample raw
  | .lost _ _ count _ => .lost count
  | .other type _ _ => .unknown type

def Rec.ret : Rec → EventRet
  | .other _ _ _ => .error
  | _ => .cont

/-- How many samples the record says were lost. -/
def Rec.lostCount : Rec → UInt64
  | .lost _ _ count _ => count
  | _ => 0

section Records

variable {r : Rec} {records : List Rec} {k : Nat}

theorem header_length (type : UInt32) (misc : UInt16) (size : Nat) :
    (header type misc size).length = 8 := rfl

theorem Rec.bytes_length_ge (r : Rec) : 8 ≤ r.bytes.length := by
  cases r <;> simp only [Rec.bytes, List.length_append, header_length] <;> omega

/-- The header says the size. -/
theorem u16At_bytes (h : r.Valid) (more : List UInt8) :
    (u16At (r.bytes ++ more) 6).toNat = r.bytes.length := by
  have hsize : ∀ {type : UInt32} {misc : UInt16} {size : Nat} {body : List UInt8}, size < 65536 →
      (u16At (header type misc size ++ body ++ more) 6).toNat = size := by
    intro type misc size body hlt
    rw [header, List.append_assoc, List.append_assoc]
    have hat : u16At (bytes32 type ++ bytes16 misc ++
        (bytes16 (UInt16.ofNat size) ++ (body ++ more))) 6 = UInt16.ofNat size :=
      u16At_bytes16 (a := bytes32 type ++ bytes16 misc) _ rfl
    rw [hat, UInt16.toNat_ofNat', Nat.mod_eq_of_lt hlt]
  have hlt := h.lt
  cases r with
  | sample misc raw =>
      have hlen : (Rec.sample misc raw).bytes.length = 12 + raw.length := by
        simp only [Rec.bytes, List.length_append, header_length, bytes32_length]
        omega
      rw [hlen] at hlt ⊢
      exact hsize hlt
  | lost misc id count body =>
      have hlen : (Rec.lost misc id count body).bytes.length = 24 + body.length := by
        simp only [Rec.bytes, List.length_append, header_length, bytes64_length]
        omega
      rw [hlen] at hlt ⊢
      exact hsize hlt
  | other type misc body =>
      have hlen : (Rec.other type misc body).bytes.length = 8 + body.length := by
        simp only [Rec.bytes, List.length_append, header_length]
      rw [hlen] at hlt ⊢
      exact hsize hlt

/-- A record is told by its bytes. -/
theorem processRecord_bytes (h : r.Valid) : processRecord r.bytes = (r.callback, r.ret) := by
  have htype : ∀ {type : UInt32} {misc : UInt16} {size : Nat} {body : List UInt8},
      u32At (header type misc size ++ body) 0 = type := by
    intro type misc size body
    rw [header, List.append_assoc, List.append_assoc]
    exact u32At_bytes32 (a := []) type rfl
  cases r with
  | sample misc raw =>
      have hlt := h.lt
      simp only [Rec.bytes, List.length_append, header_length, bytes32_length] at hlt
      have hword : u32At (Rec.sample misc raw).bytes 8 = UInt32.ofNat raw.length :=
        u32At_bytes32 (a := header 9 misc (12 + raw.length)) _ rfl
      have hsize : (u32At (Rec.sample misc raw).bytes 8).toNat = raw.length := by
        rw [hword, UInt32.toNat_ofNat', Nat.mod_eq_of_lt (by omega)]
      have hraw : slice (Rec.sample misc raw).bytes 12 raw.length = raw := by
        rw [Rec.bytes, ← List.append_assoc, slice_append_right (by simp [header_length])]
        exact List.take_length
      have hnine : u32At (Rec.sample misc raw).bytes 0 = 9 := htype
      rw [processRecord, hsize, hraw, hnine]
      rfl
  | lost misc id count body =>
      have hcount : u64At (Rec.lost misc id count body).bytes 16 = count := by
        rw [Rec.bytes, ← List.append_assoc]
        exact u64At_bytes64 (a := header 2 misc (24 + body.length) ++ bytes64 id) count rfl
      have htwo : u32At (Rec.lost misc id count body).bytes 0 = 2 := htype
      rw [processRecord, hcount, htwo]
      rfl
  | other type misc body =>
      obtain ⟨hnine, htwo⟩ := h.other
      have hbody : u32At (Rec.other type misc body).bytes 0 = type := htype
      rw [processRecord, hbody, if_neg fun heq => hnine (congrArg some heq),
        if_neg fun heq => htwo (congrArg some heq)]
      rfl

/-- Where record `k` starts. -/
def startOf (records : List Rec) (k : Nat) : Nat := (stream (records.take k)).length

theorem stream_append (a b : List Rec) : stream (a ++ b) = stream a ++ stream b :=
  List.flatMap_append

theorem startOf_succ (h : records[k]? = some r) :
    startOf records (k + 1) = startOf records k + r.bytes.length := by
  simp only [startOf, List.take_add_one, h, stream_append, List.length_append]
  simp [stream]

theorem startOf_mono {j : Nat} (h : j ≤ k) : startOf records j ≤ startOf records k := by
  obtain ⟨d, rfl⟩ := Nat.exists_eq_add_of_le h
  simp only [startOf, List.take_add, stream_append, List.length_append]
  exact Nat.le_add_right _ _

theorem startOf_append (more : List Rec) (h : k ≤ records.length) :
    startOf (records ++ more) k = startOf records k := by
  rw [startOf, startOf, List.take_append_of_le_length h]

theorem startOf_length : startOf records records.length = (stream records).length := by
  rw [startOf, List.take_length]

theorem startOf_le (k : Nat) : startOf records k ≤ (stream records).length := by
  rw [← startOf_length]
  rcases Nat.le_total k records.length with h | h
  · exact startOf_mono h
  · rw [startOf, List.take_of_length_le h, startOf_length]

/-- Different records start at different places. -/
theorem startOf_lt {j : Nat} (h : j < k) (hk : k ≤ records.length) :
    startOf records j < startOf records k := by
  obtain ⟨r, hr⟩ : ∃ r, records[j]? = some r :=
    ⟨_, List.getElem?_eq_getElem (Nat.lt_of_lt_of_le h hk)⟩
  have hsucc := startOf_succ hr
  have hge := r.bytes_length_ge
  have hmono : startOf records (j + 1) ≤ startOf records k := startOf_mono h
  omega

/-- A record starts at a multiple of 8. -/
theorem startOf_mod (h : ∀ r ∈ records, r.Valid) (k : Nat) : startOf records k % 8 = 0 := by
  rw [startOf]
  have htake : ∀ r ∈ records.take k, r.Valid := fun r hr => h r (List.mem_of_mem_take hr)
  generalize records.take k = taken at htake
  induction taken with
  | nil => rfl
  | cons r taken ih =>
      have hr := (htake r List.mem_cons_self).aligned
      have hrest := ih fun r hr => htake r (List.mem_cons_of_mem _ hr)
      rw [stream, List.flatMap_cons, List.length_append, ← stream]
      omega

/-- The bytes of record `k` and of what is behind it. -/
theorem drop_startOf (h : records[k]? = some r) :
    (stream records).drop (startOf records k) = r.bytes ++ stream (records.drop (k + 1)) := by
  obtain ⟨hk, rfl⟩ := List.getElem?_eq_some_iff.mp h
  have hsplit : stream records = stream (records.take k) ++ stream (records.drop k) := by
    rw [← stream_append, List.take_append_drop]
  rw [startOf, hsplit, List.drop_left, List.drop_eq_getElem_cons hk]
  rfl

end Records

/-! ## One buffer -/

/-- What the reader has of a buffer while it is at it. -/
inductive Loc where
  | rest
  | reading (head tail : UInt64)
  | done (tail : UInt64)

/-- The buffer is to be read from `k` records on. -/
def Loc.At (records : List Rec) (k : Nat) : Loc → Prop
  | .rest => True
  | .reading head tail =>
      tail = UInt64.ofNat (startOf records k) ∧
        ∃ m, k ≤ m ∧ m ≤ records.length ∧ head = UInt64.ofNat (startOf records m)
  | .done tail => tail = UInt64.ofNat (startOf records k)

/-- What is not read yet is in the memory, what was handed over are the first
records, and the samples that were dropped are said to be lost, or will be. -/
structure CpuInv (n : Size) (loc : Loc) (handed : List Callback) (c : Cpu) : Prop where
  valid : ∀ r ∈ c.records, r.Valid
  first : handed = (c.records.take handed.length).map Rec.callback
  head : c.dataHead = UInt64.ofNat (stream c.records).length
  tail : ∃ t ≤ startOf c.records handed.length, c.dataTail = UInt64.ofNat t ∧
    HoldsStream n.bytes c.data (stream c.records) t ∧
    (stream c.records).length < t + n.bytes ∧
    (loc = .rest → t = startOf c.records handed.length)
  at_ : loc.At c.records handed.length
  dropped : UInt64.ofNat c.dropped.length = c.lost + (c.records.map Rec.lostCount).sum

section Cpus

variable {n : Size} {loc : Loc} {handed : List Callback} {c c' : Cpu} {r : Rec}

theorem cpuInv_init (n : Size) (data : Nat → UInt8) : CpuInv n .rest [] (Cpu.init data) where
  valid := nofun
  first := rfl
  head := rfl
  tail := ⟨0, Nat.le_refl _, rfl, holdsStream_nil, Nat.lt_add_of_pos_right n.bytes_pos,
    fun _ => rfl⟩
  at_ := trivial
  dropped := rfl

theorem CpuInv.handed_le (h : CpuInv n loc handed c) : handed.length ≤ c.records.length := by
  have hlen := congrArg List.length h.first
  rw [List.length_map, List.length_take] at hlen
  omega

/-- The distance between the positions, less than the memory. -/
theorem CpuInv.used (h : CpuInv n loc handed c) {t : Nat} (htail : c.dataTail = UInt64.ofNat t)
    (hle : t ≤ (stream c.records).length) (hroom : (stream c.records).length < t + n.bytes) :
    (c.dataHead - c.dataTail).toNat = (stream c.records).length - t := by
  have hbytes := n.bytes_le
  rw [h.head, htail, pos_sub_toNat hle (by omega)]

/-- A record that is written leaves what is there. -/
theorem cpuInv_place (h : CpuInv n loc handed c) (hr : r.Valid) (lost : UInt64)
    (hlost : c.lost = lost + r.lostCount) (hplace : c.place n r = some c') :
    CpuInv n loc handed { c' with lost := lost } := by
  obtain ⟨t, hle, htail, hholds, hroom, hrest⟩ := h.tail
  simp only [Cpu.place, h.used htail hholds.le hroom] at hplace
  split at hplace
  · rename_i hfits
    obtain rfl := Option.some.inj hplace
    have hlen := hholds.le
    have hstream : stream (c.records ++ [r]) = stream c.records ++ r.bytes := by
      rw [stream_append]
      simp [stream]
    have hk := h.handed_le
    have hstart : startOf (c.records ++ [r]) handed.length = startOf c.records handed.length :=
      startOf_append [r] hk
    refine ⟨?_, ?_, ?_, ⟨t, ?_, htail, ?_, ?_, ?_⟩, ?_, ?_⟩
    · intro q hq
      rcases List.mem_append.mp hq with hq | hq
      · exact h.valid q hq
      · rw [List.mem_singleton.mp hq]
        exact hr
    · rw [List.take_append_of_le_length hk]
      exact h.first
    · rw [hstream, List.length_append, ← pos_add, h.head]
    · rw [hstart]
      exact hle
    · rw [hstream, h.head, Size.mask, mask_toNat n.log_lt]
      have happend : HoldsStream n.bytes (ringWrite n.bytes c.data (stream c.records).length r.bytes)
          (stream c.records ++ r.bytes) t := hholds.append (by omega)
      rw [← ringWrite_mod] at happend
      exact happend
    · rw [hstream, List.length_append]
      omega
    · rw [hstart]
      exact hrest
    · have hat := h.at_
      cases loc with
      | rest => trivial
      | reading head tail =>
          obtain ⟨htail', m, hm, hmlen, hhead⟩ := hat
          refine ⟨by rw [hstart]; exact htail', m, hm, ?_, ?_⟩
          · rw [List.length_append]
            exact Nat.le_add_right_of_le hmlen
          · rw [startOf_append [r] hmlen]
            exact hhead
      | done tail =>
          have htail' : tail = UInt64.ofNat (startOf c.records handed.length) := hat
          show tail = UInt64.ofNat _
          rw [hstart]
          exact htail'
    · rw [List.map_append, List.sum_append, h.dropped, hlost, List.map_singleton,
        List.sum_singleton]
      ac_rfl
  · cases hplace

theorem place_cases (h : c.place n r = some c') :
    c'.records = c.records ++ [r] ∧ c'.dropped = c.dropped ∧ c'.lost = c.lost := by
  simp only [Cpu.place] at h
  split at h
  · obtain rfl := Option.some.inj h
    exact ⟨rfl, rfl, rfl⟩
  · cases h

/-- What the kernel adds to its records, and to the samples it has dropped. -/
theorem kernelStep_cases {a : KernelAction} (h : kernelStep n c a = some c') :
    c'.records = c.records ++ a.written c.lost ∧ c'.dropped = c.dropped ++ a.dropped := by
  cases a with
  | sample misc raw =>
      simp only [kernelStep] at h
      split at h
      · obtain ⟨hrecords, hdropped, -⟩ := place_cases h
        exact ⟨hrecords, hdropped.trans (List.append_nil _).symm⟩
      · cases h
  | drop raw =>
      obtain rfl := Option.some.inj h
      exact ⟨(List.append_nil _).symm, rfl⟩
  | lost misc id more =>
      simp only [kernelStep] at h
      split at h
      · obtain ⟨c₁, hplace, rfl⟩ := Option.map_eq_some_iff.mp h
        obtain ⟨hrecords, hdropped, -⟩ := place_cases hplace
        exact ⟨hrecords, hdropped.trans (List.append_nil _).symm⟩
      · cases h
  | other type misc body =>
      simp only [kernelStep] at h
      split at h
      · obtain ⟨hrecords, hdropped, -⟩ := place_cases h
        exact ⟨hrecords, hdropped.trans (List.append_nil _).symm⟩
      · cases h

theorem cpuInv_kernelStep {a : KernelAction} (h : CpuInv n loc handed c)
    (hstep : kernelStep n c a = some c') : CpuInv n loc handed c' := by
  cases a with
  | sample misc raw =>
      simp only [kernelStep] at hstep
      split at hstep
      · rename_i hok
        obtain ⟨hlost, hvalid⟩ := hok
        have hsame := cpuInv_place h hvalid c.lost (UInt64.add_zero c.lost).symm hstep
        rwa [← (place_cases hstep).2.2] at hsame
      · cases hstep
  | drop raw =>
      obtain rfl := Option.some.inj hstep
      refine ⟨h.valid, h.first, h.head, h.tail, h.at_, ?_⟩
      show UInt64.ofNat (c.dropped ++ [raw]).length
        = c.lost + 1 + (c.records.map Rec.lostCount).sum
      rw [List.length_append, List.length_singleton, ← pos_add, h.dropped]
      exact add_right_comm _ _ _
  | lost misc id more =>
      simp only [kernelStep] at hstep
      split at hstep
      · rename_i hok
        obtain ⟨c₁, hplace, rfl⟩ := Option.map_eq_some_iff.mp hstep
        exact cpuInv_place h hok.2 0 (UInt64.zero_add c.lost).symm hplace
      · cases hstep
  | other type misc body =>
      simp only [kernelStep] at hstep
      split at hstep
      · rename_i hvalid
        have hsame := cpuInv_place h hvalid c.lost (UInt64.add_zero c.lost).symm hstep
        rwa [← (place_cases hstep).2.2] at hsame
      · cases hstep

/-- `data_head` and `data_tail` are loaded. -/
theorem cpuInv_open (h : CpuInv n .rest handed c) :
    CpuInv n (.reading c.dataHead c.dataTail) handed c := by
  obtain ⟨t, hle, htail, hholds, hroom, hrest⟩ := h.tail
  refine ⟨h.valid, h.first, h.head, ⟨t, hle, htail, hholds, hroom, nofun⟩, ⟨?_, ?_⟩, h.dropped⟩
  · rw [htail, hrest rfl]
  · exact ⟨c.records.length, h.handed_le, Nat.le_refl _, by rw [startOf_length]; exact h.head⟩

/-- The positions are the same exactly when all records up to `m` are handed
over. -/
theorem CpuInv.head_eq_tail_iff (h : CpuInv n loc handed c) {m : Nat} (hk : handed.length ≤ m)
    (hm : m ≤ c.records.length) :
    UInt64.ofNat (startOf c.records m) = UInt64.ofNat (startOf c.records handed.length) ↔
      m = handed.length := by
  constructor
  · intro heq
    by_contra hne
    have hlt := startOf_lt (show handed.length < m by omega) hm
    obtain ⟨t, hle, -, -, hroom, -⟩ := h.tail
    have hbound : startOf c.records m ≤ (stream c.records).length := startOf_le m
    have hbytes := n.bytes_le
    have hsub := pos_sub_toNat hlt.le (show _ - _ < 2 ^ 64 by omega)
    rw [heq, UInt64.sub_self] at hsub
    have hzero : (0 : UInt64).toNat = 0 := rfl
    omega
  · rintro rfl
    rfl

/-- The loop ends where all records are handed over. -/
theorem CpuInv.reading_eq_iff {head tail : UInt64} (h : CpuInv n (.reading head tail) handed c)
    (hhead : head = UInt64.ofNat (startOf c.records c.records.length)) :
    head = tail ↔ c.records.length = handed.length := by
  rw [h.at_.1, hhead]
  exact h.head_eq_tail_iff h.handed_le (Nat.le_refl _)

/-- The next record is fetched as it was written, if there is memory. -/
theorem CpuInv.fetch_eq (h : CpuInv n loc handed c) (hr : c.records[handed.length]? = some r)
    (alloc : Bool) :
    (∃ copySize, c.fetch n (UInt64.ofNat (startOf c.records handed.length)) alloc
        = .record copySize r.bytes) ∨
      alloc = false ∧
        c.fetch n (UInt64.ofNat (startOf c.records handed.length)) alloc = .noMemory := by
  obtain ⟨t, hle, -, hholds, hroom, -⟩ := h.tail
  have hvalid := h.valid r (List.mem_of_getElem? hr)
  have hge := r.bytes_length_ge
  have hpos := n.bytes_pos
  have hmod : startOf c.records handed.length % 8 = 0 := startOf_mod h.valid _
  have hnext : startOf c.records handed.length + r.bytes.length ≤ (stream c.records).length := by
    rw [← startOf_succ hr]
    exact startOf_le _
  have hin := hholds.le
  have hall : ringRead n.bytes c.data (startOf c.records handed.length) r.bytes.length = r.bytes := by
    rw [hholds.read hle hnext, drop_startOf hr, List.take_left]
  have hoff : (UInt64.ofNat (startOf c.records handed.length) &&& n.mask).toNat
      = startOf c.records handed.length % n.bytes := mask_toNat n.log_lt _
  have hlt := Nat.mod_lt (startOf c.records handed.length) hpos
  -- a header never comes to the end of the memory, because both are multiples of 8
  have height : startOf c.records handed.length % n.bytes % 8 = 0 ∧ n.bytes % 8 = 0 := by
    have hdvd : 8 ∣ n.bytes := Nat.pow_dvd_pow 2 (show 3 ≤ n.log from Nat.le_trans (by decide) n.page_le)
    exact ⟨(Nat.mod_mod_of_dvd _ hdvd).trans hmod, Nat.mod_eq_zero_of_dvd hdvd⟩
  have hhead : startOf c.records handed.length % n.bytes + 8 ≤ n.bytes := by omega
  have hsize : (u16At (lineRead c.data (startOf c.records handed.length % n.bytes) 8) 6).toNat
      = r.bytes.length := by
    have hfirst : ringRead n.bytes c.data (startOf c.records handed.length) 8
        = lineRead c.data (startOf c.records handed.length % n.bytes) 8 := by
      rw [ringRead_wrap hpos (by omega), if_pos hhead]
    rw [hholds.read hle (by omega), drop_startOf hr,
      List.take_append_of_le_length hge] at hfirst
    rw [← hfirst, ← u16At_bytes hvalid []]
    congr 1
    rw [List.append_nil, u16At, u16At, byteAt, byteAt, byteAt, byteAt]
    simp only [List.getD_eq_getElem?_getD, List.getElem?_take_of_lt (show 6 < 8 by decide),
      List.getElem?_take_of_lt (show 6 + 1 < 8 by decide)]
  have hwrap := hall.symm
  rw [ringRead_wrap hpos (by omega)] at hwrap
  simp only [Cpu.fetch, hoff, hsize, if_neg (Nat.not_lt.mpr hhead)]
  by_cases hcomes : n.bytes < startOf c.records handed.length % n.bytes + r.bytes.length
  · rw [if_neg (Nat.not_le.mpr hcomes)] at hwrap
    rw [if_pos hcomes]
    split
    · rename_i hno
      exact Or.inr ⟨hno.2, rfl⟩
    · exact Or.inl ⟨_, by rw [← hwrap]⟩
  · rw [if_pos (Nat.not_lt.mp hcomes)] at hwrap
    rw [if_neg hcomes]
    exact Or.inl ⟨_, by rw [← hwrap]⟩

/-- A record is handed over. -/
theorem cpuInv_record {head tail : UInt64} (h : CpuInv n (.reading head tail) handed c)
    (hne : head ≠ tail) :
    ∃ r, c.records[handed.length]? = some r ∧
      ∀ copySize, CpuInv n (.reading head (tail + UInt64.ofNat r.bytes.length))
        (handed ++ [r.callback]) { c with copySize := copySize } := by
  obtain ⟨htail, m, hk, hm, hhead⟩ := h.at_
  have hlt : handed.length < m := by
    refine Nat.lt_of_le_of_ne hk fun heq => hne ?_
    rw [hhead, htail, heq]
  obtain ⟨r, hr⟩ : ∃ r, c.records[handed.length]? = some r :=
    ⟨_, List.getElem?_eq_getElem (Nat.lt_of_lt_of_le hlt hm)⟩
  obtain ⟨t, hle, hpos, hholds, hroom, -⟩ := h.tail
  have hlen : (handed ++ [r.callback]).length = handed.length + 1 := by
    rw [List.length_append, List.length_singleton]
  refine ⟨r, hr, fun copySize => ⟨h.valid, ?_, h.head, ⟨t, ?_, hpos, hholds, hroom, nofun⟩,
    ⟨?_, m, ?_, hm, hhead⟩, h.dropped⟩⟩
  · rw [hlen, List.take_add_one, hr, List.map_append, ← h.first]
    rfl
  · rw [hlen]
    exact Nat.le_trans hle (startOf_mono (Nat.le_succ _))
  · rw [hlen, startOf_succ hr, ← pos_add, htail]
  · rw [hlen]
    exact hlt

/-- The loop ends, whatever the reason. -/
theorem cpuInv_finish {head tail : UInt64} (h : CpuInv n (.reading head tail) handed c)
    (copySize : Nat) : CpuInv n (.done tail) handed { c with copySize := copySize } := by
  obtain ⟨t, hle, htail, hholds, hroom, -⟩ := h.tail
  exact ⟨h.valid, h.first, h.head, ⟨t, hle, htail, hholds, hroom, nofun⟩, h.at_.1, h.dropped⟩

/-- `data_tail` is stored. -/
theorem cpuInv_close {tail : UInt64} (h : CpuInv n (.done tail) handed c) :
    CpuInv n .rest handed { c with dataTail := tail } := by
  obtain ⟨t, hle, -, hholds, hroom, -⟩ := h.tail
  refine ⟨h.valid, h.first, h.head, ⟨_, Nat.le_refl _, h.at_, ?_, ?_, fun _ => rfl⟩, trivial,
    h.dropped⟩
  · exact hholds.advance hle (startOf_le _)
  · exact Nat.lt_of_lt_of_le hroom (Nat.add_le_add_right hle _)

end Cpus

end NetProbes.PerfBuffer
