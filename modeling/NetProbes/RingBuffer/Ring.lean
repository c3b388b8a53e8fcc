/-
# `NetProbes.RingBuffer.Ring` — the memory of a ring buffer

Probes hand their records to user space through memory that both sides map: a
page with the consumer's position, a page with the producer's, and `2^k` bytes
of data, mapped twice one behind the other.  Positions count bytes and wrap at
2^64; a position is masked to find its byte.

A record is 8 bytes of header and the sample, rounded up to 8 bytes:

    len     the length of the sample; bit 31 while it is busy, bit 30 if it
            was discarded
    pg_off  for the kernel
    sample

The kernel's side is what the readers rely on: a reservation appends a busy
record while less than the whole ring is in use, a program fills its sample,
and submitting or discarding changes the header and nothing else.
`Laid` says where the records are from the consumer's position on, and every
step of the kernel's side keeps it.
-/
import NetProbes.Lib.Bytes
import NetProbes.Lib.Circular
import NetProbes.Lib.RecordQueue

namespace NetProbes.RingBuffer

open NetProbes.Lib

/-! ## The ring -/

/-- The size of the data: a power of two, at least a page. -/
structure Size where
  log : Nat
  page_le : 12 ≤ log
  le_max : log ≤ 31

def Size.bytes (n : Size) : Nat := 2 ^ n.log

def Size.mask (n : Size) : UInt64 := UInt64.ofNat (2 ^ n.log - 1)

def page : Size := ⟨12, by decide, by decide⟩

/-- The pages that are shared. -/
structure Ring where
  data : Nat → UInt8
  consumerPos : UInt64
  producerPos : UInt64

/-- The `m` bytes from a position on. -/
def Ring.bytesAt (n : Size) (r : Ring) (pos : UInt64) (m : Nat) : List UInt8 :=
  ringRead n.bytes r.data (pos &&& n.mask).toNat m

/-- Bytes written from a position on. -/
def Ring.put (n : Size) (r : Ring) (pos : UInt64) (bs : List UInt8) : Ring :=
  { r with data := ringWrite n.bytes r.data (pos &&& n.mask).toNat bs }

/-! ## Headers -/

/-- `BPF_RINGBUF_BUSY_BIT`. -/
def busyBit : UInt32 := 0x80000000

/-- `BPF_RINGBUF_DISCARD_BIT`. -/
def discardBit : UInt32 := 0x40000000

/-- The bytes of a record: header and sample, up to a multiple of 8. -/
def totalLen (len : Nat) : Nat := (len + 8 + 7) / 8 * 8

/-- The word `len` of a header. -/
def headerWord (len : Nat) : Entry (List UInt8) → UInt32
  | .busy => UInt32.ofNat len ||| busyBit
  | .submitted _ => UInt32.ofNat len
  | .discarded => UInt32.ofNat len ||| discardBit

/-! ## The bits of a header -/

theorem word_ext {x y : UInt32} (h : ∀ j, x.toNat.testBit j = y.toNat.testBit j) : x = y :=
  UInt32.toNat_inj.mp (Nat.eq_of_testBit_eq h)

theorem testBit_busyBit (j : Nat) : busyBit.toNat.testBit j = decide (31 = j) := by
  have hbit : busyBit.toNat = 2 ^ 31 := rfl
  rw [hbit, Nat.testBit_two_pow]

theorem testBit_discardBit (j : Nat) : discardBit.toNat.testBit j = decide (30 = j) := by
  have hbit : discardBit.toNat = 2 ^ 30 := rfl
  rw [hbit, Nat.testBit_two_pow]

section Word

variable {x : UInt32}

theorem testBit_of_le (hx : x.toNat < 2 ^ 30) {j : Nat} (hj : 30 ≤ j) : x.toNat.testBit j = false :=
  Nat.testBit_lt_two_pow (Nat.lt_of_lt_of_le hx (Nat.pow_le_pow_right (by decide) hj))

/-- A length has neither bit. -/
theorem and_busyBit (hx : x.toNat < 2 ^ 30) : x &&& busyBit = 0 := by
  refine word_ext fun j => ?_
  rw [UInt32.toNat_and, Nat.testBit_and, testBit_busyBit]
  by_cases hj : 31 = j
  · subst hj
    rw [testBit_of_le hx (by decide)]
    rfl
  · simp [hj]

theorem and_discardBit (hx : x.toNat < 2 ^ 30) : x &&& discardBit = 0 := by
  refine word_ext fun j => ?_
  rw [UInt32.toNat_and, Nat.testBit_and, testBit_discardBit]
  by_cases hj : 30 = j
  · subst hj
    rw [testBit_of_le hx (by decide)]
    rfl
  · simp [hj]

theorem or_and_self (b : UInt32) : (x ||| b) &&& b = b := by
  refine word_ext fun j => ?_
  rw [UInt32.toNat_and, UInt32.toNat_or, Nat.testBit_and, Nat.testBit_or]
  cases x.toNat.testBit j <;> cases b.toNat.testBit j <;> rfl

/-- Taking the busy bit off a busy header leaves the length. -/
theorem or_xor_busyBit (hx : x.toNat < 2 ^ 30) : (x ||| busyBit) ^^^ busyBit = x := by
  refine word_ext fun j => ?_
  rw [UInt32.toNat_xor, UInt32.toNat_or, Nat.testBit_xor, Nat.testBit_or, testBit_busyBit]
  by_cases hj : 31 = j
  · subst hj
    rw [testBit_of_le hx (by decide)]
    rfl
  · simp [hj]

theorem or_discardBit_and_busyBit (hx : x.toNat < 2 ^ 30) : (x ||| discardBit) &&& busyBit = 0 := by
  refine word_ext fun j => ?_
  rw [UInt32.toNat_and, UInt32.toNat_or, Nat.testBit_and, Nat.testBit_or, testBit_busyBit,
    testBit_discardBit]
  by_cases hj : 31 = j
  · subst hj
    rw [testBit_of_le hx (by decide)]
    rfl
  · simp [hj]

/-- Without both bits the length is left. -/
theorem toNat_and_low (x : UInt32) :
    (x &&& ~~~(busyBit ||| discardBit)).toNat = x.toNat % 2 ^ 30 := by
  rw [UInt32.toNat_and]
  exact Nat.and_two_pow_sub_one_eq_mod x.toNat 30

theorem toNat_or_discardBit (hx : x.toNat < 2 ^ 30) :
    (x ||| discardBit).toNat % 2 ^ 30 = x.toNat := by
  apply Nat.eq_of_testBit_eq
  intro j
  rw [Nat.testBit_mod_two_pow, UInt32.toNat_or, Nat.testBit_or, testBit_discardBit]
  by_cases hj : j < 30
  · have hne : ¬ 30 = j := by omega
    simp [hj, hne]
  · rw [testBit_of_le hx (by omega)]
    simp [hj]

end Word

/-! ## The kernel's side -/

/-- A reserved record: the pointer, the length asked for, what its program has
in the sample, and what became of it. -/
structure Record where
  pos : UInt64
  len : Nat
  sample : List UInt8
  entry : Entry (List UInt8)

/-- The ring, and the records reserved so far. -/
structure Kernel where
  ring : Ring
  records : List Record

/-- `bpf_ringbuf_reserve`: not more than a quarter of 2^32 bytes, and never so
many that the whole ring would be in use. -/
def Kernel.reserve (n : Size) (k : Kernel) (len : Nat) (pgOff : UInt32) : Option Kernel :=
  if len ≤ 0x3fffffff ∧ totalLen len ≤ n.bytes then
    let next := k.ring.producerPos + UInt64.ofNat (totalLen len)
    if next - k.ring.consumerPos ≤ n.mask then
      some {
        ring := { k.ring.put n k.ring.producerPos
            (bytes32 (UInt32.ofNat len ||| busyBit) ++ bytes32 pgOff) with producerPos := next }
        records := k.records ++ [⟨k.ring.producerPos, len,
          k.ring.bytesAt n (k.ring.producerPos + 8) len, .busy⟩] }
    else none
  else none

/-- A program writes into the sample it has reserved. -/
def Kernel.write (n : Size) (k : Kernel) (i off : Nat) (bs : List UInt8) : Option Kernel :=
  match k.records[i]? with
  | some ⟨pos, len, sample, .busy⟩ =>
      if off + bs.length ≤ len then
        some {
          ring := k.ring.put n (pos + 8 + UInt64.ofNat off) bs
          records := k.records.set i ⟨pos, len, overwrite sample off bs, .busy⟩ }
      else none
  | _ => none

/-- `bpf_ringbuf_submit` and `bpf_ringbuf_discard`: the header loses its busy
bit, and gets the other if the record is discarded.  What is submitted is what
its program has put there. -/
def Kernel.commit (n : Size) (k : Kernel) (i : Nat) (discard : Bool) : Option Kernel :=
  match k.records[i]? with
  | some ⟨pos, len, sample, .busy⟩ =>
      let word := u32At (k.ring.bytesAt n pos 4) 0 ^^^ busyBit
      let word := if discard then word ||| discardBit else word
      let entry := if discard then .discarded else .submitted sample
      some {
        ring := k.ring.put n pos (bytes32 word)
        records := k.records.set i ⟨pos, len, sample, entry⟩ }
  | _ => none

inductive KernelAction where
  | reserve (len : Nat) (pgOff : UInt32)
  | write (i off : Nat) (bs : List UInt8)
  | commit (i : Nat) (discard : Bool)

def kernelStep (n : Size) (k : Kernel) : KernelAction → Option Kernel
  | .reserve len pgOff => k.reserve n len pgOff
  | .write i off bs => k.write n i off bs
  | .commit i discard => k.commit n i discard

/-- Nothing reserved; the memory holds anything. -/
def Kernel.init (data : Nat → UInt8) : Kernel := ⟨⟨data, 0, 0⟩, []⟩

/-! ## Where the records are -/

/-- The position of record `i`, from the lengths. -/
def startOf (lens : List Nat) (i : Nat) : Nat := ((lens.take i).map totalLen).sum

def Kernel.lens (k : Kernel) : List Nat := k.records.map Record.len

theorem startOf_succ {lens : List Nat} {i len : Nat} (h : lens[i]? = some len) :
    startOf lens (i + 1) = startOf lens i + totalLen len := by
  simp [startOf, List.take_add_one, h]

theorem startOf_mono {lens : List Nat} {i j : Nat} (h : i ≤ j) : startOf lens i ≤ startOf lens j := by
  obtain ⟨d, rfl⟩ := Nat.exists_eq_add_of_le h
  simp [startOf, List.take_add]

theorem startOf_append {lens : List Nat} {i : Nat} (len : Nat) (h : i ≤ lens.length) :
    startOf (lens ++ [len]) i = startOf lens i := by
  rw [startOf, startOf, List.take_append_of_le_length h]

theorem totalLen_ge (len : Nat) : len + 8 ≤ totalLen len := by
  simp only [totalLen]
  omega

section Positions

variable {n : Size} {p : Nat}

theorem Size.bytes_pos (n : Size) : 0 < n.bytes := Nat.two_pow_pos n.log

theorem Size.bytes_le (n : Size) : n.bytes ≤ 2147483648 :=
  Nat.pow_le_pow_right (by decide) n.le_max

theorem Size.log_lt (n : Size) : n.log < 64 := Nat.lt_of_le_of_lt n.le_max (by decide)

theorem Size.mask_toNat (n : Size) : n.mask.toNat = n.bytes - 1 := by
  have hle := n.bytes_le
  simp only [Size.bytes] at hle
  rw [Size.mask, UInt64.toNat_ofNat', Size.bytes]
  omega

theorem bytesAt_eq (r : Ring) (p m : Nat) :
    r.bytesAt n (UInt64.ofNat p) m = ringRead n.bytes r.data p m := by
  rw [Ring.bytesAt, Size.mask, Lib.mask_toNat n.log_lt]
  exact ringRead_mod

theorem put_eq (r : Ring) (p : Nat) (bs : List UInt8) :
    r.put n (UInt64.ofNat p) bs = { r with data := ringWrite n.bytes r.data p bs } := by
  rw [Ring.put, Size.mask, Lib.mask_toNat n.log_lt]
  exact congrArg (fun d => { r with data := d }) ringWrite_mod

end Positions

/-- The records from `read` on are in the ring, each with its header and its
sample; the consumer is at record `read`. -/
structure Laid (n : Size) (k : Kernel) (read : Nat) : Prop where
  read_le : read ≤ k.records.length
  finished : ∀ i r, i < read → k.records[i]? = some r → r.entry.finished = true
  produced : k.ring.producerPos = UInt64.ofNat (startOf k.lens k.records.length)
  consumed : k.ring.consumerPos = UInt64.ofNat (startOf k.lens read)
  room : startOf k.lens k.records.length < startOf k.lens read + n.bytes
  small : ∀ r ∈ k.records, r.len < 2 ^ 30
  place : ∀ i r, k.records[i]? = some r → r.pos = UInt64.ofNat (startOf k.lens i)
  header : ∀ i r, read ≤ i → k.records[i]? = some r →
    ringRead n.bytes k.ring.data (startOf k.lens i) 4 = bytes32 (headerWord r.len r.entry)
  sample : ∀ i r, read ≤ i → k.records[i]? = some r →
    ringRead n.bytes k.ring.data (startOf k.lens i + 8) r.len = r.sample
  submitted : ∀ r ∈ k.records, ∀ bs, r.entry = .submitted bs → bs = r.sample

theorem laid_init (n : Size) (data : Nat → UInt8) : Laid n (Kernel.init data) 0 where
  read_le := Nat.le_refl _
  finished := fun _ _ h => absurd h (Nat.not_lt_zero _)
  produced := rfl
  consumed := rfl
  room := Nat.lt_add_of_pos_right n.bytes_pos
  small := fun _ h => absurd h List.not_mem_nil
  place := fun _ _ h => by cases h
  header := fun _ _ _ h => by cases h
  sample := fun _ _ _ h => by cases h
  submitted := fun _ h => absurd h List.not_mem_nil

section Steps

variable {n : Size} {k k' : Kernel} {read i j : Nat} {r : Record}

theorem lens_getElem? (h : k.records[i]? = some r) : k.lens[i]? = some r.len := by
  rw [Kernel.lens, List.getElem?_map, h]
  rfl

/-- What became of a record does not move the others. -/
theorem lens_set (h : k.records[i]? = some r) {r' : Record} (hlen : r'.len = r.len) :
    (k.records.set i r').map Record.len = k.lens := by
  rw [List.map_set, Kernel.lens, hlen]
  obtain ⟨hlen, hget⟩ := List.getElem?_eq_some_iff.mp (lens_getElem? h)
  exact (congrArg _ hget.symm).trans (List.set_getElem_self hlen)

theorem start_succ (h : k.records[i]? = some r) :
    startOf k.lens (i + 1) = startOf k.lens i + totalLen r.len :=
  startOf_succ (lens_getElem? h)

/-- A record lies between the consumer and the producer, less than the ring
apart. -/
theorem start_bounds (hr : k.records[i]? = some r) (hi : read ≤ i) :
    startOf k.lens read ≤ startOf k.lens i ∧
      startOf k.lens i + totalLen r.len ≤ startOf k.lens k.records.length := by
  refine ⟨startOf_mono hi, ?_⟩
  rw [← start_succ hr]
  exact startOf_mono (List.getElem?_eq_some_iff.mp hr).1

/-- What is written inside one record is not seen inside another. -/
theorem Laid.read_other (h : Laid n k read) {r' : Record} (hr : k.records[i]? = some r)
    (hr' : k.records[j]? = some r') (hi : read ≤ i) (hj : read ≤ j) (hne : i ≠ j) {a b m : Nat}
    {bs : List UInt8} (ha : a + bs.length ≤ totalLen r.len) (hb : b + m ≤ totalLen r'.len) :
    ringRead n.bytes (ringWrite n.bytes k.ring.data (startOf k.lens i + a) bs)
      (startOf k.lens j + b) m = ringRead n.bytes k.ring.data (startOf k.lens j + b) m := by
  obtain ⟨hlow, hhigh⟩ := start_bounds hr hi
  obtain ⟨hlow', hhigh'⟩ := start_bounds hr' hj
  have hroom := h.room
  apply ringRead_ringWrite_of_disjoint
  rcases Nat.lt_or_gt_of_ne hne with hlt | hgt
  · left
    have hstart := start_succ hr
    have hmono : startOf k.lens (i + 1) ≤ startOf k.lens j := startOf_mono hlt
    omega
  · right
    have hstart := start_succ hr'
    have hmono : startOf k.lens (j + 1) ≤ startOf k.lens i := startOf_mono hgt
    omega

/-- A busy record is not read yet. -/
theorem Laid.read_le_of_busy (h : Laid n k read) (hr : k.records[i]? = some r)
    (hbusy : r.entry = .busy) : read ≤ i := by
  by_contra hlt
  have hfin := h.finished i r (by omega) hr
  rw [hbusy] at hfin
  cases hfin

/-- A write inside record `i` that leaves it with a right header and sample. -/
theorem Laid.change (h : Laid n k read) (hr : k.records[i]? = some r) (hi : read ≤ i) (r' : Record)
    (hpos : r'.pos = r.pos) (hlen : r'.len = r.len) {a : Nat} {bs : List UInt8}
    (ha : a + bs.length ≤ totalLen r.len)
    (hhead : ringRead n.bytes (ringWrite n.bytes k.ring.data (startOf k.lens i + a) bs)
      (startOf k.lens i) 4 = bytes32 (headerWord r'.len r'.entry))
    (hsample : ringRead n.bytes (ringWrite n.bytes k.ring.data (startOf k.lens i + a) bs)
      (startOf k.lens i + 8) r'.len = r'.sample)
    (hsub : ∀ b, r'.entry = .submitted b → b = r'.sample) :
    Laid n ⟨{ k.ring with data := ringWrite n.bytes k.ring.data (startOf k.lens i + a) bs },
      k.records.set i r'⟩ read := by
  have hlt := (List.getElem?_eq_some_iff.mp hr).1
  have hlens := lens_set hr hlen
  have hcases : ∀ {j q}, (k.records.set i r')[j]? = some q →
      (i = j ∧ q = r') ∨ (i ≠ j ∧ k.records[j]? = some q) := by
    intro j q hj
    by_cases hij : i = j
    · subst hij
      rw [List.getElem?_set_self hlt] at hj
      exact Or.inl ⟨rfl, (Option.some.inj hj).symm⟩
    · rw [List.getElem?_set_ne hij] at hj
      exact Or.inr ⟨hij, hj⟩
  refine ⟨?_, ?_, ?_, ?_, ?_, ?_, ?_, ?_, ?_, ?_⟩ <;>
    simp only [Kernel.lens, hlens, List.length_set] at *
  · exact h.read_le
  · intro j q hj hq
    rcases hcases hq with ⟨rfl, -⟩ | ⟨-, hold⟩
    · omega
    · exact h.finished j q hj hold
  · exact h.produced
  · exact h.consumed
  · exact h.room
  · intro q hq
    rcases List.mem_or_eq_of_mem_set hq with hold | rfl
    · exact h.small q hold
    · rw [hlen]
      exact h.small r (List.mem_of_getElem? hr)
  · intro j q hq
    rcases hcases hq with ⟨rfl, rfl⟩ | ⟨-, hold⟩
    · exact hpos.trans (h.place _ r hr)
    · exact h.place j q hold
  · intro j q hj hq
    rcases hcases hq with ⟨rfl, rfl⟩ | ⟨hne, hold⟩
    · exact hhead
    · have hge := totalLen_ge q.len
      have hsame := h.read_other hr hold hi hj hne (b := 0) ha (show 0 + 4 ≤ _ by omega)
      exact hsame.trans (h.header j q hj hold)
  · intro j q hj hq
    rcases hcases hq with ⟨rfl, rfl⟩ | ⟨hne, hold⟩
    · exact hsample
    · have hge := totalLen_ge q.len
      have hsame := h.read_other hr hold hi hj hne (b := 8) ha (show 8 + q.len ≤ _ by omega)
      exact hsame.trans (h.sample j q hj hold)
  · intro q hq
    rcases List.mem_or_eq_of_mem_set hq with hold | rfl
    · exact h.submitted q hold
    · exact hsub

/-- What a reader can rely on while the kernel's side goes on. -/
structure Grows (k k' : Kernel) : Prop where
  length_le : k.records.length ≤ k'.records.length
  start : ∀ i ≤ k.records.length, startOf k'.lens i = startOf k.lens i
  kept : ∀ (i : Nat) (r : Record), k.records[i]? = some r → r.entry.finished = true →
    k'.records[i]? = some r
  consumer : k'.ring.consumerPos = k.ring.consumerPos

/-- What became of the records. -/
def Kernel.entries (k : Kernel) : List (Entry (List UInt8)) := k.records.map Record.entry

theorem reserve_cases {len : Nat} {pgOff : UInt32} (h : Laid n k read)
    (hstep : k.reserve n len pgOff = some k') :
    len < 2 ^ 30 ∧ startOf k.lens k.records.length + totalLen len < startOf k.lens read + n.bytes ∧
      k' = ⟨{ k.ring with
        data := ringWrite n.bytes k.ring.data (startOf k.lens k.records.length)
          (bytes32 (UInt32.ofNat len ||| busyBit) ++ bytes32 pgOff)
        producerPos := UInt64.ofNat (startOf k.lens k.records.length + totalLen len) },
        k.records ++ [⟨UInt64.ofNat (startOf k.lens k.records.length), len,
          ringRead n.bytes k.ring.data (startOf k.lens k.records.length + 8) len, .busy⟩]⟩ := by
  have hroom := h.room
  have hbytes := n.bytes_le
  have hmono : startOf k.lens read ≤ startOf k.lens k.records.length := startOf_mono h.read_le
  simp only [Kernel.reserve, h.produced, h.consumed, pos_add] at hstep
  split at hstep
  · rename_i hlen
    split at hstep
    · rename_i hfits
      have hpos := n.bytes_pos
      rw [UInt64.le_iff_toNat_le, n.mask_toNat, pos_sub_toNat (by omega) (by omega)] at hfits
      refine ⟨by omega, by omega, ?_⟩
      have hsample : UInt64.ofNat (startOf k.lens k.records.length) + 8
          = UInt64.ofNat (startOf k.lens k.records.length + 8) := pos_add _ 8
      rw [← Option.some.inj hstep, put_eq, hsample, bytesAt_eq]
    · cases hstep
  · cases hstep

/-- A busy record behind the others, where there is room for it. -/
theorem Laid.append (h : Laid n k read) {p len : Nat} {bs : List UInt8}
    (hp : p = startOf k.lens k.records.length) (hsmall : len < 2 ^ 30)
    (hroom : p + totalLen len < startOf k.lens read + n.bytes) (hbs : bs.length = 8)
    (hhead : bs.take 4 = bytes32 (headerWord len .busy)) {r' : Record}
    (hr' : r' = ⟨UInt64.ofNat p, len, ringRead n.bytes k.ring.data (p + 8) len, .busy⟩) :
    Laid n ⟨{ k.ring with
        data := ringWrite n.bytes k.ring.data p bs
        producerPos := UInt64.ofNat (p + totalLen len) }, k.records ++ [r']⟩ read := by
  have hcount : k.lens.length = k.records.length := List.length_map _
  have hmono : startOf k.lens read ≤ p := hp ▸ startOf_mono h.read_le
  have hge := totalLen_ge len
  have hlen' : r'.len = len := hr' ▸ rfl
  have hlens : ∀ ring, Kernel.lens ⟨ring, k.records ++ [r']⟩ = k.lens ++ [len] :=
    fun _ => List.map_append.trans (congrArg (fun l => k.lens ++ [l]) hlen')
  have hstart : ∀ {i}, i ≤ k.records.length → startOf (k.lens ++ [len]) i = startOf k.lens i :=
    fun hi => startOf_append len (hcount ▸ hi)
  have hend : startOf (k.lens ++ [len]) (k.records.length + 1) = p + totalLen len := by
    have hlast : (k.lens ++ [len])[k.records.length]? = some len := by simp [← hcount]
    rw [startOf_succ hlast, hstart (Nat.le_refl _), hp]
  have hcases : ∀ {j q}, (k.records ++ [r'])[j]? = some q →
      (k.records[j]? = some q ∧ j < k.records.length) ∨ (j = k.records.length ∧ q = r') := by
    intro j q hj
    rcases Nat.lt_or_ge j k.records.length with hlt | hge
    · rw [List.getElem?_append_left hlt] at hj
      exact Or.inl ⟨hj, hlt⟩
    · rw [List.getElem?_append_right hge, List.getElem?_singleton] at hj
      split at hj
      · exact Or.inr ⟨by omega, (Option.some.inj hj).symm⟩
      · cases hj
  -- what is written is behind all records, and does not come around to them
  have hread : ∀ {j q b m}, read ≤ j → k.records[j]? = some q → b + m ≤ totalLen q.len →
      ringRead n.bytes (ringWrite n.bytes k.ring.data p bs) (startOf k.lens j + b) m
        = ringRead n.bytes k.ring.data (startOf k.lens j + b) m := by
    intro j q b m hj hq hb
    obtain ⟨hlow, hhigh⟩ := start_bounds hq hj
    exact ringRead_ringWrite_of_disjoint (Or.inr ⟨by omega, by omega⟩)
  constructor
  · rw [List.length_append]
    exact Nat.le_add_right_of_le h.read_le
  · intro j q hj hq
    rcases hcases hq with ⟨hold, -⟩ | ⟨rfl, -⟩
    · exact h.finished j q hj hold
    · exact absurd h.read_le (Nat.not_le.mpr hj)
  · rw [hlens, List.length_append, List.length_singleton, hend]
  · rw [hlens, hstart h.read_le]
    exact h.consumed
  · rw [hlens, List.length_append, List.length_singleton, hend, hstart h.read_le]
    exact hroom
  · intro q hq
    rcases List.mem_append.mp hq with hold | hnew
    · exact h.small q hold
    · rw [List.mem_singleton.mp hnew, hlen']
      exact hsmall
  · intro j q hq
    rw [hlens]
    rcases hcases hq with ⟨hold, hlt⟩ | ⟨rfl, rfl⟩
    · rw [hstart hlt.le]
      exact h.place j q hold
    · rw [hstart (Nat.le_refl _), hr', hp]
  · intro j q hj hq
    rw [hlens]
    rcases hcases hq with ⟨hold, hlt⟩ | ⟨rfl, rfl⟩
    · have hge' := totalLen_ge q.len
      rw [hstart hlt.le]
      exact (hread (b := 0) hj hold (by omega)).trans (h.header j q hj hold)
    · have hself : ringRead n.bytes (ringWrite n.bytes k.ring.data p bs) p bs.length = bs :=
        ringRead_ringWrite_self (by omega)
      have hfirst : ringRead n.bytes (ringWrite n.bytes k.ring.data p bs) p 4 = bs.take 4 := by
        rw [hbs, ringRead_add (n := 4) (m := 4)] at hself
        rw [← hself, List.take_left' ringRead_length, hself]
      rw [hstart (Nat.le_refl _), ← hp, hr']
      exact hfirst.trans hhead
  · intro j q hj hq
    rw [hlens]
    rcases hcases hq with ⟨hold, hlt⟩ | ⟨rfl, rfl⟩
    · have hge' := totalLen_ge q.len
      rw [hstart hlt.le]
      exact (hread hj hold (by omega)).trans (h.sample j q hj hold)
    · rw [hstart (Nat.le_refl _), ← hp, hr']
      exact ringRead_ringWrite_of_disjoint (Or.inl ⟨by omega, by dsimp only; omega⟩)
  · intro q hq b hsub
    rcases List.mem_append.mp hq with hold | hnew
    · exact h.submitted q hold b hsub
    · rw [List.mem_singleton.mp hnew, hr'] at hsub
      cases hsub

theorem laid_reserve {len : Nat} {pgOff : UInt32} (h : Laid n k read)
    (hstep : k.reserve n len pgOff = some k') :
    Laid n k' read ∧ Grows k k' ∧ k'.entries = k.entries ++ [.busy] := by
  obtain ⟨hsmall, hroom, rfl⟩ := reserve_cases h hstep
  refine ⟨h.append rfl hsmall hroom rfl rfl rfl, ⟨?_, ?_, ?_, rfl⟩, List.map_append⟩
  · rw [List.length_append]
    exact Nat.le_add_right _ _
  · intro i hi
    simp only [Kernel.lens, List.map_append, List.map_singleton]
    exact startOf_append len (by rw [List.length_map]; exact hi)
  · intro i q hq _
    rw [List.getElem?_append_left (List.getElem?_eq_some_iff.mp hq).1]
    exact hq

/-- The first word of a header. -/
theorem Laid.bytesAt_header (h : Laid n k read) (hr : k.records[i]? = some r) (hi : read ≤ i) :
    u32At (k.ring.bytesAt n r.pos 4) 0 = headerWord r.len r.entry := by
  rw [h.place i r hr, bytesAt_eq, h.header i r hi hr]
  exact u32At_bytes32 (a := []) _ rfl

theorem grows_set (hr : k.records[i]? = some r) (hbusy : r.entry = .busy) (r' : Record)
    (hlen : r'.len = r.len) (data : Nat → UInt8) :
    Grows k ⟨{ k.ring with data := data }, k.records.set i r'⟩ := by
  refine ⟨by rw [List.length_set], fun j _ => ?_, fun j q hq hfin => ?_, rfl⟩
  · exact congrArg (startOf · j) (lens_set hr hlen)
  · have hne : i ≠ j := by
      rintro rfl
      obtain rfl := Option.some.inj (hr.symm.trans hq)
      rw [hbusy] at hfin
      cases hfin
    rw [List.getElem?_set_ne hne]
    exact hq

theorem laid_write {off : Nat} {bs : List UInt8} (h : Laid n k read)
    (hstep : k.write n i off bs = some k') :
    Laid n k' read ∧ Grows k k' ∧ k'.entries = k.entries := by
  simp only [Kernel.write] at hstep
  split at hstep
  · rename_i pos len sample hr
    split at hstep
    · rename_i hfits
      have hi := h.read_le_of_busy hr rfl
      have hge := totalLen_ge len
      have hroom := h.room
      obtain ⟨hlow, hhigh⟩ := start_bounds hr hi
      dsimp only at hhigh
      have hpos : pos + 8 + UInt64.ofNat off = UInt64.ofNat (startOf k.lens i + (8 + off)) := by
        rw [← Nat.add_assoc, ← pos_add, ← pos_add]
        exact congrArg (· + _) (congrArg (· + _) (h.place i _ hr))
      have hsame : (k.records.set i ⟨pos, len, overwrite sample off bs, .busy⟩).map Record.entry
          = k.entries := by
        have hentry : k.entries[i]? = some .busy := by
          rw [Kernel.entries, List.getElem?_map, hr]
          rfl
        obtain ⟨hlt, hget⟩ := List.getElem?_eq_some_iff.mp hentry
        rw [List.map_set, ← Kernel.entries]
        exact (congrArg _ hget.symm).trans (List.set_getElem_self hlt)
      have hsample : ringRead n.bytes (ringWrite n.bytes k.ring.data (startOf k.lens i + (8 + off)) bs)
          (startOf k.lens i + 8) len = overwrite sample off bs := by
        rw [← Nat.add_assoc, ringRead_ringWrite_inside hfits (by omega), overwrite]
        exact congrArg (fun l => List.take off l ++ bs ++ List.drop (off + bs.length) l)
          (h.sample i _ hi hr)
      have hhead : ringRead n.bytes (ringWrite n.bytes k.ring.data (startOf k.lens i + (8 + off)) bs)
          (startOf k.lens i) 4 = bytes32 (headerWord len .busy) :=
        (ringRead_ringWrite_of_disjoint (Or.inr ⟨by omega, by omega⟩)).trans (h.header i _ hi hr)
      rw [hpos, put_eq] at hstep
      obtain rfl := Option.some.inj hstep
      exact ⟨h.change hr hi ⟨pos, len, overwrite sample off bs, .busy⟩ rfl rfl
          (by dsimp only; omega) hhead hsample (fun b hb => by cases hb),
        grows_set hr rfl ⟨pos, len, overwrite sample off bs, .busy⟩ rfl _, hsame⟩
    · cases hstep
  · cases hstep

theorem laid_commit {discard : Bool} (h : Laid n k read) (hstep : k.commit n i discard = some k') :
    Laid n k' read ∧ Grows k k' ∧ ∃ e, e.finished = true ∧ k.entries[i]? = some .busy ∧
      k'.entries = k.entries.set i e := by
  simp only [Kernel.commit] at hstep
  split at hstep
  · rename_i pos len sample hr
    have hi := h.read_le_of_busy hr rfl
    have hword := h.bytesAt_header hr hi
    have hsmall := h.small _ (List.mem_of_getElem? hr)
    have hlen : (UInt32.ofNat len).toNat = len := by
      rw [UInt32.toNat_ofNat']
      exact Nat.mod_eq_of_lt (Nat.lt_trans hsmall (by decide))
    have hfree : u32At (k.ring.bytesAt n pos 4) 0 ^^^ busyBit = UInt32.ofNat len := by
      dsimp only at hword
      rw [hword]
      exact or_xor_busyBit (by rw [hlen]; exact hsmall)
    obtain rfl := h.place i _ hr
    have hge := totalLen_ge len
    obtain ⟨hlow, hhigh⟩ := start_bounds hr hi
    have hroom := h.room
    dsimp only at hhigh
    -- the new header is all that is written
    have hself : ∀ entry, ringRead n.bytes (ringWrite n.bytes k.ring.data (startOf k.lens i + 0)
        (bytes32 (headerWord len entry))) (startOf k.lens i) 4 = bytes32 (headerWord len entry) :=
      fun entry => ringRead_ringWrite_self
        (show (bytes32 (headerWord len entry)).length ≤ n.bytes by rw [bytes32_length]; omega)
    have hsample : ∀ {word : UInt32}, ringRead n.bytes (ringWrite n.bytes k.ring.data
        (startOf k.lens i + 0) (bytes32 word)) (startOf k.lens i + 8) len = sample := by
      intro word
      refine Eq.trans (ringRead_ringWrite_of_disjoint (Or.inl ⟨?_, by omega⟩)) (h.sample i _ hi hr)
      show _ + 0 + 4 ≤ _
      omega
    have hsize : ∀ {word : UInt32}, 0 + (bytes32 word).length ≤ totalLen len := by
      intro word
      show 0 + 4 ≤ _
      omega
    have hentry : k.entries[i]? = some .busy := by
      rw [Kernel.entries, List.getElem?_map, hr]
      rfl
    rw [hfree, put_eq] at hstep
    obtain rfl := Option.some.inj hstep
    cases discard with
    | false =>
        exact ⟨h.change hr hi ⟨_, len, sample, .submitted sample⟩ rfl rfl hsize
            (hself (.submitted sample)) hsample (fun b hb => (Entry.submitted.inj hb).symm),
          grows_set hr rfl ⟨_, len, sample, .submitted sample⟩ rfl _, _, rfl, hentry, List.map_set⟩
    | true =>
        exact ⟨h.change hr hi ⟨_, len, sample, .discarded⟩ rfl rfl hsize
            (hself .discarded) hsample (fun b hb => by cases hb),
          grows_set hr rfl ⟨_, len, sample, .discarded⟩ rfl _, _, rfl, hentry, List.map_set⟩
  · cases hstep

/-- Every step of the kernel's side keeps the records where they are, and is a
step of the queue or none. -/
theorem laid_kernelStep {a : KernelAction} (h : Laid n k read) (hstep : kernelStep n k a = some k') :
    Laid n k' read ∧ Grows k k' ∧ ∃ acts : List (QueueAction (List UInt8)), ∀ taken delivered,
      exec queueStep ⟨k.entries, taken, delivered⟩ acts = some ⟨k'.entries, taken, delivered⟩ := by
  cases a with
  | reserve len pgOff =>
      obtain ⟨hlaid, hgrows, hentries⟩ := laid_reserve h hstep
      refine ⟨hlaid, hgrows, [.reserve], fun taken delivered => ?_⟩
      rw [hentries]
      rfl
  | write i off bs =>
      obtain ⟨hlaid, hgrows, hentries⟩ := laid_write h hstep
      refine ⟨hlaid, hgrows, [], fun taken delivered => ?_⟩
      rw [hentries]
      rfl
  | commit i discard =>
      obtain ⟨hlaid, hgrows, e, hfin, hbusy, hentries⟩ := laid_commit h hstep
      refine ⟨hlaid, hgrows, [.finish i e], fun taken delivered => ?_⟩
      rw [hentries]
      simp only [exec, List.foldlM_cons, queueStep, hbusy, if_pos hfin]
      rfl

end Steps

end NetProbes.RingBuffer
