/-
# `NetProbes.RingBuffer.Reader` — the reader of a ring buffer

`Reader.Read` waits until there is data, and then calls `readRecord` until it
has a sample or the ring is empty:

    loadConsumer      the position is taken from the shared page
    ReadFull          header; `Read` loads the producer's position, copies what
                      is there, and says `EOF` if that was all
    busy              again from `loadConsumer`
    discarded         `skipRead`, `storeConsumer`, again
    sample            `ReadFull`, `storeConsumer`; the sample is returned

Each access to the shared pages is a step of its own, and between any two the
kernel's side may go on (`systemStep`): the producer's position that `Read` has
loaded may be an old one when the bytes are copied.

    refines_step    each step is steps of the queue
    reads_in_order  so the samples are returned in the order in which they were
                    reserved, each once, and `readRecord` never fails
    reads_on        and whatever is in front of the first busy record can be
                    read without the kernel doing anything
-/
import NetProbes.RingBuffer.Ring

namespace NetProbes.RingBuffer

open NetProbes.Lib

/-! ## The reader -/

/-- `internal.Align` to 8. -/
def align (len : Nat) : Nat := (len + 8 - 1) / 8 * 8

def isBusy (len : UInt32) : Bool := len &&& busyBit != 0

def isDiscard (len : UInt32) : Bool := len &&& discardBit != 0

def dataLen (len : UInt32) : Nat := (len &&& ~~~(busyBit ||| discardBit)).toNat

/-- `delta`, or what is left from `start` to `stop`. -/
def clamp (start stop delta : UInt64) : UInt64 :=
  let remainder := stop - start
  if delta > remainder then remainder else delta

/-- What `ReadFull` is called for. -/
inductive Target where
  | header
  | sample (len : Nat)

/-- The length of the buffer. -/
def Target.want : Target → Nat
  | .header => 8
  | .sample len => align len

/-- How `readRecord` can fail. -/
inductive ReadError where
  | header
  | sample
  | bounds

/-- The next access to the shared pages. -/
inductive Pc where
  | wait
  | loadConsumer
  | read (t : Target) (got : List UInt8)
  | copy (t : Target) (got : List UInt8) (prod : UInt64)
  | skip (len : Nat)
  | store (sample : Option (List UInt8))
  | failed (e : ReadError)

/-- The reader, and the samples it has returned. -/
structure Reader where
  pc : Pc
  cons : UInt64
  delivered : List (List UInt8)

/-- `ReadFull` into the buffer of a sample; an empty one needs no `Read`. -/
def readSample (len : Nat) : Pc :=
  if align len = 0 then .store (some []) else .read (.sample len) []

/-- The buffer is full. -/
def afterRead : Target → List UInt8 → Pc
  | .header, buf =>
      let len := u32At buf 0
      if isBusy len then .loadConsumer
      else if isDiscard len then .skip (align (dataLen len))
      else readSample (dataLen len)
  | .sample len, buf => .store (some (buf.take len))

/-- `ReadFull` after a `Read`, which says `EOF` if it came to `prod`. -/
def Reader.copied (r : Reader) (t : Target) (got : List UInt8) (cons prod : UInt64) : Reader :=
  { r with
    cons := cons
    pc :=
      if t.want ≤ got.length then afterRead t got
      else if prod = cons then
        match t, got with
        | .header, [] => .wait
        | .header, _ :: _ => .failed .header
        | .sample _, _ => .failed .sample
      else .read t got }

def readerStep (n : Size) (ring : Ring) (r : Reader) : Option (Ring × Reader) :=
  match r.pc with
  | .wait =>
      if ring.producerPos = ring.consumerPos then none else some (ring, { r with pc := .loadConsumer })
  | .loadConsumer => some (ring, { r with cons := ring.consumerPos, pc := .read .header [] })
  | .read t got => some (ring, { r with pc := .copy t got ring.producerPos })
  | .copy t got prod =>
      let m := clamp r.cons prod (UInt64.ofNat (t.want - got.length))
      let start := r.cons &&& n.mask
      if start ≤ start + m ∧ (start + m).toNat ≤ 2 * n.bytes then
        some (ring, r.copied t (got ++ ring.bytesAt n r.cons m.toNat) (r.cons + m) prod)
      else some (ring, { r with pc := .failed .bounds })
  | .skip len =>
      some (ring, { r with
        cons := r.cons + clamp r.cons ring.producerPos (UInt64.ofNat len)
        pc := .store none })
  | .store sample =>
      some ({ ring with consumerPos := r.cons },
        { r with pc := .loadConsumer, delivered := r.delivered ++ sample.toList })
  | .failed _ => none

/-- Both sides. -/
structure System where
  kernel : Kernel
  reader : Reader

inductive Action where
  | kernel (a : KernelAction)
  | reader

def systemStep (n : Size) (s : System) : Action → Option System
  | .kernel a => (kernelStep n s.kernel a).map fun k => ⟨k, s.reader⟩
  | .reader => (readerStep n s.kernel.ring s.reader).map fun p => ⟨{ s.kernel with ring := p.1 }, p.2⟩

def Reader.init : Reader := ⟨.wait, 0, []⟩

def System.init (data : Nat → UInt8) : System := ⟨Kernel.init data, Reader.init⟩

/-! ## A single step -/

theorem totalLen_eq (len : Nat) : totalLen len = align len + 8 := by
  simp only [totalLen, align]
  omega

theorem le_align (len : Nat) : len ≤ align len := by
  simp only [align]
  omega

theorem clamp_eq {c p d : Nat} (hc : c ≤ p) (hp : p - c < 2 ^ 64) (hd : d < 2 ^ 64) :
    clamp (UInt64.ofNat c) (UInt64.ofNat p) (UInt64.ofNat d) = UInt64.ofNat (min d (p - c)) := by
  have hsub : UInt64.ofNat p - UInt64.ofNat c = UInt64.ofNat (p - c) := by
    apply UInt64.toNat_inj.mp
    rw [pos_sub_toNat hc hp, UInt64.toNat_ofNat', Nat.mod_eq_of_lt hp]
  have hgt : UInt64.ofNat d > UInt64.ofNat (p - c) ↔ p - c < d := by
    rw [gt_iff_lt, UInt64.lt_iff_toNat_lt, UInt64.toNat_ofNat', UInt64.toNat_ofNat',
      Nat.mod_eq_of_lt hp, Nat.mod_eq_of_lt hd]
  simp only [clamp, hsub, hgt]
  split
  · rw [Nat.min_eq_right (by omega)]
  · rw [Nat.min_eq_left (by omega)]

theorem copied_full {r : Reader} {t : Target} {got : List UInt8} {cons prod : UInt64}
    (h : t.want ≤ got.length) :
    r.copied t got cons prod = { r with cons := cons, pc := afterRead t got } := by
  simp only [Reader.copied, if_pos h]

theorem copied_nothing {r : Reader} {pos : UInt64} :
    r.copied .header [] pos pos = { r with cons := pos, pc := .wait } := by
  simp [Reader.copied, Target.want]

section Copy

variable {n : Size} {ring : Ring} {r : Reader} {t : Target} {c p : Nat}

/-- `Read` copies up to the position it has loaded. -/
theorem readerStep_copy (hpc : r.pc = .copy t [] (UInt64.ofNat p)) (hcons : r.cons = UInt64.ofNat c)
    (hle : c ≤ p) (hroom : p - c < n.bytes) (hwant : t.want < 2 ^ 64) :
    readerStep n ring r = some (ring, r.copied t (ringRead n.bytes ring.data c (min t.want (p - c)))
      (UInt64.ofNat (c + min t.want (p - c))) (UInt64.ofNat p)) := by
  have hbytes := n.bytes_le
  have hpos := n.bytes_pos
  have hm : (UInt64.ofNat (min t.want (p - c))).toNat = min t.want (p - c) := by
    rw [UInt64.toNat_ofNat', Nat.mod_eq_of_lt (by omega)]
  have hstart : (UInt64.ofNat c &&& n.mask).toNat < n.bytes := by
    rw [Size.mask, Lib.mask_toNat n.log_lt]
    exact Nat.mod_lt _ hpos
  have hsum : (UInt64.ofNat c &&& n.mask) + UInt64.ofNat (min t.want (p - c))
      = UInt64.ofNat ((UInt64.ofNat c &&& n.mask).toNat + min t.want (p - c)) := by
    rw [← pos_add, UInt64.ofNat_toNat]
  have hend : ((UInt64.ofNat c &&& n.mask) + UInt64.ofNat (min t.want (p - c))).toNat
      = (UInt64.ofNat c &&& n.mask).toNat + min t.want (p - c) := by
    rw [hsum, UInt64.toNat_ofNat', Nat.mod_eq_of_lt (by omega)]
  have hbounds : (UInt64.ofNat c &&& n.mask)
      ≤ (UInt64.ofNat c &&& n.mask) + UInt64.ofNat (min t.want (p - c)) ∧
      ((UInt64.ofNat c &&& n.mask) + UInt64.ofNat (min t.want (p - c))).toNat ≤ 2 * n.bytes := by
    rw [UInt64.le_iff_toNat_le, hend]
    omega
  simp only [readerStep, hpc, hcons, List.length_nil, Nat.sub_zero,
    clamp_eq hle (show p - c < 2 ^ 64 by omega) hwant, if_pos hbounds, List.nil_append, hm,
    bytesAt_eq, pos_add]

/-- All bytes were there. -/
theorem readerStep_full (hpc : r.pc = .copy t [] (UInt64.ofNat p)) (hcons : r.cons = UInt64.ofNat c)
    (hle : c + t.want ≤ p) (hroom : p - c < n.bytes) (hwant : t.want < 2 ^ 64) :
    readerStep n ring r = some (ring, { r with
      cons := UInt64.ofNat (c + t.want)
      pc := afterRead t (ringRead n.bytes ring.data c t.want) }) := by
  rw [readerStep_copy hpc hcons (by omega) hroom hwant, Nat.min_eq_left (by omega),
    copied_full (by rw [ringRead_length])]

/-- There was nothing. -/
theorem readerStep_empty (hpc : r.pc = .copy .header [] (UInt64.ofNat c))
    (hcons : r.cons = UInt64.ofNat c) :
    readerStep n ring r = some (ring, { r with cons := UInt64.ofNat c, pc := .wait }) := by
  rw [readerStep_copy hpc hcons (Nat.le_refl _) (by rw [Nat.sub_self]; exact n.bytes_pos) (by decide),
    Nat.sub_self, Nat.min_zero]
  exact congrArg (fun r => some (ring, r)) copied_nothing

end Copy

/-! ## What the reader knows -/

/-- The reader at record `read`: what it has seen of the record still holds. -/
def Awaits (k : Kernel) (read : Nat) (r : Reader) : Prop :=
  match r.pc with
  | .wait => True
  | .loadConsumer => True
  | .read .header got => got = [] ∧ r.cons = UInt64.ofNat (startOf k.lens read)
  | .copy .header got prod =>
      got = [] ∧ r.cons = UInt64.ofNat (startOf k.lens read) ∧
        ∃ j, read ≤ j ∧ j ≤ k.records.length ∧ prod = UInt64.ofNat (startOf k.lens j)
  | .read (.sample len) got =>
      got = [] ∧ r.cons = UInt64.ofNat (startOf k.lens read + 8) ∧
        ∃ rec bs, k.records[read]? = some rec ∧ rec.len = len ∧ rec.entry = .submitted bs
  | .copy (.sample len) got prod =>
      got = [] ∧ r.cons = UInt64.ofNat (startOf k.lens read + 8) ∧
        (∃ rec bs, k.records[read]? = some rec ∧ rec.len = len ∧ rec.entry = .submitted bs) ∧
        ∃ j, read < j ∧ j ≤ k.records.length ∧ prod = UInt64.ofNat (startOf k.lens j)
  | .skip len =>
      r.cons = UInt64.ofNat (startOf k.lens read + 8) ∧
        ∃ rec, k.records[read]? = some rec ∧ align rec.len = len ∧ rec.entry = .discarded
  | .store sample =>
      r.cons = UInt64.ofNat (startOf k.lens (read + 1)) ∧
        ∃ rec, k.records[read]? = some rec ∧ rec.entry.finished = true ∧ rec.entry.content = sample
  | .failed _ => False

/-- How far the reader is from the end of a record that is finished: it may
have to find out that the position it has loaded is an old one. -/
def Reader.rank (r : Reader) : Nat :=
  match r.pc with
  | .copy .header _ prod => if prod = r.cons then 8 else 4
  | .wait => 7
  | .loadConsumer => 6
  | .read .header _ => 5
  | .read (.sample _) _ => 3
  | .copy (.sample _) _ _ => 2
  | .skip _ => 2
  | .store _ => 1
  | .failed _ => 0

section Steps

variable {n : Size} {k k' : Kernel} {read : Nat} {r r' : Reader} {ring : Ring} {rec : Record}

/-- The kernel's side does not take back what the reader has seen. -/
theorem awaits_grows (h : Laid n k read) (hgrows : Grows k k') (ha : Awaits k read r) :
    Awaits k' read r := by
  have hstart := hgrows.start read h.read_le
  have hnext : ∀ {rec}, k.records[read]? = some rec →
      startOf k'.lens (read + 1) = startOf k.lens (read + 1) :=
    fun hrec => hgrows.start _ (List.getElem?_eq_some_iff.mp hrec).1
  have hprod : ∀ {j}, j ≤ k.records.length → j ≤ k'.records.length ∧
      UInt64.ofNat (startOf k.lens j) = UInt64.ofNat (startOf k'.lens j) :=
    fun hj => ⟨Nat.le_trans hj hgrows.length_le, congrArg _ (hgrows.start _ hj).symm⟩
  simp only [Awaits] at ha ⊢
  split <;> rename_i heq <;> simp only [heq, hstart] at ha ⊢
  · exact ha
  · obtain ⟨hgot, hcons, j, hj, hle, hp⟩ := ha
    exact ⟨hgot, hcons, j, hj, (hprod hle).1, hp.trans (hprod hle).2⟩
  · obtain ⟨hgot, hcons, rec, bs, hrec, hlen, hsub⟩ := ha
    exact ⟨hgot, hcons, rec, bs, hgrows.kept _ _ hrec (hsub ▸ rfl), hlen, hsub⟩
  · obtain ⟨hgot, hcons, ⟨rec, bs, hrec, hlen, hsub⟩, j, hj, hle, hp⟩ := ha
    exact ⟨hgot, hcons, ⟨rec, bs, hgrows.kept _ _ hrec (hsub ▸ rfl), hlen, hsub⟩, j, hj,
      (hprod hle).1, hp.trans (hprod hle).2⟩
  · obtain ⟨hcons, rec, hrec, hlen, hdis⟩ := ha
    exact ⟨hcons, rec, hgrows.kept _ _ hrec (hdis ▸ rfl), hlen, hdis⟩
  · obtain ⟨hcons, rec, hrec, hfin, hcontent⟩ := ha
    exact ⟨hcons.trans (congrArg _ (hnext hrec).symm), rec, hgrows.kept _ _ hrec hfin, hfin, hcontent⟩

/-- The header at the reader's position. -/
theorem Laid.header_word (h : Laid n k read) (hrec : k.records[read]? = some rec) :
    u32At (ringRead n.bytes k.ring.data (startOf k.lens read) 8) 0 = headerWord rec.len rec.entry := by
  rw [ringRead_add (n := 4) (m := 4), h.header read rec (Nat.le_refl _) hrec]
  exact u32At_bytes32 (a := []) _ rfl

theorem toNat_ofNat_len {len : Nat} (h : len < 2 ^ 30) : (UInt32.ofNat len).toNat = len := by
  rw [UInt32.toNat_ofNat']
  exact Nat.mod_eq_of_lt (Nat.lt_trans h (by decide))

/-- What a header tells. -/
theorem isBusy_headerWord {len : Nat} (h : len < 2 ^ 30) (e : Entry (List UInt8)) :
    isBusy (headerWord len e) = !e.finished := by
  have hlen := toNat_ofNat_len h
  cases e with
  | busy => simp only [isBusy, headerWord, or_and_self]; rfl
  | submitted bs => simp only [isBusy, headerWord, and_busyBit (hlen.symm ▸ h)]; rfl
  | discarded => simp only [isBusy, headerWord, or_discardBit_and_busyBit (hlen.symm ▸ h)]; rfl

theorem dataLen_headerWord {len : Nat} (h : len < 2 ^ 30) {e : Entry (List UInt8)}
    (hfin : e.finished = true) : dataLen (headerWord len e) = len := by
  have hlen := toNat_ofNat_len h
  rw [dataLen, toNat_and_low]
  cases e with
  | busy => cases hfin
  | submitted bs =>
      rw [headerWord, hlen]
      exact Nat.mod_eq_of_lt h
  | discarded =>
      rw [headerWord, toNat_or_discardBit (hlen.symm ▸ h)]
      exact hlen

/-- What `readRecord` does after it has read the header of a finished record. -/
theorem afterRead_header (h : Laid n k read) (hrec : k.records[read]? = some rec) :
    afterRead .header (ringRead n.bytes k.ring.data (startOf k.lens read) 8) =
      match rec.entry with
      | .busy => .loadConsumer
      | .submitted _ => readSample rec.len
      | .discarded => .skip (align rec.len) := by
  have hsmall := h.small rec (List.mem_of_getElem? hrec)
  have hbusy := isBusy_headerWord hsmall rec.entry
  have hlen := toNat_ofNat_len hsmall
  simp only [afterRead, h.header_word hrec]
  cases hentry : rec.entry with
  | busy =>
      rw [hentry] at hbusy
      rw [hbusy]
      rfl
  | submitted bs =>
      rw [hentry] at hbusy
      have hdis : isDiscard (headerWord rec.len (.submitted bs)) = false := by
        simp only [isDiscard, headerWord, and_discardBit (hlen.symm ▸ hsmall)]
        rfl
      rw [hbusy, hdis, dataLen_headerWord hsmall rfl]
      rfl
  | discarded =>
      rw [hentry] at hbusy
      have hdis : isDiscard (headerWord rec.len .discarded) = true := by
        simp only [isDiscard, headerWord, or_and_self]
        rfl
      rw [hbusy, hdis, dataLen_headerWord hsmall rfl]
      rfl

/-- Positions in the ring do not repeat. -/
theorem Laid.start_inj (h : Laid n k read) {i j : Nat} (hi : read ≤ i) (hij : i ≤ j)
    (hj : j ≤ k.records.length)
    (heq : UInt64.ofNat (startOf k.lens j) = UInt64.ofNat (startOf k.lens i)) : i = j := by
  by_contra hne
  have hlt : i < k.records.length := by omega
  have hroom := h.room
  have hbytes := n.bytes_le
  have hsucc := start_succ (List.getElem?_eq_getElem hlt)
  have hge := totalLen_ge (k.records[i]).len
  have hnext : startOf k.lens (i + 1) ≤ startOf k.lens j := startOf_mono (by omega)
  have hlast : startOf k.lens j ≤ startOf k.lens k.records.length := startOf_mono hj
  have hfirst : startOf k.lens read ≤ startOf k.lens i := startOf_mono hi
  have hsub := pos_sub_toNat (p := startOf k.lens j) (q := startOf k.lens i) (by omega) (by omega)
  rw [heq, UInt64.sub_self] at hsub
  have hzero : (0 : UInt64).toNat = 0 := rfl
  omega

/-- The record is still the next one, and nearer to its end if it is finished. -/
structure Goes (k : Kernel) (read : Nat) (r : Reader) (ring : Ring) (r' : Reader) : Prop where
  ring_eq : ring = k.ring
  delivered : r'.delivered = r.delivered
  awaits : Awaits k read r'
  rank_lt : ∀ rec, k.records[read]? = some rec → rec.entry.finished = true → r'.rank < r.rank

/-- The record is behind the reader, and returned if it was submitted. -/
structure Takes (k : Kernel) (read : Nat) (r : Reader) (ring : Ring) (r' : Reader) : Prop where
  record : ∃ rec, k.records[read]? = some rec ∧ rec.entry.finished = true ∧
    r'.delivered = r.delivered ++ rec.entry.content.toList
  ring_eq : ring = { k.ring with consumerPos := UInt64.ofNat (startOf k.lens (read + 1)) }
  pc : r'.pc = .loadConsumer

theorem reader_copy_header (h : Laid n k read) {prod : UInt64} {got : List UInt8}
    (hpc : r.pc = .copy .header got prod) (ha : Awaits k read r) :
    ∃ r', readerStep n k.ring r = some (k.ring, r') ∧ Goes k read r k.ring r' := by
  simp only [Awaits, hpc] at ha
  obtain ⟨rfl, hcons, j, hj, hle, rfl⟩ := ha
  have hroom := h.room
  have hlast : startOf k.lens j ≤ startOf k.lens k.records.length := startOf_mono hle
  rcases Nat.eq_or_lt_of_le hj with rfl | hlt
  · refine ⟨_, readerStep_empty hpc hcons, rfl, rfl, trivial, fun _ _ _ => ?_⟩
    simp [Reader.rank, hpc, hcons]
  · obtain ⟨rec, hrec⟩ : ∃ rec, k.records[read]? = some rec :=
      ⟨_, List.getElem?_eq_getElem (by omega)⟩
    have hsucc := start_succ hrec
    have htotal := totalLen_eq rec.len
    have hnext : startOf k.lens (read + 1) ≤ startOf k.lens j := startOf_mono hlt
    have hne : UInt64.ofNat (startOf k.lens j) ≠ r.cons := by
      rw [hcons]
      intro heq
      have := h.start_inj (Nat.le_refl _) hj hle heq
      omega
    refine ⟨_, readerStep_full hpc hcons (show _ + 8 ≤ _ by omega) (by omega) (by decide),
      rfl, rfl, ?_, fun rec' hrec' hfin => ?_⟩
    · have hafter := afterRead_header h hrec
      simp only [Target.want, Awaits, hafter]
      cases hentry : rec.entry with
      | busy => trivial
      | submitted bs =>
          by_cases hzero : align rec.len = 0
          · simp only [readSample, if_pos hzero]
            have hempty : rec.len = 0 := by have := le_align rec.len; omega
            have hbs := h.submitted rec (List.mem_of_getElem? hrec) bs hentry
            have hsample := h.sample read rec (Nat.le_refl _) hrec
            rw [hempty] at hsample
            refine ⟨?_, rec, hrec, hentry ▸ rfl, ?_⟩
            · rw [hsucc, htotal, hzero]
            · rw [hentry, hbs, ← hsample]
              rfl
          · simp only [readSample, if_neg hzero]
            exact ⟨trivial, trivial, rec, bs, hrec, rfl, hentry⟩
      | discarded => exact ⟨trivial, rec, hrec, rfl, hentry⟩
    · obtain rfl := Option.some.inj (hrec.symm.trans hrec')
      have hafter := afterRead_header h hrec
      have hrank : r.rank = 4 := by simp [Reader.rank, hpc, hne]
      rw [hrank]
      simp only [Target.want, hafter, Reader.rank]
      cases hentry : rec.entry with
      | busy =>
          rw [hentry] at hfin
          cases hfin
      | submitted bs =>
          by_cases hzero : align rec.len = 0
          · simp [readSample, hzero]
          · simp [readSample, hzero]
      | discarded => simp

theorem reader_copy_sample (h : Laid n k read) {prod : UInt64} {got : List UInt8} {len : Nat}
    (hpc : r.pc = .copy (.sample len) got prod) (ha : Awaits k read r) :
    ∃ r', readerStep n k.ring r = some (k.ring, r') ∧ Goes k read r k.ring r' := by
  simp only [Awaits, hpc] at ha
  obtain ⟨rfl, hcons, ⟨rec, bs, hrec, rfl, hentry⟩, j, hj, hle, rfl⟩ := ha
  have hroom := h.room
  have hlast : startOf k.lens j ≤ startOf k.lens k.records.length := startOf_mono hle
  have hnext : startOf k.lens (read + 1) ≤ startOf k.lens j := startOf_mono hj
  have hsucc := start_succ hrec
  have htotal := totalLen_eq rec.len
  have hbytes := n.bytes_le
  have hle' := le_align rec.len
  refine ⟨_, readerStep_full hpc hcons (show _ + align rec.len ≤ _ by omega) (by omega)
    (show align rec.len < 2 ^ 64 by omega), rfl, rfl, ?_, fun _ _ _ => ?_⟩
  · have hbs := h.submitted rec (List.mem_of_getElem? hrec) bs hentry
    have hsample := h.sample read rec (Nat.le_refl _) hrec
    have htake : (ringRead n.bytes k.ring.data (startOf k.lens read + 8) (align rec.len)).take rec.len
        = ringRead n.bytes k.ring.data (startOf k.lens read + 8) rec.len := by
      obtain ⟨d, hd⟩ := Nat.exists_eq_add_of_le hle'
      rw [hd, ringRead_add]
      exact List.take_left' ringRead_length
    refine ⟨?_, rec, hrec, hentry ▸ rfl, ?_⟩
    · rw [hsucc, htotal]
      exact congrArg UInt64.ofNat (by simp only [Target.want]; omega)
    · rw [hentry, hbs, ← hsample]
      exact congrArg some htake.symm
  · simp [Reader.rank, hpc, afterRead]

/-- A step of the reader, wherever it is: it is only stopped by an empty ring. -/
theorem reader_moves (h : Laid n k read) (ha : Awaits k read r) :
    (readerStep n k.ring r = none ∧ read = k.records.length) ∨
      ∃ ring r', readerStep n k.ring r = some (ring, r') ∧
        (Goes k read r ring r' ∨ Takes k read r ring r') := by
  cases hpc : r.pc with
  | wait =>
      simp only [readerStep, hpc, h.produced, h.consumed]
      split
      · rename_i heq
        exact Or.inl ⟨rfl, h.start_inj (Nat.le_refl _) h.read_le (Nat.le_refl _) heq⟩
      · refine Or.inr ⟨_, _, rfl, Or.inl ⟨rfl, rfl, trivial, fun _ _ _ => ?_⟩⟩
        simp [Reader.rank, hpc]
  | loadConsumer =>
      simp only [readerStep, hpc]
      refine Or.inr ⟨_, _, rfl, Or.inl ⟨rfl, rfl, ⟨rfl, h.consumed⟩, fun _ _ _ => ?_⟩⟩
      simp [Reader.rank, hpc]
  | read t got =>
      simp only [Awaits, hpc] at ha
      cases t with
      | header =>
          obtain ⟨rfl, hcons⟩ := ha
          simp only [readerStep, hpc]
          refine Or.inr ⟨_, _, rfl, Or.inl ⟨rfl, rfl, ⟨rfl, hcons, _, h.read_le, Nat.le_refl _,
            h.produced⟩, fun rec hrec _ => ?_⟩⟩
          have hlt := (List.getElem?_eq_some_iff.mp hrec).1
          have hne : k.ring.producerPos ≠ r.cons := by
            rw [h.produced, hcons]
            intro heq
            have := h.start_inj (Nat.le_refl _) h.read_le (Nat.le_refl _) heq
            omega
          simp [Reader.rank, hpc, hne]
      | sample len =>
          obtain ⟨rfl, hcons, rec, bs, hrec, hlen, hentry⟩ := ha
          have hlt := (List.getElem?_eq_some_iff.mp hrec).1
          simp only [readerStep, hpc]
          refine Or.inr ⟨_, _, rfl, Or.inl ⟨rfl, rfl, ⟨rfl, hcons, ⟨rec, bs, hrec, hlen, hentry⟩, _,
            hlt, Nat.le_refl _, h.produced⟩, fun _ _ _ => ?_⟩⟩
          simp [Reader.rank, hpc]
  | copy t got prod =>
      cases t with
      | header =>
          obtain ⟨r', hstep, hgoes⟩ := reader_copy_header h hpc ha
          exact Or.inr ⟨_, r', hstep, Or.inl hgoes⟩
      | sample len =>
          obtain ⟨r', hstep, hgoes⟩ := reader_copy_sample h hpc ha
          exact Or.inr ⟨_, r', hstep, Or.inl hgoes⟩
  | skip len =>
      simp only [Awaits, hpc] at ha
      obtain ⟨hcons, rec, hrec, rfl, hentry⟩ := ha
      have hroom := h.room
      have hbytes := n.bytes_le
      have hsucc := start_succ hrec
      have htotal := totalLen_eq rec.len
      have hlast : startOf k.lens (read + 1) ≤ startOf k.lens k.records.length :=
        startOf_mono (List.getElem?_eq_some_iff.mp hrec).1
      have hclamp : clamp r.cons k.ring.producerPos (UInt64.ofNat (align rec.len))
          = UInt64.ofNat (align rec.len) := by
        rw [hcons, h.produced, clamp_eq (by omega) (by omega) (by omega), Nat.min_eq_left (by omega)]
      simp only [readerStep, hpc]
      refine Or.inr ⟨_, _, rfl, Or.inl ⟨rfl, rfl, ⟨?_, rec, hrec, hentry ▸ rfl, ?_⟩, fun _ _ _ => ?_⟩⟩
      · rw [hclamp, hcons, pos_add, hsucc, htotal]
        exact congrArg UInt64.ofNat (by omega)
      · rw [hentry]
        rfl
      · simp [Reader.rank, hpc]
  | store sample =>
      simp only [Awaits, hpc] at ha
      obtain ⟨hcons, rec, hrec, hfin, hcontent⟩ := ha
      simp only [readerStep, hpc]
      exact Or.inr ⟨_, _, rfl, Or.inr ⟨⟨rec, hrec, hfin, by rw [hcontent]⟩, by rw [hcons], rfl⟩⟩
  | failed e =>
      simp only [Awaits, hpc] at ha

/-- The records from the next one on are still where they were. -/
theorem Laid.advance (h : Laid n k read) (hrec : k.records[read]? = some rec)
    (hfin : rec.entry.finished = true) :
    Laid n { k with ring :=
      { k.ring with consumerPos := UInt64.ofNat (startOf k.lens (read + 1)) } } (read + 1) where
  read_le := (List.getElem?_eq_some_iff.mp hrec).1
  finished := fun i r hi hr => by
    rcases Nat.lt_succ_iff_lt_or_eq.mp hi with hlt | rfl
    · exact h.finished i r hlt hr
    · obtain rfl := Option.some.inj (hrec.symm.trans hr)
      exact hfin
  produced := h.produced
  consumed := rfl
  room := Nat.lt_of_lt_of_le h.room
    (Nat.add_le_add_right (startOf_mono (Nat.le_succ read)) n.bytes)
  small := h.small
  place := h.place
  header := fun i r hi hr => h.header i r (by omega) hr
  sample := fun i r hi hr => h.sample i r (by omega) hr
  submitted := h.submitted

end Steps

/-! ## Runs -/

/-- The system is at a state of the queue. -/
structure Refines (n : Size) (s : System) (q : Queue (List UInt8)) : Prop where
  laid : Laid n s.kernel q.read
  awaits : Awaits s.kernel q.read s.reader
  entries : s.kernel.entries = q.entries
  delivered : s.reader.delivered = q.delivered
  inv : QueueInv q

theorem refines_init (n : Size) (data : Nat → UInt8) : Refines n (System.init data) Queue.init :=
  ⟨laid_init n data, trivial, rfl, rfl, queueInv_init⟩

section Run

variable {n : Size} {s s' : System} {q : Queue (List UInt8)}

theorem Refines.getElem? (h : Refines n s q) {i : Nat} {rec : Record}
    (hrec : s.kernel.records[i]? = some rec) : q.entries[i]? = some rec.entry := by
  rw [← h.entries, Kernel.entries, List.getElem?_map, hrec]
  rfl

/-- A record that the reader is through with is taken from the queue. -/
theorem refines_takes (h : Refines n s q) {ring : Ring} {r' : Reader}
    (htakes : Takes s.kernel q.read s.reader ring r') :
    ∃ q', queueStep q .take = some q' ∧ Refines n ⟨{ s.kernel with ring := ring }, r'⟩ q' := by
  obtain ⟨⟨rec, hrec, hfin, hdel⟩, rfl, hpc⟩ := htakes
  have hstep : queueStep q .take = some (q.took rec.entry) := by
    simp only [queueStep, h.getElem? hrec, if_pos hfin]
  refine ⟨_, hstep, h.laid.advance hrec hfin, ?_, h.entries, ?_, queueInv_step h.inv hstep⟩
  · simp only [Awaits, hpc]
  · rw [hdel, h.delivered]
    rfl

/-- Each step is a step of the queue, or several, or none. -/
theorem refines_step {a : Action} (h : Refines n s q) (hstep : systemStep n s a = some s') :
    ∃ acts q', exec queueStep q acts = some q' ∧ Refines n s' q' := by
  cases a with
  | kernel a =>
      obtain ⟨k, hk, rfl⟩ := Option.map_eq_some_iff.mp hstep
      obtain ⟨hlaid, hgrows, acts, hacts⟩ := laid_kernelStep h.laid hk
      have hexec := hacts q.read q.delivered
      rw [h.entries] at hexec
      exact ⟨acts, _, hexec, hlaid, awaits_grows h.laid hgrows h.awaits, rfl, h.delivered,
        exec_invariant (fun _ _ _ => queueInv_step) h.inv hexec⟩
  | reader =>
      obtain ⟨⟨ring, r'⟩, hr, rfl⟩ := Option.map_eq_some_iff.mp hstep
      rcases reader_moves h.laid h.awaits with ⟨hnone, -⟩ | ⟨ring₁, r₁, hsome, hmoves⟩
      · rw [hnone] at hr
        cases hr
      · obtain ⟨rfl, rfl⟩ := Prod.mk.inj (Option.some.inj (hr.symm.trans hsome))
        rcases hmoves with ⟨rfl, hdel, hawaits, -⟩ | htakes
        · exact ⟨[], q, rfl, h.laid, hawaits, h.entries, hdel.trans h.delivered, h.inv⟩
        · obtain ⟨q', hq, href⟩ := refines_takes h htakes
          refine ⟨[.take], q', ?_, href⟩
          exact exec_cons.mpr ⟨_, hq, rfl⟩

/-- A record that is finished can be taken by the reader's own steps. -/
theorem reader_takes {q' : Queue (List UInt8)} (h : Refines n s q)
    (htake : queueStep q .take = some q') :
    ∃ m s', exec (systemStep n) s (List.replicate m .reader) = some s' ∧ Refines n s' q' := by
  induction hrank : s.reader.rank using Nat.strong_induction_on generalizing s with
  | _ rank ih =>
      have hlt : q.read < s.kernel.records.length := by
        by_contra hge
        have hnone : q.entries[q.read]? = none := by
          rw [← h.entries, Kernel.entries, List.getElem?_map, List.getElem?_eq_none (by omega)]
          rfl
        rw [queueStep, hnone] at htake
        cases htake
      have hrec := List.getElem?_eq_getElem hlt
      have hfin : (s.kernel.records[q.read]).entry.finished = true := by
        rw [queueStep, h.getElem? hrec] at htake
        by_contra hbusy
        simp [hbusy] at htake
      rcases reader_moves h.laid h.awaits with ⟨-, hend⟩ | ⟨ring, r', hstep, hmoves⟩
      · omega
      · have hsys : systemStep n s .reader = some ⟨{ s.kernel with ring := ring }, r'⟩ := by
          simp only [systemStep, hstep, Option.map_some]
        rcases hmoves with ⟨rfl, hdel, hawaits, hless⟩ | htakes
        · have href : Refines n ⟨s.kernel, r'⟩ q :=
            ⟨h.laid, hawaits, h.entries, hdel.trans h.delivered, h.inv⟩
          obtain ⟨m, s', hexec, href'⟩ := ih _ (hrank ▸ hless _ hrec hfin) href rfl
          refine ⟨m + 1, s', ?_, href'⟩
          rw [List.replicate_succ]
          exact exec_cons.mpr ⟨_, hsys, hexec⟩
        · obtain ⟨q₁, hq₁, href⟩ := refines_takes h htakes
          obtain rfl := Option.some.inj (hq₁.symm.trans htake)
          refine ⟨1, _, ?_, href⟩
          exact exec_cons.mpr ⟨_, hsys, rfl⟩

/-- Every run from a ring without records is a run of the queue. -/
theorem exec_refines_queue {data : Nat → UInt8} {tr : List Action}
    (h : exec (systemStep n) (System.init data) tr = some s) :
    ∃ acts q, exec queueStep Queue.init acts = some q ∧ Refines n s q :=
  exec_refines (fun _ _ _ _ => refines_step) (refines_init n data) h

end Run

/-- Whatever the kernel's side does between the reader's steps: what was
submitted is returned in the order of the reservations, up to the record the
reader is at, and no read fails. -/
theorem reads_in_order {n : Size} {data : Nat → UInt8} {tr : List Action} {s : System}
    (h : exec (systemStep n) (System.init data) tr = some s) :
    (∀ e, s.reader.pc ≠ .failed e) ∧
      ∃ read ≤ s.kernel.records.length,
        (∀ e ∈ s.kernel.entries.take read, e.finished = true) ∧
        s.reader.delivered = (s.kernel.entries.take read).filterMap Entry.content := by
  obtain ⟨acts, q, -, href⟩ := exec_refines_queue h
  refine ⟨fun e he => ?_, q.read, href.laid.read_le, ?_, ?_⟩
  · have hawaits := href.awaits
    simp only [Awaits, he] at hawaits
  · rw [href.entries]
    exact href.inv.finished
  · rw [href.delivered, href.entries]
    exact href.inv.delivered

/-- Two records of which the second is finished first; the reader finds the
first one busy, and gets both. -/
def outOfOrder : List Action :=
  [.kernel (.reserve 3 0), .kernel (.reserve 2 1), .kernel (.write 1 0 [7, 8]),
    .kernel (.commit 1 false), .reader, .reader, .reader, .reader, .kernel (.write 0 0 [1, 2, 3]),
    .reader, .kernel (.commit 0 false)] ++ List.replicate 12 .reader

theorem reads_in_order_outOfOrder :
    ∃ s, exec (systemStep page) (System.init fun _ => 0) outOfOrder = some s ∧
      (∀ e, s.reader.pc ≠ .failed e) ∧
      ∃ read ≤ s.kernel.records.length,
        (∀ e ∈ s.kernel.entries.take read, e.finished = true) ∧
        s.reader.delivered = (s.kernel.entries.take read).filterMap Entry.content := by
  have hruns : (exec (systemStep page) (System.init fun _ => 0) outOfOrder).isSome = true := by
    decide +kernel
  obtain ⟨s, hs⟩ := Option.isSome_iff_exists.mp hruns
  exact ⟨s, hs, reads_in_order hs⟩

example : (exec (systemStep page) (System.init fun _ => 0) outOfOrder).map (·.reader.delivered)
    = some [[1, 2, 3], [7, 8]] := by decide +kernel

/-- From wherever a run comes to, the reader's own steps return all that was
submitted in front of the first busy record. -/
theorem reads_on {n : Size} {data : Nat → UInt8} {tr : List Action} {s : System}
    (h : exec (systemStep n) (System.init data) tr = some s) :
    ∃ m s', exec (systemStep n) s (List.replicate m .reader) = some s' ∧
      s'.kernel.entries = s.kernel.entries ∧
      s'.reader.delivered = (s.kernel.entries.takeWhile Entry.finished).filterMap Entry.content := by
  obtain ⟨acts, q, -, href⟩ := exec_refines_queue h
  obtain ⟨m, s', q', hexec, href', hentries, hdel⟩ :=
    drains (fun _ _ h => h.inv) (fun _ _ _ h htake => reader_takes h htake) href
  refine ⟨m, s', hexec, ?_, ?_⟩
  · rw [href'.entries, hentries, href.entries]
  · rw [href'.delivered, hdel, href.entries]
    rfl

theorem reads_on_outOfOrder :
    ∃ s, exec (systemStep page) (System.init fun _ => 0) (outOfOrder.take 11) = some s ∧
      ∃ m s', exec (systemStep page) s (List.replicate m .reader) = some s' ∧
        s'.kernel.entries = s.kernel.entries ∧
        s'.reader.delivered
          = (s.kernel.entries.takeWhile Entry.finished).filterMap Entry.content := by
  have hruns : (exec (systemStep page) (System.init fun _ => 0) (outOfOrder.take 11)).isSome
      = true := by decide +kernel
  obtain ⟨s, hs⟩ := Option.isSome_iff_exists.mp hruns
  exact ⟨s, hs, reads_on hs⟩

end NetProbes.RingBuffer
