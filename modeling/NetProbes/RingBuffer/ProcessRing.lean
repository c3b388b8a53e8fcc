/-
# `NetProbes.RingBuffer.ProcessRing` — the reader that calls back

libbpf reads the same ring in another way: `ringbuf_process_ring` hands each
sample to a callback where it lies, and frees it afterwards.  It goes on until
a producer's position it has loaded brings nothing new.

    loadConsumer   cons_pos
    loadProducer   prod_pos; nothing new so far
    header         `cons_pos < prod_pos`: the length of the next record
    callback       a sample that is not discarded
    store          the consumer's position; a negative result of the callback
                   ends the call

Positions are compared as numbers, so this needs all of them to be below 2^64.
There the calls, with the kernel's side going on at any time, are steps of the
same queue that `Reader.Read` works on.
-/
import NetProbes.RingBuffer.Reader

namespace NetProbes.RingBuffer

open NetProbes.Lib

/-! ## The calls -/

/-- `roundup_len`, in 32 bits. -/
def roundupLen (len : UInt32) : UInt32 := (((len <<< 2) >>> 2) + 8 + 7) / 8 * 8

/-- The next access to the shared pages. -/
inductive PollPc where
  | poll
  | loadConsumer
  | loadProducer
  | header (prod : UInt64)
  | callback (prod pos : UInt64) (len : UInt32)
  | store (prod : UInt64) (err : Int)

/-- `cons_pos`, `got_new_data`, and what the callback got. -/
structure Poller where
  pc : PollPc
  cons : UInt64
  gotNewData : Bool
  delivered : List (List UInt8)

/-- The conditions of both loops. -/
def Poller.next (p : Poller) (prod : UInt64) : PollPc :=
  if p.cons < prod then .header prod
  else if p.gotNewData then .loadProducer
  else .poll

/-- `ring_buffer__poll` waits until there is data; a wait that is over without
any does not change anything. -/
def pollerStep (cb : List UInt8 → Int) (n : Size) (ring : Ring) (p : Poller) :
    Option (Ring × Poller) :=
  match p.pc with
  | .poll =>
      if ring.producerPos = ring.consumerPos then none else some (ring, { p with pc := .loadConsumer })
  | .loadConsumer => some (ring, { p with cons := ring.consumerPos, pc := .loadProducer })
  | .loadProducer =>
      let p := { p with gotNewData := false }
      some (ring, { p with pc := p.next ring.producerPos })
  | .header prod =>
      let len := u32At (ring.bytesAt n p.cons 4) 0
      if isBusy len then some (ring, { p with pc := .poll })
      else some (ring, { p with
        gotNewData := true
        cons := p.cons + UInt64.ofNat (roundupLen len).toNat
        pc := if isDiscard len then .store prod 0 else .callback prod p.cons len })
  | .callback prod pos len =>
      let sample := ringRead n.bytes ring.data ((pos &&& n.mask).toNat + 8) len.toNat
      some (ring, { p with pc := .store prod (cb sample), delivered := p.delivered ++ [sample] })
  | .store prod err =>
      some ({ ring with consumerPos := p.cons },
        { p with pc := if err < 0 then .poll else p.next prod })

/-- Both sides. -/
structure PollSystem where
  kernel : Kernel
  poller : Poller

inductive PollAction where
  | kernel (a : KernelAction)
  | poller

def pollSystemStep (cb : List UInt8 → Int) (n : Size) (s : PollSystem) :
    PollAction → Option PollSystem
  | .kernel a => (kernelStep n s.kernel a).map fun k => ⟨k, s.poller⟩
  | .poller =>
      (pollerStep cb n s.kernel.ring s.poller).map fun p => ⟨{ s.kernel with ring := p.1 }, p.2⟩

def Poller.init : Poller := ⟨.poll, 0, false, []⟩

def PollSystem.init (data : Nat → UInt8) : PollSystem := ⟨Kernel.init data, Poller.init⟩

/-- All bytes that were ever reserved. -/
def Kernel.produced (k : Kernel) : Nat := startOf k.lens k.records.length

/-! ## A single step -/

/-- The top two bits do not count. -/
theorem roundupLen_toNat (len : UInt32) : (roundupLen len).toNat = totalLen (len.toNat % 2 ^ 30) := by
  have hlow : ((len <<< 2) >>> 2).toNat = len.toNat % 2 ^ 30 := by
    rw [UInt32.toNat_shiftRight, UInt32.toNat_shiftLeft, Nat.shiftLeft_eq, Nat.shiftRight_eq_div_pow]
    have htwo : (2 : UInt32).toNat % 32 = 2 := rfl
    rw [htwo]
    omega
  have hlt := Nat.mod_lt len.toNat (show 0 < 2 ^ 30 by decide)
  simp only [roundupLen, totalLen, UInt32.toNat_mul, UInt32.toNat_div, UInt32.toNat_add, hlow]
  have height : (8 : UInt32).toNat = 8 := rfl
  have hseven : (7 : UInt32).toNat = 7 := rfl
  rw [height, hseven]
  omega

theorem roundupLen_headerWord {len : Nat} (h : len < 2 ^ 30) {e : Entry (List UInt8)}
    (hfin : e.finished = true) : (roundupLen (headerWord len e)).toNat = totalLen len := by
  have hlen := dataLen_headerWord h hfin
  rw [dataLen, toNat_and_low] at hlen
  rw [roundupLen_toNat, hlen]

/-- The poller at record `read`, and whether its callback has had the record. -/
def PollAwaits (k : Kernel) (read : Nat) (had : Bool) (p : Poller) : Prop :=
  match p.pc with
  | .poll => had = false
  | .loadConsumer => had = false
  | .loadProducer => had = false ∧ p.cons = UInt64.ofNat (startOf k.lens read)
  | .header prod =>
      had = false ∧ p.cons = UInt64.ofNat (startOf k.lens read) ∧
        ∃ j, read < j ∧ j ≤ k.records.length ∧ prod = UInt64.ofNat (startOf k.lens j)
  | .callback prod pos len =>
      had = false ∧ p.cons = UInt64.ofNat (startOf k.lens (read + 1)) ∧
        pos = UInt64.ofNat (startOf k.lens read) ∧ p.gotNewData = true ∧
        (∃ rec bs, k.records[read]? = some rec ∧ len = UInt32.ofNat rec.len ∧
          rec.entry = .submitted bs) ∧
        ∃ j, read < j ∧ j ≤ k.records.length ∧ prod = UInt64.ofNat (startOf k.lens j)
  | .store prod _ =>
      had = true ∧ p.cons = UInt64.ofNat (startOf k.lens (read + 1)) ∧ p.gotNewData = true ∧
        (∃ rec, k.records[read]? = some rec ∧ rec.entry.finished = true) ∧
        ∃ j, read < j ∧ j ≤ k.records.length ∧ prod = UInt64.ofNat (startOf k.lens j)

/-- How far the poller is from the callback for a record that is finished. -/
def Poller.rank (p : Poller) : Nat :=
  match p.pc with
  | .store _ _ => 6
  | .poll => 5
  | .loadConsumer => 4
  | .loadProducer => 3
  | .header _ => 2
  | .callback _ _ _ => 1

section Steps

variable {cb : List UInt8 → Int} {n : Size} {k k' : Kernel} {read : Nat} {had : Bool} {p p' : Poller}
  {ring : Ring} {rec : Record}

/-- The kernel's side does not take back what the poller has seen. -/
theorem pollAwaits_grows (h : Laid n k read) (hgrows : Grows k k') (ha : PollAwaits k read had p) :
    PollAwaits k' read had p := by
  have hstart := hgrows.start read h.read_le
  have hnext : ∀ {rec}, k.records[read]? = some rec →
      startOf k'.lens (read + 1) = startOf k.lens (read + 1) :=
    fun hrec => hgrows.start _ (List.getElem?_eq_some_iff.mp hrec).1
  have hprod : ∀ {prod}, (∃ j, read < j ∧ j ≤ k.records.length ∧ prod = UInt64.ofNat (startOf k.lens j)) →
      ∃ j, read < j ∧ j ≤ k'.records.length ∧ prod = UInt64.ofNat (startOf k'.lens j) := by
    rintro prod ⟨j, hj, hle, hp⟩
    exact ⟨j, hj, Nat.le_trans hle hgrows.length_le, hp.trans (congrArg _ (hgrows.start _ hle).symm)⟩
  simp only [PollAwaits] at ha ⊢
  split <;> rename_i heq <;> simp only [heq, hstart] at ha ⊢
  · exact ha
  · exact ha
  · exact ha
  · exact ⟨ha.1, ha.2.1, hprod ha.2.2⟩
  · obtain ⟨hhad, hcons, hpos, hnew, ⟨rec, bs, hrec, hlen, hsub⟩, hj⟩ := ha
    exact ⟨hhad, hcons.trans (congrArg _ (hnext hrec).symm), hpos, hnew,
      ⟨rec, bs, hgrows.kept _ _ hrec (hsub ▸ rfl), hlen, hsub⟩, hprod hj⟩
  · obtain ⟨hhad, hcons, hnew, ⟨rec, hrec, hfin⟩, hj⟩ := ha
    exact ⟨hhad, hcons.trans (congrArg _ (hnext hrec).symm), hnew,
      ⟨rec, hgrows.kept _ _ hrec hfin, hfin⟩, hprod hj⟩

/-- Positions below 2^64 compare as they are. -/
theorem start_lt_iff (hbelow : k.produced < 2 ^ 64) {i j : Nat} (hi : i ≤ k.records.length)
    (hj : j ≤ k.records.length) :
    UInt64.ofNat (startOf k.lens i) < UInt64.ofNat (startOf k.lens j) ↔ i < j := by
  have hmono : ∀ {i}, i ≤ k.records.length → startOf k.lens i < 2 ^ 64 :=
    fun hi => Nat.lt_of_le_of_lt (startOf_mono hi) hbelow
  rw [UInt64.lt_iff_toNat_lt, UInt64.toNat_ofNat', UInt64.toNat_ofNat', Nat.mod_eq_of_lt (hmono hi),
    Nat.mod_eq_of_lt (hmono hj)]
  constructor
  · intro hlt
    by_contra hge
    have hle : startOf k.lens j ≤ startOf k.lens i := startOf_mono (by omega)
    omega
  · intro hlt
    have hsucc := start_succ (List.getElem?_eq_getElem (show i < k.records.length by omega))
    have hle : startOf k.lens (i + 1) ≤ startOf k.lens j := startOf_mono hlt
    have hge := totalLen_ge (k.records[i]).len
    omega

/-- Where both loops go on from record `read`. -/
theorem pollAwaits_next (hbelow : k.produced < 2 ^ 64) {j : Nat} (hread : read ≤ j)
    (hj : j ≤ k.records.length) (hcons : p.cons = UInt64.ofNat (startOf k.lens read)) :
    PollAwaits k read false { p with pc := p.next (UInt64.ofNat (startOf k.lens j)) } := by
  simp only [Poller.next, hcons, start_lt_iff hbelow (Nat.le_trans hread hj) hj]
  split
  · rename_i hlt
    exact ⟨rfl, rfl, j, hlt, hj, rfl⟩
  · split
    · exact ⟨rfl, rfl⟩
    · rfl

theorem next_rank_lt (prod : UInt64) : ({ p with pc := p.next prod } : Poller).rank < 6 := by
  by_cases hlt : p.cons < prod
  · simp [Poller.rank, Poller.next, hlt]
  · cases hnew : p.gotNewData <;> simp [Poller.rank, Poller.next, hlt, hnew]

/-- The record is still the next one, and nearer to the callback if it is finished. -/
structure Polls (k : Kernel) (read : Nat) (had : Bool) (p : Poller) (ring : Ring) (p' : Poller) :
    Prop where
  not_had : had = false
  ring_eq : ring = k.ring
  delivered : p'.delivered = p.delivered
  awaits : PollAwaits k read had p'
  rank_lt : ∀ rec, k.records[read]? = some rec → rec.entry.finished = true → p'.rank < p.rank

/-- The callback has the record, if it was submitted. -/
structure Calls (k : Kernel) (read : Nat) (had : Bool) (p : Poller) (ring : Ring) (p' : Poller) :
    Prop where
  not_had : had = false
  ring_eq : ring = k.ring
  record : ∃ rec, k.records[read]? = some rec ∧ rec.entry.finished = true ∧
    p'.delivered = p.delivered ++ rec.entry.content.toList
  awaits : PollAwaits k read true p'

/-- The room of the record is free again. -/
structure Frees (k : Kernel) (read : Nat) (had : Bool) (p : Poller) (ring : Ring) (p' : Poller) :
    Prop where
  had : had = true
  ring_eq : ring = { k.ring with consumerPos := UInt64.ofNat (startOf k.lens (read + 1)) }
  record : ∃ rec, k.records[read]? = some rec ∧ rec.entry.finished = true
  delivered : p'.delivered = p.delivered
  awaits : PollAwaits k (read + 1) false p'
  rank_lt : p'.rank < p.rank

/-- The length in the header at the poller's position. -/
theorem Laid.header_len (h : Laid n k read) (hrec : k.records[read]? = some rec) :
    u32At (k.ring.bytesAt n (UInt64.ofNat (startOf k.lens read)) 4) 0
      = headerWord rec.len rec.entry := by
  rw [← h.place read rec hrec]
  exact h.bytesAt_header hrec (Nat.le_refl _)

theorem poller_header (h : Laid n k read) {prod : UInt64} (hpc : p.pc = .header prod)
    (ha : PollAwaits k read had p) :
    ∃ p', pollerStep cb n k.ring p = some (k.ring, p') ∧
      (Polls k read had p k.ring p' ∨ Calls k read had p k.ring p') := by
  simp only [PollAwaits, hpc] at ha
  obtain ⟨rfl, hcons, j, hj, hle, rfl⟩ := ha
  obtain ⟨rec, hrec⟩ : ∃ rec, k.records[read]? = some rec :=
    ⟨_, List.getElem?_eq_getElem (by omega)⟩
  have hsmall := h.small rec (List.mem_of_getElem? hrec)
  have hlen := toNat_ofNat_len hsmall
  have hbusy := isBusy_headerWord hsmall rec.entry
  have hsucc := start_succ hrec
  simp only [pollerStep, hpc, hcons, h.header_len hrec]
  cases hentry : rec.entry with
  | busy =>
      rw [hentry] at hbusy
      rw [hbusy]
      refine ⟨_, rfl, Or.inl ⟨rfl, rfl, rfl, rfl, fun rec' hrec' hfin => ?_⟩⟩
      obtain rfl := Option.some.inj (hrec.symm.trans hrec')
      rw [hentry] at hfin
      cases hfin
  | submitted bs =>
      rw [hentry] at hbusy
      have hdis : isDiscard (headerWord rec.len (.submitted bs)) = false := by
        simp only [isDiscard, headerWord, and_discardBit (hlen.symm ▸ hsmall)]
        rfl
      have hround := roundupLen_headerWord hsmall (e := .submitted bs) rfl
      rw [hbusy, hdis, hround]
      refine ⟨_, rfl, Or.inl ⟨rfl, rfl, rfl, ⟨rfl, ?_, rfl, rfl, ⟨rec, bs, hrec, rfl, hentry⟩, j, hj, hle,
        rfl⟩, fun _ _ _ => ?_⟩⟩
      · rw [pos_add, hsucc]
      · simp [Poller.rank, hpc]
  | discarded =>
      rw [hentry] at hbusy
      have hdis : isDiscard (headerWord rec.len .discarded) = true := by
        simp only [isDiscard, headerWord, or_and_self]
        rfl
      have hround := roundupLen_headerWord hsmall (e := .discarded) rfl
      rw [hbusy, hdis, hround]
      refine ⟨_, rfl, Or.inr ⟨rfl, rfl, ⟨rec, hrec, hentry ▸ rfl, ?_⟩, rfl, ?_, rfl,
        ⟨rec, hrec, hentry ▸ rfl⟩, j, hj, hle, rfl⟩⟩
      · rw [hentry]
        exact (List.append_nil _).symm
      · rw [pos_add, hsucc]

theorem poller_callback (h : Laid n k read) {prod pos : UInt64} {len : UInt32}
    (hpc : p.pc = .callback prod pos len) (ha : PollAwaits k read had p) :
    ∃ p', pollerStep cb n k.ring p = some (k.ring, p') ∧ Calls k read had p k.ring p' := by
  simp only [PollAwaits, hpc] at ha
  obtain ⟨rfl, hcons, rfl, hnew, ⟨rec, bs, hrec, rfl, hentry⟩, hj⟩ := ha
  have hsmall := h.small rec (List.mem_of_getElem? hrec)
  have hlen := toNat_ofNat_len hsmall
  have hbs := h.submitted rec (List.mem_of_getElem? hrec) bs hentry
  have hsample : ringRead n.bytes k.ring.data
      ((UInt64.ofNat (startOf k.lens read) &&& n.mask).toNat + 8) rec.len = bs := by
    rw [Size.mask, Lib.mask_toNat n.log_lt, hbs, ← h.sample read rec (Nat.le_refl _) hrec,
      ← ringRead_mod, ← ringRead_mod (p := startOf k.lens read + 8)]
    exact congrArg (ringRead n.bytes k.ring.data · rec.len) (Nat.mod_add_mod _ _ _)
  simp only [pollerStep, hpc, hlen, hsample]
  refine ⟨_, rfl, rfl, rfl, ⟨rec, hrec, hentry ▸ rfl, ?_⟩, rfl, hcons, hnew,
    ⟨rec, hrec, hentry ▸ rfl⟩, hj⟩
  rw [hentry]
  rfl

/-- A step of the poller, wherever it is. -/
theorem poller_moves (cb : List UInt8 → Int) (h : Laid n k read) (hbelow : k.produced < 2 ^ 64)
    (ha : PollAwaits k read had p) :
    (pollerStep cb n k.ring p = none ∧ had = false ∧ read = k.records.length) ∨
      ∃ ring p', pollerStep cb n k.ring p = some (ring, p') ∧
        (Polls k read had p ring p' ∨ Calls k read had p ring p' ∨ Frees k read had p ring p') := by
  cases hpc : p.pc with
  | poll =>
      simp only [PollAwaits, hpc] at ha
      simp only [pollerStep, hpc, h.produced, h.consumed]
      split
      · rename_i heq
        exact Or.inl ⟨rfl, ha, h.start_inj (Nat.le_refl _) h.read_le (Nat.le_refl _) heq⟩
      · refine Or.inr ⟨_, _, rfl, Or.inl ⟨ha, rfl, rfl, ha, fun _ _ _ => ?_⟩⟩
        simp [Poller.rank, hpc]
  | loadConsumer =>
      simp only [PollAwaits, hpc] at ha
      simp only [pollerStep, hpc]
      refine Or.inr ⟨_, _, rfl, Or.inl ⟨ha, rfl, rfl, ⟨ha, h.consumed⟩, fun _ _ _ => ?_⟩⟩
      simp [Poller.rank, hpc]
  | loadProducer =>
      simp only [PollAwaits, hpc] at ha
      obtain ⟨rfl, hcons⟩ := ha
      simp only [pollerStep, hpc, h.produced]
      refine Or.inr ⟨_, _, rfl, Or.inl ⟨rfl, rfl, rfl,
        pollAwaits_next (p := { p with gotNewData := false }) hbelow h.read_le (Nat.le_refl _) hcons,
        fun rec hrec _ => ?_⟩⟩
      have hlt := (List.getElem?_eq_some_iff.mp hrec).1
      simp [Poller.rank, Poller.next, hpc, hcons, start_lt_iff hbelow h.read_le (Nat.le_refl _), hlt]
  | header prod =>
      obtain ⟨p', hstep, hmoves⟩ := poller_header h hpc ha
      exact Or.inr ⟨_, p', hstep, hmoves.imp_right Or.inl⟩
  | callback prod pos len =>
      obtain ⟨p', hstep, hcalls⟩ := poller_callback h hpc ha
      exact Or.inr ⟨_, p', hstep, Or.inr (Or.inl hcalls)⟩
  | store prod err =>
      simp only [PollAwaits, hpc] at ha
      obtain ⟨rfl, hcons, hnew, ⟨rec, hrec, hfin⟩, j, hj, hle, rfl⟩ := ha
      have hnext := pollAwaits_next hbelow hj hle hcons
      have hrank := next_rank_lt (p := p) (UInt64.ofNat (startOf k.lens j))
      have hsix : p.rank = 6 := by simp [Poller.rank, hpc]
      simp only [pollerStep, hpc]
      split
      · refine Or.inr ⟨_, _, rfl, Or.inr (Or.inr ⟨rfl, by rw [hcons], ⟨rec, hrec, hfin⟩, rfl, rfl, ?_⟩)⟩
        simp [Poller.rank, hpc]
      · exact Or.inr ⟨_, _, rfl, Or.inr (Or.inr ⟨rfl, by rw [hcons], ⟨rec, hrec, hfin⟩, rfl, hnext,
          hsix ▸ hrank⟩)⟩

end Steps

/-! ## Runs -/

/-- The system is at a state of the queue: a record that the callback has had
is taken. -/
structure PollRefines (n : Size) (s : PollSystem) (q : Queue (List UInt8)) (read : Nat) (had : Bool) :
    Prop where
  laid : Laid n s.kernel read
  awaits : PollAwaits s.kernel read had s.poller
  read_eq : q.read = read + had.toNat
  entries : s.kernel.entries = q.entries
  delivered : s.poller.delivered = q.delivered
  inv : QueueInv q

/-- Bytes that were reserved stay reserved. -/
theorem produced_mono {n : Size} {k k' : Kernel} {a : KernelAction}
    (hstep : kernelStep n k a = some k') : k.produced ≤ k'.produced := by
  have hset : ∀ {i : Nat} {r r' : Record} {ring : Ring}, k.records[i]? = some r → r'.len = r.len →
      k.produced ≤ Kernel.produced ⟨ring, k.records.set i r'⟩ := by
    intro i r r' ring hr hlen
    simp only [Kernel.produced, Kernel.lens, lens_set hr hlen, List.length_set]
    exact Nat.le_refl _
  cases a with
  | reserve len pgOff =>
      simp only [kernelStep, Kernel.reserve] at hstep
      split at hstep
      · split at hstep
        · obtain rfl := Option.some.inj hstep
          simp only [Kernel.produced, Kernel.lens, List.map_append, List.length_append]
          refine Nat.le_trans (Nat.le_of_eq ?_) (startOf_mono (Nat.le_add_right _ _))
          exact (startOf_append len (by rw [List.length_map])).symm
        · cases hstep
      · cases hstep
  | write i off bs =>
      simp only [kernelStep, Kernel.write] at hstep
      split at hstep
      · rename_i hr
        split at hstep
        · obtain rfl := Option.some.inj hstep
          exact hset hr rfl
        · cases hstep
      · cases hstep
  | commit i discard =>
      simp only [kernelStep, Kernel.commit] at hstep
      split at hstep
      · rename_i hr
        obtain rfl := Option.some.inj hstep
        exact hset hr rfl
      · cases hstep

section Run

variable {cb : List UInt8 → Int} {n : Size} {s s' : PollSystem} {q : Queue (List UInt8)} {read : Nat}
  {had : Bool}

theorem PollRefines.getElem? (h : PollRefines n s q read had) {i : Nat} {rec : Record}
    (hrec : s.kernel.records[i]? = some rec) : q.entries[i]? = some rec.entry := by
  rw [← h.entries, Kernel.entries, List.getElem?_map, hrec]
  rfl

theorem pollRefines_calls (h : PollRefines n s q read had) {ring : Ring} {p' : Poller}
    (hcalls : Calls s.kernel read had s.poller ring p') :
    ∃ q', queueStep q .take = some q' ∧
      PollRefines n ⟨{ s.kernel with ring := ring }, p'⟩ q' read true := by
  obtain ⟨rfl, rfl, ⟨rec, hrec, hfin, hdel⟩, hawaits⟩ := hcalls
  have hread : q.read = read := h.read_eq
  have hstep : queueStep q .take = some (q.took rec.entry) := by
    simp only [queueStep, hread, h.getElem? hrec, if_pos hfin]
  refine ⟨_, hstep, h.laid, hawaits, ?_, h.entries, ?_, queueInv_step h.inv hstep⟩
  · show q.read + 1 = _
    rw [hread]
    rfl
  · rw [hdel, h.delivered]
    rfl

theorem pollRefines_frees (h : PollRefines n s q read had) {ring : Ring} {p' : Poller}
    (hfrees : Frees s.kernel read had s.poller ring p') :
    PollRefines n ⟨{ s.kernel with ring := ring }, p'⟩ q (read + 1) false := by
  obtain ⟨rfl, rfl, ⟨rec, hrec, hfin⟩, hdel, hawaits, -⟩ := hfrees
  exact ⟨h.laid.advance hrec hfin, hawaits, h.read_eq, h.entries, hdel.trans h.delivered, h.inv⟩

theorem pollRefines_polls (h : PollRefines n s q read had) {ring : Ring} {p' : Poller}
    (hpolls : Polls s.kernel read had s.poller ring p') :
    PollRefines n ⟨{ s.kernel with ring := ring }, p'⟩ q read had := by
  obtain ⟨rfl, rfl, hdel, hawaits, -⟩ := hpolls
  exact ⟨h.laid, hawaits, h.read_eq, h.entries, hdel.trans h.delivered, h.inv⟩

/-- As long as the positions have not come to 2^64, each step is steps of the
queue. -/
theorem pollRefines_step {a : PollAction} (hbelow : s.kernel.produced < 2 ^ 64)
    (h : PollRefines n s q read had) (hstep : pollSystemStep cb n s a = some s') :
    ∃ acts q' read' had', exec queueStep q acts = some q' ∧ PollRefines n s' q' read' had' := by
  cases a with
  | kernel a =>
      obtain ⟨k, hk, rfl⟩ := Option.map_eq_some_iff.mp hstep
      obtain ⟨hlaid, hgrows, acts, hacts⟩ := laid_kernelStep h.laid hk
      -- the queue may be one record further than the consumer's position
      have hexec := hacts q.read q.delivered
      rw [h.entries] at hexec
      exact ⟨acts, _, read, had, hexec, hlaid, pollAwaits_grows h.laid hgrows h.awaits, h.read_eq, rfl,
        h.delivered, exec_invariant (fun _ _ _ => queueInv_step) h.inv hexec⟩
  | poller =>
      obtain ⟨⟨ring, p'⟩, hp, rfl⟩ := Option.map_eq_some_iff.mp hstep
      rcases poller_moves cb h.laid hbelow h.awaits with ⟨hnone, -⟩ | ⟨ring₁, p₁, hsome, hmoves⟩
      · rw [hnone] at hp
        cases hp
      · obtain ⟨rfl, rfl⟩ := Prod.mk.inj (Option.some.inj (hp.symm.trans hsome))
        rcases hmoves with hpolls | hcalls | hfrees
        · exact ⟨[], q, read, had, rfl, pollRefines_polls h hpolls⟩
        · obtain ⟨q', hq, href⟩ := pollRefines_calls h hcalls
          refine ⟨[.take], q', read, true, ?_, href⟩
          exact exec_cons.mpr ⟨_, hq, rfl⟩
        · exact ⟨[], q, read + 1, false, rfl, pollRefines_frees h hfrees⟩

/-- A record that is finished comes to the callback by the poller's own steps. -/
theorem poller_takes {q' : Queue (List UInt8)} (hbelow : s.kernel.produced < 2 ^ 64)
    (h : PollRefines n s q read had) (htake : queueStep q .take = some q') :
    ∃ m s' read' had', exec (pollSystemStep cb n) s (List.replicate m .poller) = some s' ∧
      s'.kernel.produced = s.kernel.produced ∧ PollRefines n s' q' read' had' := by
  induction hrank : s.poller.rank using Nat.strong_induction_on generalizing s read had with
  | _ rank ih =>
      have hlt : q.read < s.kernel.records.length := by
        by_contra hge
        have hnone : q.entries[q.read]? = none := by
          rw [← h.entries, Kernel.entries, List.getElem?_map, List.getElem?_eq_none (by omega)]
          rfl
        rw [queueStep, hnone] at htake
        cases htake
      have hfin : (s.kernel.records[q.read]).entry.finished = true := by
        rw [queueStep, h.getElem? (List.getElem?_eq_getElem hlt)] at htake
        by_contra hbusy
        simp [hbusy] at htake
      have hread := h.read_eq
      rcases poller_moves cb h.laid hbelow h.awaits with ⟨-, rfl, hend⟩ | ⟨ring, p', hstep, hmoves⟩
      · have hzero : false.toNat = 0 := rfl
        omega
      · have hsys : pollSystemStep cb n s .poller = some ⟨{ s.kernel with ring := ring }, p'⟩ := by
          simp only [pollSystemStep, hstep, Option.map_some]
        rcases hmoves with hpolls | hcalls | hfrees
        · obtain rfl := hpolls.not_had
          have hhere : q.read = read := hread
          subst hhere
          have hless := hpolls.rank_lt _ (List.getElem?_eq_getElem hlt) hfin
          obtain ⟨m, s', read', had', hexec, hprod, href⟩ :=
            ih _ (hrank ▸ hless) (s := ⟨{ s.kernel with ring := ring }, p'⟩) hbelow
              (pollRefines_polls h hpolls) rfl
          refine ⟨m + 1, s', read', had', ?_, hprod, href⟩
          rw [List.replicate_succ]
          exact exec_cons.mpr ⟨_, hsys, hexec⟩
        · obtain ⟨q₁, hq₁, href⟩ := pollRefines_calls h hcalls
          obtain rfl := Option.some.inj (hq₁.symm.trans htake)
          refine ⟨1, ⟨{ s.kernel with ring := ring }, p'⟩, read, true, ?_, rfl, href⟩
          exact exec_cons.mpr ⟨_, hsys, rfl⟩
        · obtain ⟨m, s', read', had', hexec, hprod, href⟩ :=
            ih _ (hrank ▸ hfrees.rank_lt) (s := ⟨{ s.kernel with ring := ring }, p'⟩) hbelow
              (pollRefines_frees h hfrees) rfl
          refine ⟨m + 1, s', read', had', ?_, hprod, href⟩
          rw [List.replicate_succ]
          exact exec_cons.mpr ⟨_, hsys, hexec⟩

/-- The system at a state of the queue, with positions below 2^64. -/
def PollsAt (n : Size) (s : PollSystem) (q : Queue (List UInt8)) : Prop :=
  s.kernel.produced < 2 ^ 64 ∧ ∃ read had, PollRefines n s q read had

theorem pollsAt_takes {q' : Queue (List UInt8)} (h : PollsAt n s q)
    (htake : queueStep q .take = some q') :
    ∃ m s', exec (pollSystemStep cb n) s (List.replicate m .poller) = some s' ∧ PollsAt n s' q' := by
  obtain ⟨hlt, read, had, href⟩ := h
  obtain ⟨m, s', read', had', hexec, hprod, href'⟩ := poller_takes hlt href htake
  exact ⟨m, s', hexec, hprod ▸ hlt, read', had', href'⟩

/-- A run is one of the queue unless the positions have come to 2^64. -/
theorem exec_poll_refines {data : Nat → UInt8} {tr : List PollAction}
    (h : exec (pollSystemStep cb n) (PollSystem.init data) tr = some s)
    (hbelow : s.kernel.produced < 2 ^ 64) :
    ∃ q read had, PollRefines n s q read had := by
  have hinit : PollRefines n (PollSystem.init data) Queue.init 0 false :=
    ⟨laid_init n data, rfl, rfl, rfl, rfl, queueInv_init⟩
  have hrun : 2 ^ 64 ≤ s.kernel.produced ∨ ∃ q read had, PollRefines n s q read had := by
    refine exec_invariant
      (I := fun s => 2 ^ 64 ≤ s.kernel.produced ∨ ∃ q read had, PollRefines n s q read had)
      (fun s a s' hs hstep => ?_) (Or.inr ⟨_, _, _, hinit⟩) h
    rcases Nat.lt_or_ge s.kernel.produced (2 ^ 64) with hlt | hge
    · rcases hs with hge | ⟨q, read, had, href⟩
      · omega
      · obtain ⟨-, q', read', had', -, href'⟩ := pollRefines_step hlt href hstep
        exact Or.inr ⟨q', read', had', href'⟩
    · left
      cases a with
      | kernel a =>
          obtain ⟨k, hk, rfl⟩ := Option.map_eq_some_iff.mp hstep
          exact Nat.le_trans hge (produced_mono hk)
      | poller =>
          obtain ⟨p, -, rfl⟩ := Option.map_eq_some_iff.mp hstep
          exact hge
  rcases hrun with hge | href
  · omega
  · exact href

/-- What was delivered, in terms of the records. -/
theorem PollRefines.taken {read : Nat} {had : Bool} (h : PollRefines n s q read had) :
    q.read ≤ s.kernel.records.length ∧
      (∀ e ∈ s.kernel.entries.take q.read, e.finished = true) ∧
      s.poller.delivered = (s.kernel.entries.take q.read).filterMap Entry.content := by
  have hlen : q.entries.length = s.kernel.records.length := by
    rw [← h.entries, Kernel.entries, List.length_map]
  refine ⟨hlen ▸ h.inv.read_le, ?_, ?_⟩
  · rw [h.entries]
    exact h.inv.finished
  · rw [h.delivered, h.entries]
    exact h.inv.delivered

theorem PollsAt.drains (h : PollsAt n s q) :
    ∃ m s', exec (pollSystemStep cb n) s (List.replicate m .poller) = some s' ∧
      s'.kernel.entries = s.kernel.entries ∧
      s'.poller.delivered
        = (s.kernel.entries.takeWhile Entry.finished).filterMap Entry.content := by
  obtain ⟨hbelow, read, had, href⟩ := h
  -- the poller does not reserve anything, so the bound goes along
  obtain ⟨m, s', q', hexec, ⟨-, _, _, href'⟩, hentries, hdel⟩ :=
    Lib.drains (fun _ _ hat => let ⟨_, _, _, href⟩ := hat; href.inv) (fun _ _ _ => pollsAt_takes)
      (show PollsAt n s q from ⟨hbelow, read, had, href⟩)
  refine ⟨m, s', hexec, ?_, ?_⟩
  · rw [href'.entries, hentries, href.entries]
  · rw [href'.delivered, hdel, href.entries]
    rfl

end Run

/-- As long as fewer than 2^64 bytes were reserved: the callback has had what was
submitted, in the order of the reservations, up to the record the call is at;
whatever the callback returns, and whatever the kernel's side does meanwhile. -/
theorem polls_in_order {cb : List UInt8 → Int} {n : Size} {data : Nat → UInt8}
    {tr : List PollAction} {s : PollSystem}
    (h : exec (pollSystemStep cb n) (PollSystem.init data) tr = some s)
    (hbelow : s.kernel.produced < 2 ^ 64) :
    ∃ read ≤ s.kernel.records.length,
      (∀ e ∈ s.kernel.entries.take read, e.finished = true) ∧
      s.poller.delivered = (s.kernel.entries.take read).filterMap Entry.content := by
  obtain ⟨q, read, had, href⟩ := exec_poll_refines h hbelow
  exact ⟨q.read, href.taken⟩

/-- The first of three records is discarded and the last one stays busy; the
callback refuses all it gets. -/
def lastBusy : List PollAction :=
  [.kernel (.reserve 5 0), .kernel (.reserve 4 1), .kernel (.reserve 0 2),
    .kernel (.write 1 0 [1, 2, 3, 4]), .kernel (.commit 0 true), .kernel (.commit 1 false)]

theorem polls_in_order_lastBusy :
    ∃ s, exec (pollSystemStep (fun _ => -1) page) (PollSystem.init fun _ => 0)
        (lastBusy ++ List.replicate 7 .poller) = some s ∧
      ∃ read ≤ s.kernel.records.length,
        (∀ e ∈ s.kernel.entries.take read, e.finished = true) ∧
        s.poller.delivered = (s.kernel.entries.take read).filterMap Entry.content := by
  have hruns : ((exec (pollSystemStep (fun _ => -1) page) (PollSystem.init fun _ => 0)
      (lastBusy ++ List.replicate 7 .poller)).any fun s => s.kernel.produced < 2 ^ 64) = true := by
    decide +kernel
  obtain ⟨s, hs, hbelow⟩ := (Option.any_eq_true _ _).mp hruns
  exact ⟨s, hs, polls_in_order hs (of_decide_eq_true hbelow)⟩

/-- Polling goes on until the first busy record. -/
theorem polls_on {cb : List UInt8 → Int} {n : Size} {data : Nat → UInt8}
    {tr : List PollAction} {s : PollSystem}
    (h : exec (pollSystemStep cb n) (PollSystem.init data) tr = some s)
    (hbelow : s.kernel.produced < 2 ^ 64) :
    ∃ m s', exec (pollSystemStep cb n) s (List.replicate m .poller) = some s' ∧
      s'.kernel.entries = s.kernel.entries ∧
      s'.poller.delivered = (s.kernel.entries.takeWhile Entry.finished).filterMap Entry.content := by
  obtain ⟨q, read, had, href⟩ := exec_poll_refines h hbelow
  exact PollsAt.drains (q := q) ⟨hbelow, read, had, href⟩

theorem polls_on_lastBusy :
    ∃ s, exec (pollSystemStep (fun _ => -1) page) (PollSystem.init fun _ => 0) lastBusy = some s ∧
      ∃ m s', exec (pollSystemStep (fun _ => -1) page) s (List.replicate m .poller) = some s' ∧
        s'.kernel.entries = s.kernel.entries ∧
        s'.poller.delivered
          = (s.kernel.entries.takeWhile Entry.finished).filterMap Entry.content := by
  have hruns : ((exec (pollSystemStep (fun _ => -1) page) (PollSystem.init fun _ => 0)
      lastBusy).any fun s => s.kernel.produced < 2 ^ 64) = true := by decide +kernel
  obtain ⟨s, hs, hbelow⟩ := (Option.any_eq_true _ _).mp hruns
  exact ⟨s, hs, polls_on hs (of_decide_eq_true hbelow)⟩

end NetProbes.RingBuffer
