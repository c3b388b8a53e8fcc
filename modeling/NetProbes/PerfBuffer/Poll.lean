/-
# `NetProbes.PerfBuffer.Poll` — polling the buffers of all CPUs

`perf_buffer__poll` handles the CPUs that `epoll_wait` names, one after the
other (`perf_event_read_simple`):

    head = data_head, tail = data_tail
    while head ≠ tail    the record at `tail` is handed over, `tail` goes on
    data_tail = tail

A record of an unknown type ends the poll, and so does one that has to be
copied when there is no memory.  Between any two accesses the kernel may write
to any buffer (`perfStep`).

    handed_in_order   what a CPU's buffer has had is handed over in its order,
                      each record once, and what the kernel could not put there
                      is counted
    poll_complete     one poll hands over all that is in the buffers it is for
-/
import NetProbes.PerfBuffer.Buffer

namespace NetProbes.PerfBuffer

open NetProbes.Lib
open NetProbes.RingBuffer (Size page)

/-! ## The reader -/

/-- Where `perf_buffer__poll` is: the CPU it is at, with `data_head` and
`data_tail`, and those it still has to do. -/
inductive Pc where
  | returned (err : Option EventRet)
  | next (ready : List Nat)
  | loop (cpu : Nat) (ready : List Nat) (head tail : UInt64)
  | finish (cpu : Nat) (ready : List Nat) (tail : UInt64) (ret : EventRet)
  | failed
  deriving DecidableEq

/-- The buffers, the reader, and the callbacks with their CPUs so far. -/
structure Perf where
  cpus : List Cpu
  pc : Pc
  out : List (Nat × Callback)

/-- The next access. -/
def pollStep (n : Size) (alloc : Bool) (s : Perf) : Option Perf :=
  match s.pc with
  | .returned _ => none
  | .next [] => some { s with pc := .returned none }
  | .next (i :: ready) =>
      match s.cpus[i]? with
      | some c => some { s with pc := .loop i ready c.dataHead c.dataTail }
      | none => none
  | .loop i ready head tail =>
      match s.cpus[i]? with
      | some c =>
          if head = tail then some { s with pc := .finish i ready tail .cont }
          else
            match c.fetch n tail alloc with
            | .outside => some { s with pc := .failed }
            | .noMemory =>
                some { s with
                  cpus := s.cpus.set i { c with copySize := 0 }
                  pc := .finish i ready tail .error }
            | .record copySize ehdr =>
                let (cb, ret) := processRecord ehdr
                let tail := tail + UInt64.ofNat ehdr.length
                some {
                  cpus := s.cpus.set i { c with copySize := copySize }
                  pc := if ret = .cont then .loop i ready head tail else .finish i ready tail ret
                  out := s.out ++ [(i, cb)] }
      | none => none
  | .finish i ready tail ret =>
      match s.cpus[i]? with
      | some c => some { s with
          cpus := s.cpus.set i { c with dataTail := tail }
          pc := if ret = .cont then .next ready else .returned (some ret) }
      | none => none
  | .failed => none

/-- `wait ready` is a call of `perf_buffer__poll` whose `epoll_wait` names
these CPUs. -/
inductive Action where
  | kernel (i : Nat) (a : KernelAction)
  | wait (ready : List Nat)
  | poll (alloc : Bool)

def perfStep (n : Size) (s : Perf) : Action → Option Perf
  | .kernel i a =>
      match s.cpus[i]? with
      | some c => (kernelStep n c a).map fun c => { s with cpus := s.cpus.set i c }
      | none => none
  | .wait ready =>
      match s.pc with
      | .returned _ =>
          if ∀ i ∈ ready, i < s.cpus.length then some { s with pc := .next ready } else none
      | _ => none
  | .poll alloc => pollStep n alloc s

def Perf.init (data : List (Nat → UInt8)) : Perf := ⟨data.map Cpu.init, .returned none, []⟩

/-- What was handed over of a CPU. -/
def handedBy (out : List (Nat × Callback)) (i : Nat) : List Callback :=
  (out.filter fun e => e.1 = i).map Prod.snd

/-! ## All buffers -/

def Pc.loc : Pc → Nat → Loc
  | .loop cpu _ head tail, i => if i = cpu then .reading head tail else .rest
  | .finish cpu _ tail _, i => if i = cpu then .done tail else .rest
  | _, _ => .rest

/-- The CPUs are there. -/
def Pc.Within (m : Nat) : Pc → Prop
  | .returned _ => True
  | .next ready => ∀ i ∈ ready, i < m
  | .loop cpu ready _ _ => cpu < m ∧ ∀ i ∈ ready, i < m
  | .finish cpu ready _ _ => cpu < m ∧ ∀ i ∈ ready, i < m
  | .failed => False

structure PerfInv (n : Size) (s : Perf) : Prop where
  within : s.pc.Within s.cpus.length
  cpu : ∀ (i : Nat) (c : Cpu), s.cpus[i]? = some c →
    CpuInv n (s.pc.loc i) (handedBy s.out i) c

section System

variable {n : Size} {s s' : Perf}

theorem handedBy_append (out : List (Nat × Callback)) (cb : Callback) (i j : Nat) :
    handedBy (out ++ [(i, cb)]) j = handedBy out j ++ if i = j then [cb] else [] := by
  by_cases h : i = j
  · simp [handedBy, h]
  · simp [handedBy, h]

/-- A step at buffer `i` that leaves the others. -/
theorem PerfInv.change (h : PerfInv n s) {i : Nat} {c c' : Cpu} (hc : s.cpus[i]? = some c)
    {pc : Pc} {out : List (Nat × Callback)} (hwithin : pc.Within s.cpus.length)
    (hself : CpuInv n (pc.loc i) (handedBy out i) c')
    (hother : ∀ j ≠ i, pc.loc j = s.pc.loc j ∧ handedBy out j = handedBy s.out j) :
    PerfInv n ⟨s.cpus.set i c', pc, out⟩ where
  within := by
    rw [List.length_set]
    exact hwithin
  cpu j d hd := by
    by_cases hij : i = j
    · subst hij
      rw [List.getElem?_set_self (List.getElem?_eq_some_iff.mp hc).1] at hd
      obtain rfl := Option.some.inj hd
      exact hself
    · rw [List.getElem?_set_ne hij] at hd
      obtain ⟨hloc, hout⟩ := hother j (Ne.symm hij)
      rw [hloc, hout]
      exact h.cpu j d hd

theorem perfInv_init (n : Size) (data : List (Nat → UInt8)) : PerfInv n (Perf.init data) where
  within := trivial
  cpu i c hc := by
    obtain ⟨d, -, rfl⟩ := List.mem_map.mp (List.mem_of_getElem? hc)
    exact cpuInv_init n d

/-- What one step of the reader does. -/
theorem pollStep_cases (h : PerfInv n s) {alloc : Bool} (hstep : pollStep n alloc s = some s') :
    s.pc = .next [] ∧ s' = { s with pc := .returned none } ∨
    (∃ i ready c, s.pc = .next (i :: ready) ∧ s.cpus[i]? = some c ∧
      s' = { s with pc := .loop i ready c.dataHead c.dataTail }) ∨
    (∃ i ready tail c, s.pc = .loop i ready tail tail ∧ s.cpus[i]? = some c ∧
      s' = { s with pc := .finish i ready tail .cont }) ∨
    (∃ i ready head tail c r copySize, s.pc = .loop i ready head tail ∧ head ≠ tail ∧
      s.cpus[i]? = some c ∧ c.records[(handedBy s.out i).length]? = some r ∧
      s' = ⟨s.cpus.set i { c with copySize := copySize },
        if r.ret = .cont then .loop i ready head (tail + UInt64.ofNat r.bytes.length)
        else .finish i ready (tail + UInt64.ofNat r.bytes.length) r.ret,
        s.out ++ [(i, r.callback)]⟩) ∨
    (∃ i ready head tail c, alloc = false ∧ s.pc = .loop i ready head tail ∧
      s.cpus[i]? = some c ∧
      s' = ⟨s.cpus.set i { c with copySize := 0 }, .finish i ready tail .error, s.out⟩) ∨
    (∃ i ready tail ret c, s.pc = .finish i ready tail ret ∧ s.cpus[i]? = some c ∧
      s' = ⟨s.cpus.set i { c with dataTail := tail },
        if ret = .cont then .next ready else .returned (some ret), s.out⟩) := by
  unfold pollStep at hstep
  split at hstep
  · cases hstep
  · rename_i hpc
    exact Or.inl ⟨hpc, (Option.some.inj hstep).symm⟩
  · rename_i i ready hpc
    split at hstep
    · rename_i c hc
      exact Or.inr (Or.inl ⟨i, ready, c, hpc, hc, (Option.some.inj hstep).symm⟩)
    · cases hstep
  · rename_i i ready head tail hpc
    split at hstep
    · rename_i c hc
      split at hstep
      · rename_i heq
        subst heq
        exact Or.inr (Or.inr (Or.inl ⟨i, ready, head, c, hpc, hc, (Option.some.inj hstep).symm⟩))
      · rename_i hne
        have hinv := h.cpu i c hc
        rw [hpc, Pc.loc, if_pos rfl] at hinv
        obtain ⟨r, hr, -⟩ := cpuInv_record hinv hne
        obtain ⟨htail, -⟩ := hinv.at_
        rw [htail] at hstep
        rcases hinv.fetch_eq hr alloc with ⟨copySize, hfetch⟩ | ⟨halloc, hfetch⟩
        · rw [hfetch] at hstep
          simp only [processRecord_bytes (hinv.valid r (List.mem_of_getElem? hr))] at hstep
          rw [← htail] at hstep
          exact Or.inr (Or.inr (Or.inr (Or.inl
            ⟨i, ready, head, tail, c, r, copySize, hpc, hne, hc, hr, (Option.some.inj hstep).symm⟩)))
        · rw [hfetch, ← htail] at hstep
          exact Or.inr (Or.inr (Or.inr (Or.inr (Or.inl
            ⟨i, ready, head, tail, c, halloc, hpc, hc, (Option.some.inj hstep).symm⟩))))
    · cases hstep
  · rename_i i ready tail ret hpc
    split at hstep
    · rename_i c hc
      exact Or.inr (Or.inr (Or.inr (Or.inr (Or.inr
        ⟨i, ready, tail, ret, c, hpc, hc, (Option.some.inj hstep).symm⟩))))
    · cases hstep
  · cases hstep

theorem perfInv_pollStep (h : PerfInv n s) {alloc : Bool} (hstep : pollStep n alloc s = some s') :
    PerfInv n s' := by
  have hwithin := h.within
  have hcpu := h.cpu
  rcases pollStep_cases h hstep with ⟨hpc, rfl⟩ | ⟨i, ready, c, hpc, hc, rfl⟩ |
    ⟨i, ready, tail, c, hpc, hc, rfl⟩ |
    ⟨i, ready, head, tail, c, r, copySize, hpc, hne, hc, hr, rfl⟩ |
    ⟨i, ready, head, tail, c, -, hpc, hc, rfl⟩ | ⟨i, ready, tail, ret, c, hpc, hc, rfl⟩
  all_goals rw [hpc] at hwithin hcpu
  · exact ⟨trivial, hcpu⟩
  · -- the positions are loaded
    refine ⟨⟨hwithin i List.mem_cons_self, fun j hj => hwithin j (List.mem_cons_of_mem _ hj)⟩,
      fun j d hd => ?_⟩
    have hrest := hcpu j d hd
    rw [Pc.loc]
    split
    · rename_i hij
      subst hij
      obtain rfl := Option.some.inj (hc.symm.trans hd)
      exact cpuInv_open hrest
    · exact hrest
  · -- nothing is left
    refine ⟨hwithin, fun j d hd => ?_⟩
    have hold := hcpu j d hd
    simp only [Pc.loc] at hold ⊢
    split
    · rename_i hij
      rw [if_pos hij] at hold
      exact cpuInv_finish hold d.copySize
    · rename_i hij
      rw [if_neg hij] at hold
      exact hold
  · -- a record is handed over
    have hold := hcpu i c hc
    rw [Pc.loc, if_pos rfl] at hold
    obtain ⟨r', hr', hnew⟩ := cpuInv_record hold hne
    obtain rfl := Option.some.inj (hr'.symm.trans hr)
    have hnew := hnew copySize
    refine h.change hc ?_ ?_ fun j hj => ⟨?_, ?_⟩
    · split <;> exact hwithin
    · rw [handedBy_append, if_pos rfl]
      split
      · rw [Pc.loc, if_pos rfl]
        exact hnew
      · rw [Pc.loc, if_pos rfl]
        exact cpuInv_finish hnew copySize
    · rw [hpc]
      split <;> simp only [Pc.loc, if_neg hj]
    · rw [handedBy_append, if_neg (Ne.symm hj), List.append_nil]
  · -- there is no memory: the record stays where it is
    have hold := hcpu i c hc
    rw [Pc.loc, if_pos rfl] at hold
    refine h.change hc hwithin ?_ fun j hj => ⟨?_, rfl⟩
    · rw [Pc.loc, if_pos rfl]
      exact cpuInv_finish hold 0
    · rw [hpc, Pc.loc, Pc.loc, if_neg hj, if_neg hj]
  · -- `data_tail` is stored
    have hold := hcpu i c hc
    rw [Pc.loc, if_pos rfl] at hold
    have hnew := cpuInv_close hold
    refine h.change hc ?_ ?_ fun j hj => ⟨?_, rfl⟩
    · split
      · exact hwithin.2
      · trivial
    · split <;> exact hnew
    · rw [hpc, Pc.loc, if_neg hj]
      split <;> rfl

/-- The reader leaves what the kernel did. -/
theorem pollStep_keeps (h : PerfInv n s) {alloc : Bool} (hstep : pollStep n alloc s = some s')
    {i : Nat} {c' : Cpu} (hc' : s'.cpus[i]? = some c') :
    ∃ c, s.cpus[i]? = some c ∧ c'.records = c.records ∧ c'.dropped = c.dropped := by
  have hset : ∀ {j : Nat} {c d : Cpu}, s.cpus[j]? = some c → (s.cpus.set j d)[i]? = some c' →
      d.records = c.records → d.dropped = c.dropped →
      ∃ c, s.cpus[i]? = some c ∧ c'.records = c.records ∧ c'.dropped = c.dropped := by
    intro j c d hc hget hrecords hdropped
    by_cases hij : j = i
    · subst hij
      rw [List.getElem?_set_self (List.getElem?_eq_some_iff.mp hc).1] at hget
      obtain rfl := Option.some.inj hget
      exact ⟨c, hc, hrecords, hdropped⟩
    · rw [List.getElem?_set_ne hij] at hget
      exact ⟨c', hget, rfl, rfl⟩
  rcases pollStep_cases h hstep with ⟨-, rfl⟩ | ⟨j, ready, c, -, hc, rfl⟩ |
    ⟨j, ready, tail, c, -, hc, rfl⟩ | ⟨j, ready, head, tail, c, r, copySize, -, -, hc, -, rfl⟩ |
    ⟨j, ready, head, tail, c, -, -, hc, rfl⟩ | ⟨j, ready, tail, ret, c, -, hc, rfl⟩
  · exact ⟨c', hc', rfl, rfl⟩
  · exact ⟨c', hc', rfl, rfl⟩
  · exact ⟨c', hc', rfl, rfl⟩
  · exact hset hc hc' rfl rfl
  · exact hset hc hc' rfl rfl
  · exact hset hc hc' rfl rfl

/-- What the reader hands over is in a buffer. -/
theorem pollStep_out (h : PerfInv n s) {alloc : Bool} (hstep : pollStep n alloc s = some s')
    {o : Nat × Callback} (ho : o ∈ s'.out) :
    o ∈ s.out ∨ ∃ c, s.cpus[o.1]? = some c ∧ ∃ r ∈ c.records, o.2 = r.callback := by
  rcases pollStep_cases h hstep with ⟨-, rfl⟩ | ⟨i, ready, c, -, -, rfl⟩ |
    ⟨i, ready, tail, c, -, -, rfl⟩ | ⟨i, ready, head, tail, c, r, copySize, -, -, hc, hr, rfl⟩ |
    ⟨i, ready, head, tail, c, -, -, -, rfl⟩ | ⟨i, ready, tail, ret, c, -, -, rfl⟩
  · exact Or.inl ho
  · exact Or.inl ho
  · exact Or.inl ho
  · rcases List.mem_append.mp ho with hold | hnew
    · exact Or.inl hold
    · obtain rfl := List.mem_singleton.mp hnew
      exact Or.inr ⟨c, hc, r, List.mem_of_getElem? hr, rfl⟩
  · exact Or.inl ho
  · exact Or.inl ho

theorem perfInv_step {a : Action} (h : PerfInv n s) (hstep : perfStep n s a = some s') :
    PerfInv n s' := by
  cases a with
  | kernel i a =>
      simp only [perfStep] at hstep
      split at hstep
      · rename_i c hc
        obtain ⟨c', hc', rfl⟩ := Option.map_eq_some_iff.mp hstep
        exact h.change hc h.within (cpuInv_kernelStep (h.cpu i c hc) hc') fun _ _ => ⟨rfl, rfl⟩
      · cases hstep
  | wait ready =>
      simp only [perfStep] at hstep
      split at hstep
      · rename_i err hpc
        split at hstep
        · rename_i hready
          obtain rfl := Option.some.inj hstep
          have hcpu := h.cpu
          rw [hpc] at hcpu
          exact ⟨hready, hcpu⟩
        · cases hstep
      · cases hstep
  | poll alloc => exact perfInv_pollStep h hstep

end System

theorem exec_perfInv {n : Size} {data : List (Nat → UInt8)} {tr : List Action} {s : Perf}
    (h : exec (perfStep n) (Perf.init data) tr = some s) : PerfInv n s :=
  exec_invariant (fun _ _ _ => perfInv_step) (perfInv_init n data) h

/-- Whatever the order of the steps, and wherever memory or the type of a
record ends a poll: what was handed over of a CPU are the first records of its
buffer, in their order and each once, and the samples that were dropped there
are said to be lost in its records, or are still to be said. -/
theorem handed_in_order {n : Size} {data : List (Nat → UInt8)} {tr : List Action} {s : Perf}
    (h : exec (perfStep n) (Perf.init data) tr = some s) :
    s.pc ≠ .failed ∧ ∀ (i : Nat) (c : Cpu), s.cpus[i]? = some c →
      (∃ k ≤ c.records.length, handedBy s.out i = (c.records.take k).map Rec.callback) ∧
      UInt64.ofNat c.dropped.length = c.lost + (c.records.map Rec.lostCount).sum := by
  have hinv := exec_perfInv h
  refine ⟨fun hpc => ?_, fun i c hc => ?_⟩
  · have hwithin := hinv.within
    rw [hpc] at hwithin
    exact hwithin
  · have hcpu := hinv.cpu i c hc
    exact ⟨⟨_, hcpu.handed_le, hcpu.first⟩, hcpu.dropped⟩

/-- CPU 1 loses a sample, and a poll finds no memory to speak of, which it does
not need.  The second record of CPU 0 goes across the end of its memory: the
poll that is to copy it fails, the next one has memory. -/
def twoCpus : List Action :=
  let lossy : List Action :=
    [.kernel 0 (.sample 0 (List.replicate 2500 1)), .kernel 1 (.drop [5]), .wait [1, 0],
      .kernel 1 (.lost 0 7 []), .poll false, .kernel 1 (.sample 0 [6, 7, 8, 9])]
  let wrapped : List Action :=
    [.kernel 0 (.sample 0 (List.replicate 2500 2)), .wait [0], .poll false, .poll false,
      .poll false, .wait [0]]
  lossy ++ List.replicate 8 (.poll false) ++ wrapped ++ List.replicate 5 (.poll true)

/-- The poll in the middle ends with an error. -/
example : ((exec (perfStep page) (Perf.init [fun _ => 0, fun _ => 255]) (twoCpus.take 19)).map
    Perf.pc) = some (.returned (some .error)) := by decide +kernel

def twoBuffers : Perf := Perf.init [fun _ => 0, fun _ => 255]

theorem handed_in_order_twoCpus :
    ∃ s, exec (perfStep page) twoBuffers twoCpus = some s ∧
      (s.pc ≠ .failed ∧ ∀ (i : Nat) (c : Cpu), s.cpus[i]? = some c →
        (∃ k ≤ c.records.length, handedBy s.out i = (c.records.take k).map Rec.callback) ∧
        UInt64.ofNat c.dropped.length = c.lost + (c.records.map Rec.lostCount).sum) := by
  have hruns : (exec (perfStep page) twoBuffers twoCpus).isSome = true := by decide +kernel
  obtain ⟨s, hs⟩ := Option.isSome_iff_exists.mp hruns
  exact ⟨s, hs, handed_in_order hs⟩

/-! ## One poll -/

/-- The records of each buffer. -/
def Perf.records (s : Perf) : List (List Rec) := s.cpus.map Cpu.records

/-- All that is in buffer `i` is handed over. -/
def Perf.Empty (s : Perf) (i : Nat) : Prop :=
  ∀ rs, s.records[i]? = some rs → handedBy s.out i = rs.map Rec.callback

section Poll

variable {n : Size} {s : Perf} {i : Nat} {c : Cpu} {ready : List Nat}

theorem records_getElem? (hc : s.cpus[i]? = some c) : s.records[i]? = some c.records := by
  rw [Perf.records, List.getElem?_map, hc]
  rfl

/-- The reader does not change the records. -/
theorem records_set (hc : s.cpus[i]? = some c) {c' : Cpu} (h : c'.records = c.records) :
    (s.cpus.set i c').map Cpu.records = s.records := by
  obtain ⟨hi, hget⟩ := List.getElem?_eq_some_iff.mp (records_getElem? hc)
  rw [List.map_set, h, ← hget]
  exact List.set_getElem_self hi

theorem poll_record (h : PerfInv n s) {head tail : UInt64} (hpc : s.pc = .loop i ready head tail)
    (hc : s.cpus[i]? = some c) (hne : head ≠ tail) (hknown : ∀ r ∈ c.records, r.ret = .cont) :
    ∃ r copySize, c.records[(handedBy s.out i).length]? = some r ∧
      pollStep n true s = some ⟨s.cpus.set i { c with copySize := copySize },
        .loop i ready head (tail + UInt64.ofNat r.bytes.length), s.out ++ [(i, r.callback)]⟩ := by
  have hinv := h.cpu i c hc
  rw [hpc, Pc.loc, if_pos rfl] at hinv
  obtain ⟨r, hr, -⟩ := cpuInv_record hinv hne
  have hmem := List.mem_of_getElem? hr
  obtain ⟨htail, -⟩ := hinv.at_
  rcases hinv.fetch_eq hr true with ⟨copySize, hfetch⟩ | ⟨hno, -⟩
  · rw [← htail] at hfetch
    refine ⟨r, copySize, hr, ?_⟩
    simp only [pollStep, hpc, hc, if_neg hne, hfetch, processRecord_bytes (hinv.valid r hmem),
      hknown r hmem]
    rfl
  · cases hno

/-- The loop goes on to the position that was loaded. -/
theorem loop_empties (h : PerfInv n s) {head tail : UInt64} {m : Nat}
    (hpc : s.pc = .loop i ready head tail) (hc : s.cpus[i]? = some c)
    (hknown : ∀ r ∈ c.records, r.ret = .cont)
    (hhead : head = UInt64.ofNat (startOf c.records c.records.length))
    (hleft : c.records.length - (handedBy s.out i).length = m) :
    ∃ k s', exec (perfStep n) s (List.replicate k (.poll true)) = some s' ∧ PerfInv n s' ∧
      s'.pc = .next ready ∧ s'.records = s.records ∧ s'.Empty i ∧
      ∀ j ≠ i, handedBy s'.out j = handedBy s.out j := by
  have hcpu : ∀ {s : Perf} {c : Cpu} {tail}, PerfInv n s → s.pc = .loop i ready head tail →
      s.cpus[i]? = some c → CpuInv n (.reading head tail) (handedBy s.out i) c := by
    intro s c tail h hpc hc
    have hinv := h.cpu i c hc
    rw [hpc, Pc.loc, if_pos rfl] at hinv
    exact hinv
  induction m generalizing s c tail with
  | zero =>
      have hinv := hcpu h hpc hc
      have hle := hinv.handed_le
      have hlen : c.records.length = (handedBy s.out i).length := by omega
      obtain rfl := (hinv.reading_eq_iff hhead).mpr hlen
      have hfirst : pollStep n true s = some { s with pc := .finish i ready head .cont } := by
        simp only [pollStep, hpc, hc, if_true]
      have hinv₁ := perfInv_pollStep h hfirst
      have hsecond : pollStep n true { s with pc := .finish i ready head .cont }
          = some ⟨s.cpus.set i { c with dataTail := head }, .next ready, s.out⟩ := by
        simp only [pollStep, hc]
        rfl
      have hrecords : (s.cpus.set i { c with dataTail := head }).map Cpu.records = s.records :=
        records_set hc rfl
      refine ⟨2, _, ?_, perfInv_pollStep hinv₁ hsecond, rfl, hrecords, fun rs hrs => ?_,
        fun _ _ => rfl⟩
      · rw [List.replicate_succ, List.replicate_one, exec_step hfirst, exec_step hsecond]
        rfl
      · have hrs' : s.records[i]? = some rs := hrecords ▸ hrs
        rw [records_getElem? hc] at hrs'
        obtain rfl := Option.some.inj hrs'
        show handedBy s.out i = _
        rw [hinv.first, ← hlen, List.take_length]
  | succ m ih =>
      have hne : head ≠ tail := fun heq => by
        have hlen := ((hcpu h hpc hc).reading_eq_iff hhead).mp heq
        omega
      obtain ⟨r, copySize, hr, hstep⟩ := poll_record h hpc hc hne hknown
      have hinv₁ := perfInv_pollStep h hstep
      have hself := List.getElem?_set_self (a := { c with copySize := copySize })
        (List.getElem?_eq_some_iff.mp hc).1
      have hlen : (handedBy (s.out ++ [(i, r.callback)]) i).length
          = (handedBy s.out i).length + 1 := by
        rw [handedBy_append, if_pos rfl, List.length_append, List.length_singleton]
      obtain ⟨k, s', hexec, hinv', hpc', hrecords, hempty, hothers⟩ :=
        ih hinv₁ rfl hself hknown hhead (by rw [hlen]; dsimp only; omega)
      refine ⟨k + 1, s', ?_, hinv', hpc', ?_, hempty, fun j hj => ?_⟩
      · rw [List.replicate_succ]
        exact exec_cons.mpr ⟨_, hstep, hexec⟩
      · exact hrecords.trans (records_set hc rfl)
      · rw [hothers j hj, handedBy_append, if_neg (Ne.symm hj), List.append_nil]

/-- The poll goes on through the CPUs. -/
theorem round_empties (h : PerfInv n s) (hpc : s.pc = .next ready)
    (hknown : ∀ rs ∈ s.records, ∀ r ∈ rs, r.ret = .cont) :
    ∃ k s', exec (perfStep n) s (List.replicate k (.poll true)) = some s' ∧
      s'.pc = .returned none ∧ s'.records = s.records ∧ (∀ j ∈ ready, s'.Empty j) ∧
      ∀ j, s.Empty j → s'.Empty j := by
  induction ready generalizing s with
  | nil =>
      refine ⟨1, { s with pc := .returned none }, ?_, rfl, rfl, nofun, fun _ hj => hj⟩
      simp only [List.replicate_one, exec, List.foldlM_cons, perfStep, pollStep, hpc]
      rfl
  | cons i ready ih =>
      have hwithin := h.within
      rw [hpc] at hwithin
      obtain ⟨c, hc⟩ : ∃ c, s.cpus[i]? = some c :=
        ⟨_, List.getElem?_eq_getElem (hwithin i List.mem_cons_self)⟩
      have hstep : pollStep n true s
          = some { s with pc := .loop i ready c.dataHead c.dataTail } := by
        simp only [pollStep, hpc, hc]
      have hinv₁ := perfInv_pollStep h hstep
      obtain ⟨k₁, s₁, hexec₁, hinv₂, hpc₁, hrecords₁, hempty₁, hothers₁⟩ :=
        loop_empties hinv₁ rfl hc
          (hknown _ (List.mem_of_getElem? (records_getElem? hc)))
          (by rw [startOf_length]; exact (h.cpu i _ hc).head) rfl
      have hrecords₁ : s₁.records = s.records := hrecords₁
      obtain ⟨k₂, s₂, hexec₂, hpc₂, hrecords₂, hempty₂, hkeeps₂⟩ :=
        ih hinv₂ hpc₁ (hrecords₁ ▸ hknown)
      refine ⟨k₁ + k₂ + 1, s₂, ?_, hpc₂, hrecords₂.trans hrecords₁, fun j hj => ?_,
        fun j hj => ?_⟩
      · rw [List.replicate_succ, List.replicate_add]
        refine exec_cons.mpr ⟨_, hstep, ?_⟩
        exact exec_append.mpr ⟨_, hexec₁, hexec₂⟩
      · rcases List.mem_cons.mp hj with rfl | hj
        · exact hkeeps₂ _ hempty₁
        · exact hempty₂ j hj
      · refine hkeeps₂ j ?_
        by_cases hij : j = i
        · rw [hij]
          exact hempty₁
        · intro rs hrs
          rw [hothers₁ j hij]
          exact hj rs (hrecords₁ ▸ hrs)

end Poll

/-- A poll hands over all that is in the buffers that `epoll_wait` names, if
there is memory and the records have known types. -/
theorem poll_complete {n : Size} {data : List (Nat → UInt8)} {tr : List Action} {s : Perf}
    (h : exec (perfStep n) (Perf.init data) tr = some s) {err : Option EventRet}
    (hpc : s.pc = .returned err) {ready : List Nat} (hready : ∀ i ∈ ready, i < s.cpus.length)
    (hknown : ∀ c ∈ s.cpus, ∀ r ∈ c.records, r.ret = .cont) :
    ∃ m s', exec (perfStep n) s (.wait ready :: List.replicate m (.poll true)) = some s' ∧
      s'.pc = .returned none ∧ s'.cpus.map Cpu.records = s.cpus.map Cpu.records ∧
      ∀ i ∈ ready, ∀ c, s'.cpus[i]? = some c →
        handedBy s'.out i = c.records.map Rec.callback := by
  have hwait : perfStep n s (.wait ready) = some { s with pc := .next ready } := by
    simp only [perfStep, hpc, if_pos hready]
  have hinv := perfInv_step (exec_perfInv h) hwait
  obtain ⟨m, s', hexec, hpc', hrecords, hempty, -⟩ := round_empties hinv rfl (by
    intro rs hrs r hr
    obtain ⟨c, hc, rfl⟩ := List.mem_map.mp hrs
    exact hknown c hc r hr)
  refine ⟨m, s', exec_cons.mpr ⟨_, hwait, hexec⟩, hpc', hrecords, fun i hi c hc => ?_⟩
  exact hempty i hi c.records (records_getElem? hc)

theorem poll_complete_twoCpus :
    ∃ s, exec (perfStep page) twoBuffers twoCpus = some s ∧
      ∃ m s', exec (perfStep page) s (.wait [0, 1] :: List.replicate m (.poll true)) = some s' ∧
        s'.pc = .returned none ∧ s'.cpus.map Cpu.records = s.cpus.map Cpu.records ∧
        ∀ i ∈ [0, 1], ∀ c, s'.cpus[i]? = some c →
          handedBy s'.out i = c.records.map Rec.callback := by
  have hruns : ((exec (perfStep page) twoBuffers twoCpus).any fun s =>
      decide (s.pc = .returned none) && decide (s.cpus.length = 2) &&
        s.cpus.all fun c => c.records.all fun r => decide (r.ret = .cont)) = true := by
    decide +kernel
  obtain ⟨s, hs, hall⟩ := (Option.any_eq_true _ _).mp hruns
  simp only [Bool.and_eq_true, decide_eq_true_eq, List.all_eq_true] at hall
  obtain ⟨⟨hpc, hlen⟩, hknown⟩ := hall
  exact ⟨s, hs, poll_complete hs hpc (by rw [hlen]; decide) hknown⟩

end NetProbes.PerfBuffer
