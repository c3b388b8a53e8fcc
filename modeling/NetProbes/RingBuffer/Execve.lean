/-
# `NetProbes.RingBuffer.Execve` — from the probe on `execve` to the terminal

Every call of `execve` runs the probe, on any processor and at any time:

    process = bpf_ringbuf_reserve(…)     or nothing more
    process->pid = tgid
    bpf_get_current_comm(&process->comm, 100)
    bpf_ringbuf_submit(process)

and the Go program polls the ring, takes each event from a channel, and prints
its four bytes of pid and its name without the zeros at the end.

Between any two steps of one probe the other probes and the poller may go on
(`execveStep`).  A run's calls for which there was room are read off its
actions (`recorded`), each with the id and the name it came with:

    recorded     the calls, in the order in which they got their records
    Call.line    the upper half of the id as a number, and the name
    Tied         a record holds what its own probe has written so far

The lines on the terminal are those of the first of these calls
(`execve_prints`), as long as fewer than 2^64 bytes were reserved.
-/
import NetProbes.RingBuffer.ProcessRing
import NetProbes.Lib.CString

namespace NetProbes.RingBuffer.Execve

open NetProbes.Lib

/-! ## The probe -/

/-- `sizeof(proc_info)`: `int pid; char comm[100]`. -/
def procInfoSize : Nat := 104

/-- How far a probe has come. -/
inductive ProbePc where
  | reserved
  | pidWritten
  | commWritten
  | submitted
  deriving DecidableEq

/-- A probe with a record: its `tgid`, and the bytes that
`bpf_get_current_comm` puts into `comm`. -/
structure Task where
  tgid : UInt32
  comm : Buf 100
  pc : ProbePc

/-- `process->pid` and `process->comm` as they lie in the record. -/
def Task.event (t : Task) : List UInt8 := bytes32 t.tgid ++ t.comm.1

/-- The next step of the probe of record `i`. -/
def Task.step (n : Size) (k : Kernel) (i : Nat) (t : Task) : Option (Kernel × Task) :=
  match t.pc with
  | .reserved => (k.write n i 0 (bytes32 t.tgid)).map fun k => (k, { t with pc := .pidWritten })
  | .pidWritten => (k.write n i 4 t.comm.1).map fun k => (k, { t with pc := .commWritten })
  | .commWritten => (k.commit n i false).map fun k => (k, { t with pc := .submitted })
  | .submitted => none

/-! ## The Go program -/

/-- `fmt.Printf("%d %v\n", pid, comm)`; an event of less than 4 bytes would be
a panic. -/
def printEvent (event : List UInt8) : Option (List UInt8) :=
  if 4 ≤ event.length then
    let pid := (u32At event 0).toNat
    let comm := (event.drop 4).rdropWhile (· == 0)
    some (cstr (Nat.toDigits 10 pid) ++ 32 :: comm ++ [10])
  else none

/-- `ringbufferCallback`. -/
def ringbufferCallback (_ : List UInt8) : Int := 0

/-- The ring with its poller, and the tasks that got records. -/
structure State where
  system : PollSystem
  tasks : List Task

inductive Action where
  | execve (id : UInt64) (comm : Buf 100) (pgOff : UInt32)
  | probe (i : Nat)
  | poll

def execveStep (n : Size) (s : State) : Action → Option State
  | .execve id comm pgOff =>
      match s.system.kernel.reserve n procInfoSize pgOff with
      | some k => some ⟨{ s.system with kernel := k },
          s.tasks ++ [⟨(id >>> 32).toUInt32, comm, .reserved⟩]⟩
      | none => some s
  | .probe i =>
      match s.tasks[i]? with
      | some t => (t.step n s.system.kernel i).map fun p =>
          ⟨{ s.system with kernel := p.1 }, s.tasks.set i p.2⟩
      | none => none
  | .poll =>
      (pollSystemStep ringbufferCallback n s.system .poller).map fun p => { s with system := p }

def State.init (data : Nat → UInt8) : State := ⟨PollSystem.init data, []⟩

/-- What is on the terminal when the events received so far are printed. -/
def State.printed (s : State) : Option (List (List UInt8)) :=
  s.system.poller.delivered.mapM printEvent

/-! ## The calls of a run -/

/-- A call of `execve`: what `bpf_get_current_pid_tgid` gives in it, and its
thread's name. -/
structure Call where
  id : UInt64
  comm : Buf 100
  deriving DecidableEq

/-- The call that gets a record in this action. -/
def recordedBy (n : Size) (s : State) : Action → List Call
  | .execve id comm pgOff =>
      if (s.system.kernel.reserve n procInfoSize pgOff).isSome then [⟨id, comm⟩] else []
  | _ => []

/-- The calls of a run for which there was room. -/
def recorded (n : Size) : State → List Action → List Call
  | _, [] => []
  | s, a :: tr => recordedBy n s a ++
      match execveStep n s a with
      | some s' => recorded n s' tr
      | none => []

/-- The pid of a call, and its name. -/
def Call.info (c : Call) : Nat × Buf 100 := (c.id.toNat / 2 ^ 32, c.comm)

/-- What the probe of a task is to write. -/
def Task.info (t : Task) : Nat × Buf 100 := (t.tgid.toNat, t.comm)

/-- A pid in decimal, and a name without the zeros behind it. -/
def lineOf (info : Nat × Buf 100) : List UInt8 :=
  cstr (Nat.toDigits 10 info.1) ++ 32 :: info.2.1.rdropWhile (· == 0) ++ [10]

/-- The line of a call. -/
def Call.line (c : Call) : List UInt8 := lineOf c.info

/-- A step of a probe changes neither. -/
theorem task_step_info {n : Size} {k k' : Kernel} {i : Nat} {t t' : Task}
    (h : t.step n k i = some (k', t')) : t'.info = t.info := by
  simp only [Task.step] at h
  split at h
  · obtain ⟨k₁, -, heq⟩ := Option.map_eq_some_iff.mp h
    obtain ⟨-, rfl⟩ := Prod.mk.inj heq
    rfl
  · obtain ⟨k₁, -, heq⟩ := Option.map_eq_some_iff.mp h
    obtain ⟨-, rfl⟩ := Prod.mk.inj heq
    rfl
  · obtain ⟨k₁, -, heq⟩ := Option.map_eq_some_iff.mp h
    obtain ⟨-, rfl⟩ := Prod.mk.inj heq
    rfl
  · cases h

theorem recordedBy_step {n : Size} {s s' : State} {a : Action}
    (hstep : execveStep n s a = some s') :
    s'.tasks.map Task.info = s.tasks.map Task.info ++ (recordedBy n s a).map Call.info := by
  cases a with
  | execve id comm pgOff =>
      have hid : (id >>> 32).toUInt32.toNat = id.toNat / 2 ^ 32 := by
        have hlt := id.toNat_lt
        rw [UInt64.toNat_toUInt32, UInt64.toNat_shiftRight, Nat.shiftRight_eq_div_pow]
        show id.toNat / 2 ^ 32 % 2 ^ 32 = _
        omega
      simp only [execveStep] at hstep
      split at hstep
      · rename_i k hk
        obtain rfl := Option.some.inj hstep
        simp [recordedBy, hk, Task.info, Call.info, hid]
      · rename_i hk
        obtain rfl := Option.some.inj hstep
        simp [recordedBy, hk]
  | probe i =>
      simp only [execveStep] at hstep
      split at hstep
      · rename_i t ht
        obtain ⟨⟨k, t'⟩, ht', rfl⟩ := Option.map_eq_some_iff.mp hstep
        obtain ⟨hi, rfl⟩ := List.getElem?_eq_some_iff.mp ht
        show (s.tasks.set i t').map Task.info = _
        have hi' : i < (s.tasks.map Task.info).length := (List.length_map Task.info).symm ▸ hi
        rw [List.map_set, task_step_info ht', ← List.getElem_map Task.info (h := hi'),
          List.set_getElem_self]
        exact (List.append_nil _).symm
      · cases hstep
  | poll =>
      obtain ⟨p, -, rfl⟩ := Option.map_eq_some_iff.mp hstep
      exact (List.append_nil _).symm

/-- The tasks of a run are the calls for which there was room. -/
theorem tasks_recorded {n : Size} {tr : List Action} {s s' : State}
    (h : exec (execveStep n) s tr = some s') :
    s'.tasks.map Task.info = s.tasks.map Task.info ++ (recorded n s tr).map Call.info := by
  induction tr generalizing s with
  | nil =>
      cases h
      exact (List.append_nil _).symm
  | cons a tr ih =>
      obtain ⟨s₁, h₁, h₂⟩ := exec_cons.mp h
      rw [ih h₂, recordedBy_step h₁, recorded, h₁, List.map_append, List.append_assoc]

theorem printEvent_event (t : Task) : printEvent t.event = some (lineOf t.info) := by
  have hlen : t.event.length = 104 := by
    rw [Task.event, List.length_append, bytes32_length, Buf.length_val]
  have hpid : u32At t.event 0 = t.tgid := u32At_bytes32 (a := []) t.tgid rfl
  have hcomm : t.event.drop 4 = t.comm.1 := List.drop_left' (bytes32_length _)
  rw [printEvent, if_pos (by omega), hpid, hcomm]
  rfl

/-! ## Each probe has its record -/

/-- What became of the record of a task. -/
def Task.entry (t : Task) : Entry (List UInt8) :=
  if t.pc = .submitted then .submitted t.event else .busy

/-- A record holds what its probe has written. -/
structure Holds (t : Task) (r : Record) : Prop where
  len : r.len = procInfoSize
  size : r.sample.length = procInfoSize
  entry : r.entry = t.entry
  pid : t.pc ≠ .reserved → r.sample.take 4 = bytes32 t.tgid
  comm : t.pc = .commWritten → r.sample = t.event

/-- Task `i` has record `i`. -/
def Tied (s : State) : Prop := List.Forall₂ Holds s.tasks s.system.kernel.records

section Steps

variable {n : Size} {s s' : State}

/-- What a write leaves of the rest. -/
theorem holds_pid {t : Task} {r : Record} (h : Holds t r) :
    Holds { t with pc := .pidWritten }
      ⟨r.pos, r.len, overwrite r.sample 0 (bytes32 t.tgid), .busy⟩ where
  len := h.len
  size := by
    rw [overwrite_length (by rw [h.size, bytes32_length]; decide)]
    exact h.size
  entry := rfl
  pid := fun _ => by
    rw [overwrite, List.take_zero, List.nil_append]
    exact List.take_left' (bytes32_length _)
  comm := fun h => by cases h

theorem holds_comm {t : Task} {r : Record} (h : Holds t r) (hpc : t.pc = .pidWritten) :
    Holds { t with pc := .commWritten }
      ⟨r.pos, r.len, overwrite r.sample 4 t.comm.1, .busy⟩ := by
  have hpid := h.pid (by rw [hpc]; decide)
  have hsize := h.size
  have hend : r.sample.drop (4 + t.comm.1.length) = [] := by
    rw [Buf.length_val, List.drop_eq_nil_iff, hsize]
    decide
  have hall : overwrite r.sample 4 t.comm.1 = t.event := by
    rw [overwrite, hpid, hend, List.append_nil, Task.event]
  refine ⟨h.len, ?_, rfl, fun _ => ?_, fun _ => hall⟩
  · rw [overwrite_length (by rw [hsize, Buf.length_val]; decide)]
    exact hsize
  · rw [hall]
    exact List.take_left' (bytes32_length _)

theorem holds_submit {t : Task} {r : Record} (h : Holds t r) (hpc : t.pc = .commWritten) :
    Holds { t with pc := .submitted } ⟨r.pos, r.len, r.sample, .submitted r.sample⟩ where
  len := h.len
  size := h.size
  entry := congrArg Entry.submitted (h.comm hpc)
  pid := fun _ => h.pid (by rw [hpc]; decide)
  comm := fun h => by cases h

theorem forall₂_set {α β : Type} {R : α → β → Prop} {l : List α} {l' : List β}
    (h : List.Forall₂ R l l') {i : Nat} {a : α} {b : β} (hab : R a b) :
    List.Forall₂ R (l.set i a) (l'.set i b) := by
  induction h generalizing i with
  | nil => exact .nil
  | cons hd tl ih =>
      cases i with
      | zero => exact .cons hab tl
      | succ i => exact .cons hd ih

theorem write_cases {k k' : Kernel} {i off : Nat} {bs : List UInt8}
    (h : k.write n i off bs = some k') :
    ∃ r, k.records[i]? = some r ∧ r.entry = .busy ∧
      k'.records = k.records.set i ⟨r.pos, r.len, overwrite r.sample off bs, .busy⟩ := by
  simp only [Kernel.write] at h
  split at h
  · rename_i pos len sample hr
    split at h
    · obtain rfl := Option.some.inj h
      exact ⟨_, hr, rfl, rfl⟩
    · cases h
  · cases h

theorem submit_cases {k k' : Kernel} {i : Nat} (h : k.commit n i false = some k') :
    ∃ r, k.records[i]? = some r ∧ r.entry = .busy ∧
      k'.records = k.records.set i ⟨r.pos, r.len, r.sample, .submitted r.sample⟩ := by
  simp only [Kernel.commit] at h
  split at h
  · rename_i pos len sample hr
    obtain rfl := Option.some.inj h
    exact ⟨_, hr, rfl, rfl⟩
  · cases h

theorem reserve_records {k k' : Kernel} {len : Nat} {pgOff : UInt32}
    (h : k.reserve n len pgOff = some k') :
    ∃ pos, k'.records = k.records ++ [⟨pos, len, k.ring.bytesAt n (pos + 8) len, .busy⟩] := by
  simp only [Kernel.reserve] at h
  split at h
  · split at h
    · obtain rfl := Option.some.inj h
      exact ⟨_, rfl⟩
    · cases h
  · cases h

/-- A step of a probe is a step of the kernel's side, inside its own record. -/
theorem task_step_cases {k k' : Kernel} {i : Nat} {t t' : Task}
    (h : t.step n k i = some (k', t')) :
    ∃ b r r', kernelStep n k b = some k' ∧ k.records[i]? = some r ∧
      k'.records = k.records.set i r' ∧ (Holds t r → Holds t' r') := by
  simp only [Task.step] at h
  split at h
  · obtain ⟨k₁, hk, heq⟩ := Option.map_eq_some_iff.mp h
    obtain ⟨rfl, rfl⟩ := Prod.mk.inj heq
    obtain ⟨r, hr, -, hrecords⟩ := write_cases hk
    exact ⟨.write i 0 (bytes32 t.tgid), r, _, hk, hr, hrecords, holds_pid⟩
  · rename_i hpc
    obtain ⟨k₁, hk, heq⟩ := Option.map_eq_some_iff.mp h
    obtain ⟨rfl, rfl⟩ := Prod.mk.inj heq
    obtain ⟨r, hr, -, hrecords⟩ := write_cases hk
    exact ⟨.write i 4 t.comm.1, r, _, hk, hr, hrecords, fun hholds => holds_comm hholds hpc⟩
  · rename_i hpc
    obtain ⟨k₁, hk, heq⟩ := Option.map_eq_some_iff.mp h
    obtain ⟨rfl, rfl⟩ := Prod.mk.inj heq
    obtain ⟨r, hr, -, hrecords⟩ := submit_cases hk
    exact ⟨.commit i false, r, _, hk, hr, hrecords, fun hholds => holds_submit hholds hpc⟩
  · cases h

/-- Tasks and records stay side by side. -/
theorem tied_step {a : Action} (h : Tied s) (hstep : execveStep n s a = some s') : Tied s' := by
  cases a with
  | execve id comm pgOff =>
      simp only [execveStep] at hstep
      split at hstep
      · rename_i k hk
        obtain rfl := Option.some.inj hstep
        obtain ⟨pos, hrecords⟩ := reserve_records hk
        simp only [Tied, hrecords]
        refine List.rel_append h
          (.cons ⟨rfl, ?_, rfl, fun h => absurd rfl h, fun h => by cases h⟩ .nil)
        rw [Ring.bytesAt, ringRead_length]
      · obtain rfl := Option.some.inj hstep
        exact h
  | probe i =>
      simp only [execveStep] at hstep
      split at hstep
      · rename_i t ht
        obtain ⟨⟨k, t'⟩, ht', rfl⟩ := Option.map_eq_some_iff.mp hstep
        obtain ⟨b, r, r', -, hr, hrecords, hholds⟩ := task_step_cases ht'
        obtain ⟨hi, rfl⟩ := List.getElem?_eq_some_iff.mp ht
        obtain ⟨hi', rfl⟩ := List.getElem?_eq_some_iff.mp hr
        simp only [Tied, hrecords]
        exact forall₂_set h (hholds (List.Forall₂.get h hi hi'))
      · cases hstep
  | poll =>
      obtain ⟨p, hp, rfl⟩ := Option.map_eq_some_iff.mp hstep
      obtain ⟨q, -, rfl⟩ := Option.map_eq_some_iff.mp hp
      exact h

/-- What became of the records is what their probes have done. -/
theorem Tied.entries (h : Tied s) : s.system.kernel.entries = s.tasks.map Task.entry := by
  rw [Kernel.entries]
  have hrel : List.Forall₂ (fun a b => a = b) (s.system.kernel.records.map Record.entry)
      (s.tasks.map Task.entry) := by
    rw [List.forall₂_map_left_iff, List.forall₂_map_right_iff]
    exact (List.Forall₂.flip h).imp fun _ _ hr => hr.entry
  exact List.forall₂_eq_eq_eq ▸ hrel

/-- The ring and its poller do not see more than a run of theirs. -/
theorem system_step {a : Action} (hstep : execveStep n s a = some s') :
    ∃ acts, exec (pollSystemStep ringbufferCallback n) s.system acts = some s'.system := by
  have hkernel : ∀ {b k}, kernelStep n s.system.kernel b = some k →
      exec (pollSystemStep ringbufferCallback n) s.system [.kernel b]
        = some { s.system with kernel := k } := by
    intro b k hk
    simp only [exec, List.foldlM_cons, pollSystemStep, hk]
    rfl
  cases a with
  | execve id comm pgOff =>
      simp only [execveStep] at hstep
      split at hstep
      · rename_i k hk
        obtain rfl := Option.some.inj hstep
        exact ⟨[.kernel (.reserve procInfoSize pgOff)], hkernel hk⟩
      · obtain rfl := Option.some.inj hstep
        exact ⟨[], rfl⟩
  | probe i =>
      simp only [execveStep] at hstep
      split at hstep
      · obtain ⟨⟨k, t'⟩, ht', rfl⟩ := Option.map_eq_some_iff.mp hstep
        obtain ⟨b, -, -, hk, -⟩ := task_step_cases ht'
        exact ⟨[.kernel b], hkernel hk⟩
      · cases hstep
  | poll =>
      obtain ⟨p, hp, rfl⟩ := Option.map_eq_some_iff.mp hstep
      refine ⟨[.poller], ?_⟩
      exact exec_cons.mpr ⟨_, hp, rfl⟩

end Steps

/-! ## Runs -/

section Run

variable {n : Size} {data : Nat → UInt8} {tr : List Action} {s : State}

theorem exec_tied (h : exec (execveStep n) (State.init data) tr = some s) : Tied s :=
  exec_invariant (fun _ _ _ => tied_step) (show Tied (State.init data) from .nil) h

theorem exec_system (h : exec (execveStep n) (State.init data) tr = some s) :
    ∃ acts, exec (pollSystemStep ringbufferCallback n) (PollSystem.init data) acts
      = some s.system := by
  obtain ⟨acts, p, hexec, rfl⟩ := exec_refines (R := fun s p => s.system = p)
    (fun s a s' p hp hstep => by
      obtain ⟨acts, hacts⟩ := system_step hstep
      exact ⟨acts, s'.system, hp ▸ hacts, rfl⟩) (rfl : (State.init data).system = _) h
  exact ⟨acts, hexec⟩

/-- Of tasks that are through, the events are what was submitted. -/
theorem content_of_submitted {tasks : List Task} (h : ∀ t ∈ tasks, t.pc = .submitted) :
    (tasks.map Task.entry).filterMap Entry.content = tasks.map Task.event := by
  rw [List.filterMap_map, ← List.filterMap_eq_map]
  refine List.filterMap_congr fun t ht => ?_
  simp only [Function.comp_apply, Task.entry, if_pos (h t ht), Entry.content]

theorem mapM_printEvent (tasks : List Task) :
    (tasks.map Task.event).mapM printEvent = some ((tasks.map Task.info).map lineOf) := by
  induction tasks with
  | nil => rfl
  | cons t tasks ih =>
      rw [List.map_cons, List.mapM_cons, printEvent_event, ih]
      rfl

theorem finished_entry {t : Task} : t.entry.finished = true ↔ t.pc = .submitted := by
  rw [Task.entry]
  split
  · rename_i h
    exact iff_of_true rfl h
  · rename_i h
    exact iff_of_false (fun hf => by cases hf) h

/-- The tasks are the calls that got a record. -/
theorem tasks_info (h : exec (execveStep n) (State.init data) tr = some s) :
    s.tasks.map Task.info = (recorded n (State.init data) tr).map Call.info :=
  (tasks_recorded h).trans (List.nil_append _)

theorem lines_take (h : exec (execveStep n) (State.init data) tr = some s) (m : Nat) :
    ((s.tasks.take m).map Task.info).map lineOf
      = ((recorded n (State.init data) tr).take m).map Call.line := by
  rw [List.map_take, tasks_info h, ← List.map_take, List.map_map]
  rfl

/-- Whatever the order of the steps: the terminal shows a line for each of the
first calls that got records, with its own pid and name; their probes are
through, and none is left out, printed twice or mixed up with another. -/
theorem execve_prints (h : exec (execveStep n) (State.init data) tr = some s)
    (hbelow : s.system.kernel.produced < 2 ^ 64) :
    s.tasks.length = (recorded n (State.init data) tr).length ∧
      ∃ m ≤ s.tasks.length, (∀ t ∈ s.tasks.take m, t.pc = .submitted) ∧
        s.printed = some (((recorded n (State.init data) tr).take m).map Call.line) := by
  obtain ⟨acts, hacts⟩ := exec_system h
  have htied := exec_tied h
  obtain ⟨q, read, had, href⟩ := exec_poll_refines hacts hbelow
  obtain ⟨hm, hfin, hdel⟩ := href.taken
  have hlen : s.tasks.length = s.system.kernel.records.length := List.Forall₂.length_eq htied
  rw [htied.entries, ← List.map_take] at hfin hdel
  have hsub : ∀ t ∈ s.tasks.take q.read, t.pc = .submitted :=
    fun t ht => finished_entry.mp (hfin _ (List.mem_map_of_mem ht))
  refine ⟨by simpa using congrArg List.length (tasks_info h), q.read, hlen ▸ hm, hsub, ?_⟩
  rw [State.printed, hdel, content_of_submitted hsub, mapM_printEvent, lines_take h]

/-- Two tasks at once: `ls` gets the first record, and `sh` is through first. -/
def twoTasks : List Action :=
  [.execve 0x2a00000007 (padded 100 (cstr ['l', 's'])) 0,
    .execve 0x2b00000008 (padded 100 (cstr ['s', 'h'])) 1,
    .probe 1, .probe 0, .probe 1, .probe 1, .poll, .poll, .probe 0, .poll, .poll, .probe 0]

theorem execve_prints_twoTasks :
    ∃ s, exec (execveStep page) (State.init fun _ => 255)
        (twoTasks ++ List.replicate 9 .poll) = some s ∧
      recorded page (State.init fun _ => 255) (twoTasks ++ List.replicate 9 .poll)
        = [⟨0x2a00000007, padded 100 (cstr ['l', 's'])⟩,
            ⟨0x2b00000008, padded 100 (cstr ['s', 'h'])⟩] ∧
      ∃ m ≤ s.tasks.length, (∀ t ∈ s.tasks.take m, t.pc = .submitted) ∧
        s.printed = some (((recorded page (State.init fun _ => 255)
          (twoTasks ++ List.replicate 9 .poll)).take m).map Call.line) := by
  have hruns : ((exec (execveStep page) (State.init fun _ => 255)
      (twoTasks ++ List.replicate 9 .poll)).any
        fun s => s.system.kernel.produced < 2 ^ 64) = true := by decide +kernel
  obtain ⟨s, hs, hbelow⟩ := (Option.any_eq_true _ _).mp hruns
  exact ⟨s, hs, by decide +kernel, (execve_prints hs (of_decide_eq_true hbelow)).2⟩

example : ((exec (execveStep page) (State.init fun _ => 255)
    (twoTasks ++ List.replicate 9 .poll)).bind State.printed)
      = some [cstr ['4', '2', ' ', 'l', 's', '\n'], cstr ['4', '3', ' ', 's', 'h', '\n']] := by
  decide +kernel

/-- And polling goes on until the first task that is not through. -/
theorem execve_prints_all (h : exec (execveStep n) (State.init data) tr = some s)
    (hbelow : s.system.kernel.produced < 2 ^ 64) :
    s.tasks.length = (recorded n (State.init data) tr).length ∧
      ∃ m s', exec (execveStep n) s (List.replicate m .poll) = some s' ∧ s'.tasks = s.tasks ∧
        s'.printed = some (((recorded n (State.init data) tr).take
          (s.tasks.takeWhile (·.pc = .submitted)).length).map Call.line) := by
  obtain ⟨acts, hacts⟩ := exec_system h
  have htied := exec_tied h
  obtain ⟨q, read, had, href⟩ := exec_poll_refines hacts hbelow
  have hat : PollsAt n s.system q := ⟨hbelow, read, had, href⟩
  obtain ⟨m, p, hexec, -, hdel⟩ := hat.drains
  have hpolls : ∀ {m p} {s : State},
      exec (pollSystemStep ringbufferCallback n) s.system (List.replicate m .poller) = some p →
      exec (execveStep n) s (List.replicate m .poll) = some ⟨p, s.tasks⟩ := by
    intro m
    induction m with
    | zero =>
        rintro p s h
        obtain rfl := Option.some.inj h
        rfl
    | succ m ih =>
        intro p s h
        obtain ⟨p₁, hp₁, hrest⟩ := exec_cons.mp h
        refine exec_cons.mpr ⟨⟨p₁, s.tasks⟩, ?_, ih hrest⟩
        rw [execveStep, hp₁]
        rfl
  refine ⟨by simpa using congrArg List.length (tasks_info h), m, ⟨p, s.tasks⟩, hpolls hexec, rfl, ?_⟩
  have htake : s.system.kernel.entries.takeWhile Entry.finished
      = (s.tasks.takeWhile (·.pc = .submitted)).map Task.entry := by
    rw [htied.entries, List.takeWhile_map]
    refine congrArg (List.map Task.entry) (congrArg (List.takeWhile · s.tasks) (funext fun t => ?_))
    rw [Function.comp_apply, Bool.eq_iff_iff, decide_eq_true_iff, finished_entry]
  have hsub : ∀ t ∈ s.tasks.takeWhile (·.pc = .submitted), t.pc = .submitted := by
    intro t ht
    simpa only [decide_eq_true_eq] using List.mem_takeWhile_imp ht
  rw [htake, content_of_submitted hsub] at hdel
  rw [State.printed, hdel, mapM_printEvent, ← lines_take h,
    ← List.prefix_iff_eq_take.mp (List.takeWhile_prefix _)]

theorem execve_prints_all_twoTasks :
    ∃ s, exec (execveStep page) (State.init fun _ => 255) twoTasks = some s ∧
      ∃ m s', exec (execveStep page) s (List.replicate m .poll) = some s' ∧ s'.tasks = s.tasks ∧
        s'.printed = some (((recorded page (State.init fun _ => 255) twoTasks).take
          (s.tasks.takeWhile (·.pc = .submitted)).length).map Call.line) := by
  have hruns : ((exec (execveStep page) (State.init fun _ => 255) twoTasks).any
      fun s => s.system.kernel.produced < 2 ^ 64) = true := by decide +kernel
  obtain ⟨s, hs, hbelow⟩ := (Option.any_eq_true _ _).mp hruns
  exact ⟨s, hs, (execve_prints_all hs (of_decide_eq_true hbelow)).2⟩

end Run

end NetProbes.RingBuffer.Execve
