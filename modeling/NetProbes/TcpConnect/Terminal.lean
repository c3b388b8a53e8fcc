/-
# `NetProbes.TcpConnect.Terminal` — from the probes to the terminal

`tcpconnect` without `-c`.  The probes put each event out on the CPU they run
on (`bpf_perf_event_output` of the 72 bytes of `struct event`); the kernel has
room for it in that CPU's buffer, or drops it and counts it.  `print_events`
polls the buffers until a poll fails:

    sample_cb   `handle_event` prints a line
    lost_cb     `handle_lost_events` prints how many samples were lost

Any number of threads connect meanwhile, on any CPU, and between any two
accesses to a buffer (`terminalStep`).  `puts` records for each event the CPU
it was put out on, and whether there was room for it.

A line shows the event's own process, name, addresses and port, and with `-t`
its distance, in 64 bits without a sign, from the time of the first event shown
on the terminal that has one (`ShowsEvent`, `startOf`).

    terminal_in_order  of each CPU the terminal shows the first events there
                       was room for, in their order and each once; all others
                       are counted
    terminal_complete  as long as no poll has failed, one more poll shows all
                       events there was room for
-/
import NetProbes.TcpConnect.HandleEvent
import NetProbes.TcpConnect.Report
import NetProbes.PerfBuffer.Poll

namespace NetProbes.TcpConnect

open NetProbes.Lib
open NetProbes.PerfBuffer (Perf Rec Callback Cpu handedBy perfStep)
open NetProbes.RingBuffer (Size)

/-! ## Events as bytes -/

/-- `struct event` in memory; the last two bytes fill it up. -/
def Event.bytes (e : Event) : List UInt8 :=
  e.saddr.1 ++ (e.daddr.1 ++ (e.task.1 ++ (bytes64 e.tsUs ++ (bytes32 e.af ++ (bytes32 e.pid ++
    (bytes32 e.uid ++ (bytes16 e.dport ++ [0, 0])))))))

/-- What `handle_event` sees at `data`, if the sample has that many bytes. -/
def eventOf (data : List UInt8) : Option Event :=
  if 72 ≤ data.length then
    some {
      saddr := padded 16 (slice data 0 16)
      daddr := padded 16 (slice data 16 16)
      task := padded 16 (slice data 32 16)
      tsUs := u64At data 48
      af := u32At data 56
      pid := u32At data 60
      uid := u32At data 64
      dport := u16At data 68 }
  else none

theorem Event.bytes_length (e : Event) : e.bytes.length = 72 := by
  simp only [Event.bytes, List.length_append, Buf.length_val, bytes64_length, bytes32_length,
    bytes16_length]
  rfl

theorem padded_buf {n : Nat} (b : Buf n) : padded n b.1 = b := by
  apply Subtype.ext
  rw [padded_val (Nat.le_of_eq b.2), b.2, Nat.sub_self, List.replicate_zero, List.append_nil]

/-- An event is read as it was put out, whatever is behind it. -/
theorem eventOf_bytes (e : Event) (pad : List UInt8) : eventOf (e.bytes ++ pad) = some e := by
  have hlen : 72 ≤ (e.bytes ++ pad).length := by
    rw [List.length_append, e.bytes_length]
    exact Nat.le_add_right _ _
  have hsplit : e.bytes ++ pad = e.saddr.1 ++ (e.daddr.1 ++ (e.task.1 ++ (bytes64 e.tsUs ++
      (bytes32 e.af ++ (bytes32 e.pid ++ (bytes32 e.uid ++ (bytes16 e.dport ++
        ([0, 0] ++ pad)))))))) := by
    simp only [Event.bytes, List.append_assoc]
  have hsaddr : slice (e.bytes ++ pad) 0 16 = e.saddr.1 := by
    rw [hsplit]
    exact slice_append_left (Buf.length_val _)
  have hdaddr : slice (e.bytes ++ pad) 16 16 = e.daddr.1 := by
    rw [hsplit, slice_append_right (Nat.le_of_eq (Buf.length_val _)), Buf.length_val]
    exact slice_append_left (Buf.length_val _)
  have htask : slice (e.bytes ++ pad) 32 16 = e.task.1 := by
    rw [hsplit, ← List.append_assoc, slice_append_right (by simp), List.length_append,
      Buf.length_val, Buf.length_val]
    exact slice_append_left (Buf.length_val _)
  have htsUs : u64At (e.bytes ++ pad) 48 = e.tsUs := by
    rw [hsplit, ← List.append_assoc, ← List.append_assoc]
    exact u64At_bytes64 _ (by simp)
  have haf : u32At (e.bytes ++ pad) 56 = e.af := by
    rw [hsplit, ← List.append_assoc, ← List.append_assoc, ← List.append_assoc]
    exact u32At_bytes32 _ (by simp)
  have hpid : u32At (e.bytes ++ pad) 60 = e.pid := by
    rw [hsplit, ← List.append_assoc, ← List.append_assoc, ← List.append_assoc, ← List.append_assoc]
    exact u32At_bytes32 _ (by simp)
  have huid : u32At (e.bytes ++ pad) 64 = e.uid := by
    rw [hsplit, ← List.append_assoc, ← List.append_assoc, ← List.append_assoc, ← List.append_assoc,
      ← List.append_assoc]
    exact u32At_bytes32 _ (by simp)
  have hdport : u16At (e.bytes ++ pad) 68 = e.dport := by
    rw [hsplit, ← List.append_assoc, ← List.append_assoc, ← List.append_assoc, ← List.append_assoc,
      ← List.append_assoc, ← List.append_assoc]
    exact u16At_bytes16 _ (by simp)
  rw [eventOf, if_pos hlen, hsaddr, hdaddr, htask, htsUs, haf, hpid, huid, hdport, padded_buf,
    padded_buf, padded_buf]

/-! ## The terminal -/

/-- What a callback prints; `outside` if `handle_event` would read behind the
sample. -/
inductive Message where
  | event (p : Printed)
  | lost (count : UInt64)
  | unknown (type : UInt32)
  | outside

/-- A callback with `start_ts`. -/
def message (env : Env) (startTs : UInt64) : Callback → Message × UInt64
  | .sample raw =>
      match eventOf raw with
      | some e =>
          let (p, startTs) := handleEvent env startTs e
          (.event p, startTs)
      | none => (.outside, startTs)
  | .lost count => (.lost count, startTs)
  | .unknown type => (.unknown type, startTs)

/-- The messages for all callbacks, with the CPUs they are for. -/
def messages (env : Env) : UInt64 → List (Nat × Callback) → List (Nat × Message)
  | _, [] => []
  | startTs, (i, cb) :: out =>
      let (m, startTs) := message env startTs cb
      (i, m) :: messages env startTs out

/-- An event that was put out on a CPU, and whether there was room for it. -/
structure Put where
  cpu : Nat
  event : Event
  placed : Bool

/-- The probes, the buffers, and what was put out. -/
structure Terminal where
  probes : System
  perf : Perf
  puts : List Put

/-- What the kernel does with an event: `pad` fills the record up. -/
inductive Room where
  | placed (misc : UInt16) (pad : List UInt8)
  | dropped

def Room.action (e : Event) : Room → PerfBuffer.KernelAction
  | .placed misc pad => .sample misc (e.bytes ++ pad)
  | .dropped => .drop e.bytes

def Room.isPlaced : Room → Bool
  | .placed _ _ => true
  | .dropped => false

inductive TerminalAction where
  | fire (cpu : Nat) (f : Firing) (room : Room)
  | lost (cpu : Nat) (misc : UInt16) (id : UInt64) (more : List UInt8)
  | other (cpu : Nat) (type : UInt32) (misc : UInt16) (body : List UInt8)
  | wait (ready : List Nat)
  | poll (alloc : Bool)

def Terminal.perfStep (n : Size) (s : Terminal) (a : PerfBuffer.Action) : Option Terminal :=
  (PerfBuffer.perfStep n s.perf a).map fun perf => { s with perf := perf }

section Model
variable [HashOrder UInt32] [HashOrder Ipv4FlowKey] [HashOrder Ipv6FlowKey]

/-- One firing of a probe on a CPU, one step of the kernel, or one of the
reader; `print_events` stops at the first poll that fails. -/
def terminalStep (cfg : Config) (n : Size) (s : Terminal) : TerminalAction → Option Terminal
  | .fire cpu f room =>
      match connectStep cfg s.probes f with
      | some p =>
          match p.maps.events.drop s.probes.maps.events.length with
          | [] => some { s with probes := p }
          | e :: _ => (perfStep n s.perf (.kernel cpu (room.action e))).map fun perf =>
              ⟨p, perf, s.puts ++ [⟨cpu, e, room.isPlaced⟩]⟩
      | none => none
  | .lost cpu misc id more => s.perfStep n (.kernel cpu (.lost misc id more))
  | .other cpu type misc body => s.perfStep n (.kernel cpu (.other type misc body))
  | .wait ready => if s.perf.pc = .returned none then s.perfStep n (.wait ready) else none
  | .poll alloc => s.perfStep n (.poll alloc)

end Model

def Terminal.init (data : List (Nat → UInt8)) : Terminal := ⟨System.init, Perf.init data, []⟩

/-- The events of a CPU that were placed, or that were dropped. -/
def putsOn (puts : List Put) (cpu : Nat) (placed : Bool) : List Event :=
  (puts.filter fun p => p.cpu == cpu && p.placed == placed).map Put.event

/-- The messages for a CPU. -/
def Terminal.messagesOf (env : Env) (s : Terminal) (cpu : Nat) : List Message :=
  ((messages env 0 s.perf.out).filter fun m => m.1 = cpu).map Prod.snd

/-! ## What is shown of a record -/

/-- The event of a record. -/
def recEvent : Rec → Option Event
  | .sample _ raw => eventOf raw
  | _ => none

/-- The events of what was handed over. -/
def eventsOf (out : List (Nat × Callback)) : List Event :=
  out.filterMap fun o => match o.2 with
    | .sample raw => eventOf raw
    | _ => none

/-- The time that offsets are taken from after these events: that of the first
one that is printed and has a time. -/
def startOf (events : List Event) : UInt64 :=
  ((events.find? fun e => decide e.Known && e.tsUs != 0).map Event.tsUs).getD 0

/-- The line shows the event: what it is about, and with `-t` its distance from
`ref`. -/
structure ShowsEvent (env : Env) (ref : UInt64) (e : Event) (l : Line) : Prop where
  offset : l.offset = if env.printTimestamp then some (e.tsUs - ref) else none
  uid : l.uid = if env.printUid then some e.uid else none
  pid : l.pid = e.pid
  task : l.task = e.task.1.take 12
  v4 : e.af = 2 → l.version = 4 ∧ l.src = e.saddr.1.take 4 ∧ l.dst = e.daddr.1.take 4
  v6 : e.af = 10 → l.version = 6 ∧ l.src = e.saddr.1 ∧ l.dst = e.daddr.1
  dport : l.dport = bswap16 e.dport

/-- What is printed for `e`, one of the events that were handed over. -/
def LineOf (env : Env) (events : List Event) (e : Event) : Printed → Prop
  | .line l => e.Known ∧ ∃ before, before ++ [e] <+: events ∧
      ShowsEvent env (startOf (before ++ [e])) e l
  | .broken af => ¬ e.Known ∧ af = e.af

/-- A message is what a record asks for. -/
def Shows (env : Env) (events : List Event) : Callback → Message → Prop
  | .sample raw, .event p => ∃ e, eventOf raw = some e ∧ LineOf env events e p
  | .lost count, .lost told => told = count
  | .unknown type, .unknown told => told = type
  | _, _ => False

/-- The line of a message. -/
def Message.line : Message → Option Printed
  | .event p => some p
  | _ => none

theorem startOf_concat (events : List Event) (e : Event) :
    startOf (events ++ [e]) = if e.Known ∧ startOf events = 0 then e.tsUs else startOf events := by
  rw [startOf, startOf, List.find?_append]
  cases hfind : events.find? fun e => decide e.Known && e.tsUs != 0 with
  | some first =>
      have hfirst := List.find?_some hfind
      rw [Bool.and_eq_true, bne_iff_ne] at hfirst
      rw [Option.some_or, Option.map_some, Option.getD_some, if_neg fun h => hfirst.2 h.2]
  | none =>
      rw [Option.none_or, Option.map_none, Option.getD_none]
      by_cases hk : e.Known
      · rw [if_pos ⟨hk, rfl⟩]
        by_cases hzero : e.tsUs = 0
        · rw [List.find?_singleton, if_neg (by simp [hzero]), hzero]
          rfl
        · rw [List.find?_singleton, if_pos (by simp [hk, hzero])]
          rfl
      · rw [if_neg fun h => hk h.1, List.find?_singleton, if_neg (by simp [hk])]
        rfl

/-- A call of `handle_event` where `start_ts` is right. -/
theorem handleEvent_shows (env : Env) {startTs : UInt64} {before events : List Event} {e : Event}
    (hstart : env.printTimestamp = true → startTs = startOf before)
    (hevents : before ++ [e] <+: events) :
    LineOf env events e (handleEvent env startTs e).1 ∧
      (env.printTimestamp = true → (handleEvent env startTs e).2 = startOf (before ++ [e])) := by
  by_cases hk : e.Known
  · have hk' : e.af = 2 ∨ e.af = 10 := hk
    have hnext : env.printTimestamp = true → (if env.printTimestamp ∧ startTs = 0 then e.tsUs
        else startTs) = startOf (before ++ [e]) := by
      intro ht
      rw [startOf_concat, hstart ht]
      simp only [ht, hk, true_and]
    rw [handleEvent, if_pos hk']
    refine ⟨⟨hk, before, hevents, ⟨?_, rfl, rfl, rfl, fun h4 => ?_, fun h6 => ?_, rfl⟩⟩, hnext⟩
    · split
      · rename_i ht
        rw [hnext ht]
      · rfl
    · simp only [addrBytes, h4, if_true, and_self]
    · have hne : ¬ e.af = 2 := by
        rw [h6]
        decide
      simp only [addrBytes, if_neg hne, and_self]
  · rw [handleEvent_unknown hk]
    refine ⟨⟨hk, rfl⟩, fun ht => ?_⟩
    rw [startOf_concat, if_neg fun h => hk h.1]
    exact hstart ht

theorem eventsOf_cons (o : Nat × Callback) (out : List (Nat × Callback)) :
    eventsOf (o :: out) = eventsOf [o] ++ eventsOf out :=
  List.filterMap_append (l := [o])

/-- One callback where `start_ts` is right. -/
theorem message_shows (env : Env) {startTs : UInt64} {before events : List Event} {j : Nat}
    {cb : Callback} (hstart : env.printTimestamp = true → startTs = startOf before)
    (hevents : before ++ eventsOf [(j, cb)] <+: events)
    (hwhole : ∀ raw, cb = .sample raw → eventOf raw ≠ none) :
    Shows env events cb (message env startTs cb).1 ∧
      (env.printTimestamp = true →
        (message env startTs cb).2 = startOf (before ++ eventsOf [(j, cb)])) := by
  cases cb with
  | sample raw =>
      obtain ⟨e, he⟩ := Option.ne_none_iff_exists'.mp (hwhole raw rfl)
      have hone : eventsOf [(j, .sample raw)] = [e] := List.filterMap_cons_some he
      rw [hone] at hevents ⊢
      obtain ⟨hline, hnext⟩ := handleEvent_shows env hstart hevents
      rw [message, he]
      exact ⟨⟨e, he, hline⟩, hnext⟩
  | lost count =>
      have hsame : before ++ eventsOf [(j, .lost count)] = before := List.append_nil _
      rw [hsame]
      exact ⟨rfl, hstart⟩
  | unknown type =>
      have hsame : before ++ eventsOf [(j, .unknown type)] = before := List.append_nil _
      rw [hsame]
      exact ⟨rfl, hstart⟩

/-- The messages for a CPU are those for what was handed over of it. -/
theorem shows_messages (env : Env) {startTs : UInt64} {before events : List Event}
    {out : List (Nat × Callback)} (i : Nat)
    (hstart : env.printTimestamp = true → startTs = startOf before)
    (hevents : events = before ++ eventsOf out)
    (hwhole : ∀ j raw, (j, Callback.sample raw) ∈ out → eventOf raw ≠ none) :
    List.Forall₂ (Shows env events) (handedBy out i)
      (((messages env startTs out).filter fun m => m.1 = i).map Prod.snd) := by
  induction out generalizing startTs before with
  | nil => exact .nil
  | cons o out ih =>
      obtain ⟨j, cb⟩ := o
      rw [eventsOf_cons, ← List.append_assoc] at hevents
      have hbegins : before ++ eventsOf [(j, cb)] <+: events := ⟨eventsOf out, hevents.symm⟩
      obtain ⟨hshows, hnext⟩ := message_shows env hstart hbegins
        fun raw hcb => hwhole j raw (hcb ▸ List.mem_cons_self)
      have hrest := ih hnext hevents fun k raw hmem => hwhole k raw (List.mem_cons_of_mem _ hmem)
      by_cases hij : j = i
      · have hcons : handedBy ((j, cb) :: out) i = cb :: handedBy out i := by
          simp [handedBy, hij]
        rw [hcons]
        simp only [messages, hij, decide_true, List.filter_cons_of_pos, List.map_cons]
        exact .cons hshows hrest
      · have hskip : handedBy ((j, cb) :: out) i = handedBy out i := by
          simp [handedBy, hij]
        rw [hskip]
        simp only [messages, hij, decide_false, Bool.false_eq_true, not_false_eq_true,
          List.filter_cons_of_neg]
        exact hrest

/-- The lines are those of the events in the records. -/
theorem lines_of_shows {env : Env} {events : List Event} {records : List Rec} {ms : List Message}
    (h : List.Forall₂ (Shows env events) (records.map Rec.callback) ms) :
    List.Forall₂ (LineOf env events) (records.filterMap recEvent) (ms.filterMap Message.line) := by
  rw [List.forall₂_map_left_iff] at h
  induction h with
  | nil => exact .nil
  | @cons r m records ms hr _ ih =>
      cases r with
      | sample misc raw =>
          cases m with
          | event p =>
              obtain ⟨e, he, hp⟩ := hr
              rw [List.filterMap_cons_some (show recEvent (.sample misc raw) = some e from he)]
              exact .cons hp ih
          | lost _ => exact hr.elim
          | unknown _ => exact hr.elim
          | outside => exact hr.elim
      | lost misc id count more =>
          cases m with
          | event p => exact hr.elim
          | lost _ => exact ih
          | unknown _ => exact hr.elim
          | outside => exact hr.elim
      | other type misc body =>
          cases m with
          | event p => exact hr.elim
          | lost _ => exact hr.elim
          | unknown _ => exact ih
          | outside => exact hr.elim

/-! ## The events -/

section Events

variable [HashOrder UInt32] [HashOrder Ipv4FlowKey] [HashOrder Ipv6FlowKey] {cfg : Config}

omit [HashOrder Ipv4FlowKey] [HashOrder Ipv6FlowKey] in
theorem enterTcpConnect_events (tid : UInt32) (task : Task) (sk : UInt64) (m : Maps) :
    (enterTcpConnect cfg tid task sk m).events = m.events := by
  simp only [enterTcpConnect]
  split
  · rfl
  · split
    · rfl
    · split <;> rfl

omit [HashOrder UInt32] in
theorem report_events (cfg : Config) (task : Task) (now : UInt64) (sk : SockCommon) (ret : Int)
    (ipVer : IpVer) (m : Maps) : ∃ e : Option Event,
      (report cfg task now sk ret ipVer m).1.events = m.events ++ e.toList := by
  simp only [report]
  split
  · exact ⟨none, (List.append_nil _).symm⟩
  · split
    · exact ⟨none, (List.append_nil _).symm⟩
    · split
      · refine ⟨none, ?_⟩
        cases ipVer with
        | v4 =>
            simp only [countV4]
            split <;> exact (List.append_nil _).symm
        | v6 =>
            simp only [countV6]
            split <;> exact (List.append_nil _).symm
      · cases ipVer with
        | v4 => exact ⟨some (eventV4 task now sk sk.skcDport), rfl⟩
        | v6 => exact ⟨some (eventV6 task now sk sk.skcDport), rfl⟩

omit [HashOrder UInt32] in
theorem exit_events (s : System) (tid : UInt32) (c : Call) (mem : UInt64 → SockCommon)
    (now : UInt64) (ret : Int) (ipVer : IpVer) : ∃ e : Option Event,
      (s.exit cfg tid c mem now ret ipVer).maps.events = s.maps.events ++ e.toList := by
  simp only [System.exit, exitTcpConnect]
  split
  · exact ⟨none, (List.append_nil _).symm⟩
  · rename_i sk hsk
    obtain ⟨e, he⟩ := report_events cfg c.task now (mem sk) ret ipVer s.maps
    refine ⟨e, ?_⟩
    split
    · exact he
    · exact he

/-- A firing puts out an event at most. -/
theorem connectStep_events {s s' : System} {f : Firing} (h : connectStep cfg s f = some s') :
    ∃ e : Option Event, s'.maps.events = s.maps.events ++ e.toList := by
  have hnone : ∀ {tid : UInt32} {task : Task} {sk : UInt64},
      ∃ e : Option Event, (enterTcpConnect cfg tid task sk s.maps).events
        = s.maps.events ++ e.toList := fun {tid task sk} =>
    ⟨none, (enterTcpConnect_events tid task sk s.maps).trans (List.append_nil _).symm⟩
  cases connectStep_move h with
  | enterV4 _ => exact hnone
  | enterV6 _ => exact hnone
  | enterInner _ => exact hnone
  | returnV4 _ => exact exit_events s _ _ _ _ _ .v4
  | returnInner _ => exact exit_events s _ _ _ _ _ .v4
  | returnV6 _ => exact exit_events s _ _ _ _ _ .v6
  | returnOuter _ => exact exit_events s _ _ _ _ _ .v6

end Events

/-! ## What every run keeps -/

/-- The events of the probes are those that were put out; those that were
placed are in the records of their CPU, in order, and the others are counted;
and no sample is too short for an event. -/
structure TerminalInv (n : Size) (s : Terminal) : Prop where
  perf : PerfBuffer.PerfInv n s.perf
  events : s.probes.maps.events = s.puts.map Put.event
  placed : ∀ (i : Nat) (c : Cpu), s.perf.cpus[i]? = some c →
    c.records.filterMap recEvent = putsOn s.puts i true
  whole : ∀ (i : Nat) (c : Cpu), s.perf.cpus[i]? = some c → ∀ misc raw,
    Rec.sample misc raw ∈ c.records → eventOf raw ≠ none
  dropped : ∀ (i : Nat) (c : Cpu), s.perf.cpus[i]? = some c →
    c.dropped.length = (putsOn s.puts i false).length
  handed : ∀ i raw, (i, Callback.sample raw) ∈ s.perf.out → eventOf raw ≠ none

section Runs

variable {n : Size} {s s' : Terminal} {cfg : Config}

theorem putsOn_append (puts more : List Put) (i : Nat) (placed : Bool) :
    putsOn (puts ++ more) i placed = putsOn puts i placed ++ putsOn more i placed := by
  rw [putsOn, List.filter_append, List.map_append]
  rfl

theorem putsOn_eq_nil {puts : List Put} {cpu i : Nat} (h : ∀ p ∈ puts, p.cpu = cpu) (hi : cpu ≠ i)
    (placed : Bool) : putsOn puts i placed = [] := by
  rw [putsOn, List.map_eq_nil_iff, List.filter_eq_nil_iff]
  intro p hp hboth
  rw [Bool.and_eq_true, beq_iff_eq] at hboth
  exact hi ((h p hp).symm.trans hboth.1)

theorem terminalInv_init (n : Size) (data : List (Nat → UInt8)) :
    TerminalInv n (Terminal.init data) where
  perf := PerfBuffer.perfInv_init n data
  events := rfl
  placed i c hc := by
    obtain ⟨d, -, rfl⟩ := List.mem_map.mp (List.mem_of_getElem? hc)
    rfl
  whole i c hc := by
    obtain ⟨d, -, rfl⟩ := List.mem_map.mp (List.mem_of_getElem? hc)
    nofun
  dropped i c hc := by
    obtain ⟨d, -, rfl⟩ := List.mem_map.mp (List.mem_of_getElem? hc)
    rfl
  handed := nofun

/-- A step of the kernel that puts out `more` on its CPU. -/
theorem TerminalInv.kernel (h : TerminalInv n s) {cpu : Nat} {a : PerfBuffer.KernelAction}
    {perf : Perf} (hstep : perfStep n s.perf (.kernel cpu a) = some perf) {probes : System}
    {more : List Put} (hevents : probes.maps.events = s.probes.maps.events ++ more.map Put.event)
    (hcpu : ∀ p ∈ more, p.cpu = cpu)
    (hplaced : ∀ lost, (a.written lost).filterMap recEvent = putsOn more cpu true)
    (hwhole : ∀ lost misc raw, Rec.sample misc raw ∈ a.written lost → eventOf raw ≠ none)
    (hdropped : a.dropped.length = (putsOn more cpu false).length) :
    TerminalInv n ⟨probes, perf, s.puts ++ more⟩ := by
  have hperf := PerfBuffer.perfInv_step h.perf hstep
  simp only [perfStep] at hstep
  split at hstep
  · rename_i c₀ hc₀
    obtain ⟨c₁, hc₁, rfl⟩ := Option.map_eq_some_iff.mp hstep
    obtain ⟨hrecords, hdrops⟩ := PerfBuffer.kernelStep_cases hc₁
    have hcases : ∀ {i : Nat} {c : Cpu}, (s.perf.cpus.set cpu c₁)[i]? = some c →
        (cpu = i ∧ c = c₁) ∨ (cpu ≠ i ∧ s.perf.cpus[i]? = some c) := by
      intro i c hc
      by_cases hi : cpu = i
      · subst hi
        rw [List.getElem?_set_self (List.getElem?_eq_some_iff.mp hc₀).1] at hc
        exact Or.inl ⟨rfl, (Option.some.inj hc).symm⟩
      · rw [List.getElem?_set_ne hi] at hc
        exact Or.inr ⟨hi, hc⟩
    refine ⟨hperf, ?_, fun i c hc => ?_, fun i c hc => ?_, fun i c hc => ?_, h.handed⟩
    · rw [List.map_append, ← h.events]
      exact hevents
    · rw [putsOn_append]
      rcases hcases hc with ⟨rfl, rfl⟩ | ⟨hi, hold⟩
      · rw [hrecords, List.filterMap_append, h.placed cpu c₀ hc₀, hplaced]
      · rw [putsOn_eq_nil hcpu hi, List.append_nil]
        exact h.placed i c hold
    · intro misc raw hmem
      rcases hcases hc with ⟨rfl, rfl⟩ | ⟨-, hold⟩
      · rw [hrecords] at hmem
        rcases List.mem_append.mp hmem with hmem | hmem
        · exact h.whole cpu c₀ hc₀ misc raw hmem
        · exact hwhole _ misc raw hmem
      · exact h.whole i c hold misc raw hmem
    · rw [putsOn_append, List.length_append]
      rcases hcases hc with ⟨rfl, rfl⟩ | ⟨hi, hold⟩
      · rw [hdrops, List.length_append, h.dropped cpu c₀ hc₀, hdropped]
      · rw [putsOn_eq_nil hcpu hi, List.length_nil, Nat.add_zero]
        exact h.dropped i c hold
  · cases hstep

/-- The reader leaves what was put out, and hands over what is in the buffers. -/
theorem TerminalInv.reader (h : TerminalInv n s) {perf : Perf} (hperf : PerfBuffer.PerfInv n perf)
    (hkeeps : ∀ (i : Nat) (c' : Cpu), perf.cpus[i]? = some c' →
      ∃ c, s.perf.cpus[i]? = some c ∧ c'.records = c.records ∧ c'.dropped = c.dropped)
    (hout : ∀ o ∈ perf.out, o ∈ s.perf.out ∨
      ∃ c, s.perf.cpus[o.1]? = some c ∧ ∃ r ∈ c.records, o.2 = r.callback) :
    TerminalInv n { s with perf := perf } where
  perf := hperf
  events := h.events
  placed i c' hc' := by
    obtain ⟨c, hc, hrecords, -⟩ := hkeeps i c' hc'
    rw [hrecords]
    exact h.placed i c hc
  whole i c' hc' := by
    obtain ⟨c, hc, hrecords, -⟩ := hkeeps i c' hc'
    rw [hrecords]
    exact h.whole i c hc
  dropped i c' hc' := by
    obtain ⟨c, hc, -, hdropped⟩ := hkeeps i c' hc'
    rw [hdropped]
    exact h.dropped i c hc
  handed i raw hmem := by
    rcases hout _ hmem with hold | ⟨c, hc, r, hr, hcb⟩
    · exact h.handed i raw hold
    · cases r with
      | sample misc raw' =>
          obtain rfl := Callback.sample.inj hcb
          exact h.whole i c hc misc raw hr
      | lost => cases hcb
      | other => cases hcb

theorem terminalInv_poll (h : TerminalInv n s) {alloc : Bool}
    (hstep : s.perfStep n (.poll alloc) = some s') : TerminalInv n s' := by
  obtain ⟨perf, hperf, rfl⟩ := Option.map_eq_some_iff.mp hstep
  exact h.reader (PerfBuffer.perfInv_step h.perf hperf)
    (fun i c' hc' => PerfBuffer.pollStep_keeps h.perf hperf hc')
    fun o ho => PerfBuffer.pollStep_out h.perf hperf ho

theorem terminalInv_wait (h : TerminalInv n s) {ready : List Nat}
    (hstep : s.perfStep n (.wait ready) = some s') : TerminalInv n s' := by
  obtain ⟨perf, hperf, rfl⟩ := Option.map_eq_some_iff.mp hstep
  have hinv := PerfBuffer.perfInv_step h.perf hperf
  simp only [perfStep] at hperf
  split at hperf
  · split at hperf
    · obtain rfl := Option.some.inj hperf
      exact h.reader hinv (fun i c' hc' => ⟨c', hc', rfl, rfl⟩) fun o ho => Or.inl ho
    · cases hperf
  · cases hperf

theorem terminalInv_step [HashOrder UInt32] [HashOrder Ipv4FlowKey] [HashOrder Ipv6FlowKey]
    {a : TerminalAction} (h : TerminalInv n s) (hstep : terminalStep cfg n s a = some s') :
    TerminalInv n s' := by
  cases a with
  | fire cpu f room =>
      simp only [terminalStep] at hstep
      split at hstep
      · rename_i p hp
        obtain ⟨e, he⟩ := connectStep_events hp
        rw [he, List.drop_left] at hstep
        cases e with
        | none =>
            obtain rfl := Option.some.inj hstep
            exact ⟨h.perf, he.trans ((List.append_nil _).trans h.events), h.placed, h.whole,
              h.dropped, h.handed⟩
        | some e =>
            obtain ⟨perf, hperf, rfl⟩ := Option.map_eq_some_iff.mp hstep
            refine h.kernel hperf he (fun q hq => ?_) (fun lost => ?_)
              (fun lost misc raw hmem => ?_) ?_
            · rw [List.mem_singleton.mp hq]
            · cases room with
              | placed misc pad =>
                  simp [Room.action, PerfBuffer.KernelAction.written, recEvent, eventOf_bytes,
                    putsOn, Room.isPlaced]
              | dropped =>
                  simp [Room.action, PerfBuffer.KernelAction.written, putsOn, Room.isPlaced]
            · cases room with
              | placed misc' pad =>
                  obtain ⟨rfl, rfl⟩ := Rec.sample.inj (List.mem_singleton.mp hmem)
                  rw [eventOf_bytes]
                  nofun
              | dropped => cases hmem
            · cases room with
              | placed misc pad =>
                  simp [Room.action, PerfBuffer.KernelAction.dropped, putsOn, Room.isPlaced]
              | dropped =>
                  simp [Room.action, PerfBuffer.KernelAction.dropped, putsOn, Room.isPlaced]
      · cases hstep
  | lost cpu misc id more =>
      obtain ⟨perf, hperf, rfl⟩ := Option.map_eq_some_iff.mp hstep
      have hinv : TerminalInv n ⟨s.probes, perf, s.puts ++ []⟩ :=
        h.kernel hperf (List.append_nil _).symm nofun (fun _ => rfl)
          (fun _ _ _ hmem => by cases List.mem_singleton.mp hmem) rfl
      rwa [List.append_nil] at hinv
  | other cpu type misc body =>
      obtain ⟨perf, hperf, rfl⟩ := Option.map_eq_some_iff.mp hstep
      have hinv : TerminalInv n ⟨s.probes, perf, s.puts ++ []⟩ :=
        h.kernel hperf (List.append_nil _).symm nofun (fun _ => rfl)
          (fun _ _ _ hmem => by cases List.mem_singleton.mp hmem) rfl
      rwa [List.append_nil] at hinv
  | wait ready =>
      simp only [terminalStep] at hstep
      split at hstep
      · exact terminalInv_wait h hstep
      · cases hstep
  | poll alloc => exact terminalInv_poll h hstep

/-- The messages for a CPU are those for its first records. -/
theorem TerminalInv.shows (h : TerminalInv n s) (env : Env) {i : Nat} {c : Cpu}
    (hc : s.perf.cpus[i]? = some c) :
    List.Forall₂ (Shows env (eventsOf s.perf.out))
      ((c.records.take (handedBy s.perf.out i).length).map Rec.callback) (s.messagesOf env i) := by
  rw [← (h.perf.cpu i c hc).first]
  exact shows_messages env i (fun _ => rfl) (List.nil_append _).symm h.handed

end Runs

section InOrder

variable [HashOrder UInt32] [HashOrder Ipv4FlowKey] [HashOrder Ipv6FlowKey] {cfg : Config}
  {n : Size} {data : List (Nat → UInt8)} {tr : List TerminalAction} {s : Terminal}

theorem exec_terminalInv (h : exec (terminalStep cfg n) (Terminal.init data) tr = some s) :
    TerminalInv n s :=
  exec_invariant (fun _ _ _ => terminalInv_step) (terminalInv_init n data) h

end InOrder

/-- Threads 7 and 8 connect on two CPUs; the event of thread 7 is dropped, and
the other is printed while the loss is not told yet. -/
def twoThreads : List TerminalAction :=
  [.fire 0 (.enterV6 7 1 ⟨70, 0, Buf.zero 16⟩) .dropped,
    .fire 1 (.enterV4 8 2 ⟨80, 0, Buf.zero 16⟩) .dropped, .fire 0 (.enterInner 7) .dropped,
    .fire 1 (.returnV4 8 0 sampleMem 1000) (.placed 0 [1, 2, 3, 4]), .wait [1, 0], .poll false,
    .fire 0 (.returnV4 7 0 sampleMem 2000) .dropped, .poll false, .poll false, .poll false,
    .poll false, .poll false, .poll false, .poll false, .lost 0 0 7 []]

/-- A step on tables that put every new key in front. -/
def sampleTerminalStep (s : Terminal) (a : TerminalAction) : Option Terminal :=
  @terminalStep ⟨fun _ => 0⟩ ⟨fun _ => 0⟩ ⟨fun _ => 0⟩ sampleConfig RingBuffer.page s a

/-- Two buffers, with anything in them. -/
def twoBuffers : Terminal := Terminal.init [fun _ => 0, fun _ => 255]

section Complete

variable [HashOrder UInt32] [HashOrder Ipv4FlowKey] [HashOrder Ipv6FlowKey] {cfg : Config}
  {n : Size} {data : List (Nat → UInt8)} {tr : List TerminalAction} {s : Terminal}

/-- What the reader does alone, it does here. -/
theorem exec_polls {m : Nat} {perf : Perf}
    (h : exec (perfStep n) s.perf (List.replicate m (.poll true)) = some perf) :
    exec (terminalStep cfg n) s (List.replicate m (.poll true)) = some { s with perf := perf } := by
  induction m generalizing s with
  | zero =>
      obtain rfl := Option.some.inj h
      rfl
  | succ m ih =>
      obtain ⟨perf₁, hstep, hrest⟩ := exec_cons.mp h
      refine exec_cons.mpr ⟨{ s with perf := perf₁ }, ?_, ih hrest⟩
      rw [terminalStep, Terminal.perfStep, hstep]
      rfl

/-- As long as no poll has failed, one more poll of all CPUs shows a line for
each event there was room for, and of each CPU in their order. -/
theorem terminal_complete (env : Env)
    (h : exec (terminalStep cfg n) (Terminal.init data) tr = some s)
    (hpc : s.perf.pc = .returned none)
    (hknown : ∀ c ∈ s.perf.cpus, ∀ r ∈ c.records, r.ret = .cont) :
    ∃ m s', exec (terminalStep cfg n) s
        (.wait (List.range s.perf.cpus.length) :: List.replicate m (.poll true)) = some s' ∧
      s'.perf.pc = .returned none ∧ s'.probes = s.probes ∧ s'.puts = s.puts ∧
      ∀ i < s.perf.cpus.length, List.Forall₂ (LineOf env (eventsOf s'.perf.out))
        (putsOn s.puts i true) ((s'.messagesOf env i).filterMap Message.line) := by
  have hinv := exec_terminalInv h
  have hwait : perfStep n s.perf (.wait (List.range s.perf.cpus.length))
      = some { s.perf with pc := .next (List.range s.perf.cpus.length) } := by
    simp only [perfStep, hpc, if_pos fun i hi => List.mem_range.mp hi]
  obtain ⟨m, perf, hexec, hpc', hrecords, hempty, -⟩ :=
    PerfBuffer.round_empties (PerfBuffer.perfInv_step hinv.perf hwait) rfl (by
      intro rs hrs r hr
      obtain ⟨c, hc, rfl⟩ := List.mem_map.mp hrs
      exact hknown c hc r hr)
  have hrun : exec (terminalStep cfg n) s
      (.wait (List.range s.perf.cpus.length) :: List.replicate m (.poll true))
        = some { s with perf := perf } := by
    refine exec_cons.mpr ⟨{ s with perf := { s.perf with
      pc := .next (List.range s.perf.cpus.length) } }, ?_, exec_polls hexec⟩
    rw [terminalStep, if_pos hpc, Terminal.perfStep, hwait]
    rfl
  have hinv' : TerminalInv n { s with perf := perf } :=
    exec_invariant (fun _ _ _ => terminalInv_step) hinv hrun
  refine ⟨m, _, hrun, hpc', rfl, rfl, fun i hi => ?_⟩
  have hlen : perf.cpus.length = s.perf.cpus.length := by
    have hlen := congrArg List.length hrecords
    rwa [PerfBuffer.Perf.records, PerfBuffer.Perf.records, List.length_map, List.length_map] at hlen
  obtain ⟨c, hc⟩ : ∃ c, perf.cpus[i]? = some c :=
    ⟨_, List.getElem?_eq_getElem (show i < perf.cpus.length by omega)⟩
  have hall := hempty i (List.mem_range.mpr hi) c.records (PerfBuffer.records_getElem? hc)
  have hshows := hinv'.shows env hc
  rw [hall, List.length_map, List.take_length] at hshows
  exact hinv'.placed i c hc ▸ lines_of_shows hshows

end Complete

theorem terminal_complete_twoThreads :
    ∃ s, exec sampleTerminalStep twoBuffers twoThreads = some s ∧
      ∃ m s', exec sampleTerminalStep s
          (.wait (List.range s.perf.cpus.length) :: List.replicate m (.poll true)) = some s' ∧
        s'.perf.pc = .returned none ∧ s'.probes = s.probes ∧ s'.puts = s.puts ∧
        ∀ i < s.perf.cpus.length, List.Forall₂ (LineOf timestampEnv (eventsOf s'.perf.out))
          (putsOn s.puts i true) ((s'.messagesOf timestampEnv i).filterMap Message.line) := by
  have hruns : ((exec sampleTerminalStep twoBuffers twoThreads).any fun s =>
      decide (s.perf.pc = .returned none) &&
        s.perf.cpus.all fun c => c.records.all fun r => decide (r.ret = .cont)) = true := by
    decide +kernel
  obtain ⟨s, hs, hall⟩ := (Option.any_eq_true _ _).mp hruns
  simp only [Bool.and_eq_true, decide_eq_true_eq, List.all_eq_true] at hall
  exact ⟨s, hs, @terminal_complete ⟨fun _ => 0⟩ ⟨fun _ => 0⟩ ⟨fun _ => 0⟩ sampleConfig
    RingBuffer.page _ _ s timestampEnv hs hall.1 hall.2⟩

end NetProbes.TcpConnect
