/-
# `NetProbes.Netfilter.IptTable` — the two probes on `ipt_do_table`

`netfilter.bpf.c` puts the arguments of a call into a map on entry, under the id
of the thread, and takes them out on return to send an event.  The map has room
for one entry.

    entry    update
    return   lookup, delete, then the reads, all through the pointer that the
             lookup gave: args->skb, args->state->hook, args->state->pf,
             args->table->name; then the event

So an entry while another thread's arguments are in the map is lost, and a
delete gives the memory back before it is read.  In a run with neither every
return is right (`returns_right`).

A thread is its id.  A call whose entry the probe did not see is one too; the
kernel changes what the arguments of a call point to only between calls, which
is said of its steps (`KernelKeeps`).  The fields `args`, `hookState` and
`tableName` of a call are there to say which event it should send.
-/
import NetProbes.Lib.HashMap
import NetProbes.Lib.Bytes
import NetProbes.Lib.Run

namespace NetProbes.Netfilter.IptTable

open NetProbes.Lib

/-! ## Data -/

/-- `struct ipt_do_table_args`, the pointers as addresses. -/
structure Args where
  skb : UInt64
  state : UInt64
  table : UInt64
  startNs : UInt64
  deriving DecidableEq

/-- The fields of `struct nf_hook_state` that are read. -/
structure HookState where
  hook : UInt32
  pf : UInt8
  deriving DecidableEq

/-- `struct event_data_t`. -/
structure EventData where
  skb : UInt64
  pid : UInt32
  hook : UInt32
  verdict : UInt32
  pf : UInt8
  reserv : Buf 3
  table : Buf 32
  deriving DecidableEq

/-- `struct event_data_t evt = {}`. -/
def EventData.zero : EventData := ⟨0, 0, 0, 0, 0, Buf.zero 3, Buf.zero 32⟩

/-- Where a call is: in `ipt_do_table`, or at the next step of the return probe,
which has a pointer to its arguments from the lookup on. -/
inductive Stage where
  | running
  | lookup
  | delete (args : Nat)
  | readSkb (args : Nat)
  | readHook (args : Nat)
  | readPf (args : Nat)
  | readTable (args : Nat)
  | submit
  deriving DecidableEq

/-- A call in progress. -/
structure Call where
  args : Args
  seen : Bool
  hookState : HookState
  tableName : Buf 32
  verdict : UInt32
  stage : Stage
  evt : EventData
  deriving DecidableEq

/-- A call that has returned, with the events its return probe sent. -/
structure Returned where
  pid : UInt32
  call : Call
  emitted : List EventData
  deriving DecidableEq

/-- The map from threads to memory, the memory, what the pointers of the kernel
point to, the calls by thread, and the calls that have returned. -/
structure State where
  curIptDoTableArgs : HashMap UInt32 Nat 1
  elems : Nat → Args
  states : UInt64 → HookState
  tables : UInt64 → Buf 32
  calls : UInt32 → Option Call
  returned : List Returned

/-- No call yet, and anything in memory. -/
def State.init (elems : Nat → Args) (states : UInt64 → HookState) (tables : UInt64 → Buf 32) :
    State where
  curIptDoTableArgs := HashMap.empty
  elems := elems
  states := states
  tables := tables
  calls _ := none
  returned := []

/-! ## Steps -/

/-- The thread goes on with its call. -/
def State.move (s : State) (pid : UInt32) (c : Call) : State :=
  { s with calls := Function.update s.calls pid (some c) }

/-- The call of the thread is over. -/
def State.finish (s : State) (pid : UInt32) (c : Call) (emitted : List EventData) : State :=
  { s with
    calls := Function.update s.calls pid none
    returned := s.returned ++ [⟨pid, c, emitted⟩] }

/-- The thread calls `ipt_do_table`. -/
def State.begin (s : State) (pid : UInt32) (args : Args) (seen : Bool) : State :=
  s.move pid {
    args := args
    seen := seen
    hookState := s.states args.state
    tableName := s.tables args.table
    verdict := 0
    stage := .running
    evt := EventData.zero }

/-- `kprobe__ipt_do_table`; `addr` is the memory a new element gets, which is
none that an element has.  That the update can fail is not looked at. -/
def kprobeIptDoTable [HashOrder UInt32] (s : State) (pid : UInt32) (args : Args) (addr : Nat) :
    Option State :=
  match s.curIptDoTableArgs.update pid addr .any with
  | .ok map =>
      if addr ∈ s.curIptDoTableArgs.entries.map Prod.snd then none
      else some { s with
        curIptDoTableArgs := map
        elems := Function.update s.elems addr args }
  | .error _ => some s

/-- The next step of `kretprobe__ipt_do_table` in the thread. -/
def kretprobeIptDoTable (s : State) (pid : UInt32) : Option State :=
  match s.calls pid with
  | none => none
  | some c =>
      match c.stage with
      | .running => none
      | .lookup =>
          match s.curIptDoTableArgs.lookup pid with
          | none => some (s.finish pid c [])
          | some args => some (s.move pid { c with stage := .delete args })
      | .delete args =>
          match s.curIptDoTableArgs.delete pid with
          | .ok map => some ({ s with curIptDoTableArgs := map }.move pid
              { c with stage := .readSkb args })
          | .error _ => some (s.move pid { c with stage := .readSkb args })
      | .readSkb args => some (s.move pid { c with
          stage := .readHook args
          evt := { c.evt with pid := pid, skb := (s.elems args).skb } })
      | .readHook args => some (s.move pid { c with
          stage := .readPf args
          evt := { c.evt with hook := (s.states (s.elems args).state).hook } })
      | .readPf args => some (s.move pid { c with
          stage := .readTable args
          evt := { c.evt with pf := (s.states (s.elems args).state).pf } })
      | .readTable args => some (s.move pid { c with
          stage := .submit
          evt := { c.evt with table := s.tables (s.elems args).table } })
      | .submit => some (s.finish pid c [{ c.evt with verdict := c.verdict }])

/-- A thread enters `ipt_do_table`, seen by the entry probe or not; it returns;
its return probe makes a step; the kernel changes its own memory. -/
inductive Action where
  | enter (pid : UInt32) (args : Args) (addr : Nat)
  | enterUnseen (pid : UInt32) (args : Args)
  | ret (pid : UInt32) (verdict : UInt32)
  | probe (pid : UInt32)
  | storeState (addr : UInt64) (v : HookState)
  | storeTable (addr : UInt64) (name : Buf 32)

/-- Calls of one thread are not nested. -/
def iptStep [HashOrder UInt32] (s : State) : Action → Option State
  | .enter pid args addr =>
      match s.calls pid with
      | some _ => none
      | none => (kprobeIptDoTable s pid args addr).map fun s => s.begin pid args true
  | .enterUnseen pid args =>
      match s.calls pid with
      | some _ => none
      | none => some (s.begin pid args false)
  | .ret pid verdict =>
      match s.calls pid with
      | none => none
      | some c =>
          if c.stage = .running then some (s.move pid { c with verdict := verdict, stage := .lookup })
          else none
  | .probe pid => kretprobeIptDoTable s pid
  | .storeState addr v => some { s with states := Function.update s.states addr v }
  | .storeTable addr name => some { s with tables := Function.update s.tables addr name }

/-! ## What is wanted, and when -/

/-- The event of a call. -/
def eventOf (pid : UInt32) (c : Call) : EventData where
  skb := c.args.skb
  pid := pid
  hook := c.hookState.hook
  verdict := c.verdict
  pf := c.hookState.pf
  reserv := Buf.zero 3
  table := c.tableName

/-- A return whose entry was seen has sent the event of its call, and no other
return has sent any. -/
def Returned.Right (r : Returned) : Prop :=
  r.emitted = if r.call.seen then [eventOf r.pid r.call] else []

instance decRight (r : Returned) : Decidable r.Right := inferInstanceAs (Decidable (_ = _))

/-- The kernel leaves alone what a call in progress points to. -/
def KernelKeeps (s : State) : Action → Prop
  | .storeState addr _ => ∀ pid c, s.calls pid = some c → c.args.state ≠ addr
  | .storeTable addr _ => ∀ pid c, s.calls pid = some c → c.args.table ≠ addr
  | _ => True

/-- The memory a return probe still reads. -/
def Stage.pointer : Stage → Option Nat
  | .running => none
  | .lookup => none
  | .delete args => some args
  | .readSkb args => some args
  | .readHook args => some args
  | .readPf args => some args
  | .readTable args => some args
  | .submit => none

/-- An entry finds no arguments of another thread in the map, and gets no memory
that a return probe still reads. -/
def Alone (s : State) : Action → Prop
  | .enter pid _ addr => (∀ e ∈ s.curIptDoTableArgs.entries, e.1 = pid) ∧
      ∀ pid' c, s.calls pid' = some c → c.stage.pointer ≠ some addr
  | _ => True

/-! ## What a step can be -/

/-- The steps of the return probe, by the stage it is in.  A delete leaves no
arguments of the thread, whatever it returns. -/
inductive ProbeMove (s : State) (pid : UInt32) (c : Call) : Stage → State → Prop
  | gone : s.curIptDoTableArgs.lookup pid = none → ProbeMove s pid c .lookup (s.finish pid c [])
  | found {args : Nat} : s.curIptDoTableArgs.lookup pid = some args →
      ProbeMove s pid c .lookup (s.move pid { c with stage := .delete args })
  | delete {args : Nat} {map : HashMap UInt32 Nat 1} :
      (∀ k, map.lookup k = if k = pid then none else s.curIptDoTableArgs.lookup k) →
      ProbeMove s pid c (.delete args)
        ({ s with curIptDoTableArgs := map }.move pid { c with stage := .readSkb args })
  | readSkb {args : Nat} : ProbeMove s pid c (.readSkb args) (s.move pid { c with
      stage := .readHook args
      evt := { c.evt with pid := pid, skb := (s.elems args).skb } })
  | readHook {args : Nat} : ProbeMove s pid c (.readHook args) (s.move pid { c with
      stage := .readPf args
      evt := { c.evt with hook := (s.states (s.elems args).state).hook } })
  | readPf {args : Nat} : ProbeMove s pid c (.readPf args) (s.move pid { c with
      stage := .readTable args
      evt := { c.evt with pf := (s.states (s.elems args).state).pf } })
  | readTable {args : Nat} : ProbeMove s pid c (.readTable args) (s.move pid { c with
      stage := .submit
      evt := { c.evt with table := s.tables (s.elems args).table } })
  | submit : ProbeMove s pid c .submit (s.finish pid c [{ c.evt with verdict := c.verdict }])

/-- A return probe that has started makes one of these steps. -/
theorem kretprobe_move {s : State} {pid : UInt32} {c : Call} (hc : s.calls pid = some c)
    (hstage : c.stage ≠ .running) :
    ∃ s', kretprobeIptDoTable s pid = some s' ∧ ProbeMove s pid c c.stage s' := by
  simp only [kretprobeIptDoTable, hc]
  cases hst : c.stage with
  | running => exact absurd hst hstage
  | lookup =>
      cases hl : s.curIptDoTableArgs.lookup pid with
      | none => exact ⟨_, rfl, .gone hl⟩
      | some args => exact ⟨_, rfl, .found hl⟩
  | delete args =>
      cases hd : s.curIptDoTableArgs.delete pid with
      | ok map => exact ⟨_, rfl, .delete (HashMap.lookup_delete hd)⟩
      | error e =>
          have habs : s.curIptDoTableArgs.lookup pid = none := by
            cases hl : s.curIptDoTableArgs.lookup pid with
            | none => rfl
            | some a =>
                rw [HashMap.delete_eq ⟨a, hl⟩] at hd
                cases hd
          have hsame : ∀ k, s.curIptDoTableArgs.lookup k
              = if k = pid then none else s.curIptDoTableArgs.lookup k := by
            intro k
            split
            · rename_i hk
              rw [hk, habs]
            · rfl
          exact ⟨_, rfl, .delete hsame⟩
  | readSkb args => exact ⟨_, rfl, .readSkb⟩
  | readHook args => exact ⟨_, rfl, .readHook⟩
  | readPf args => exact ⟨_, rfl, .readPf⟩
  | readTable args => exact ⟨_, rfl, .readTable⟩
  | submit => exact ⟨_, rfl, .submit⟩

theorem kretprobe_cases {s s' : State} {pid : UInt32} (h : kretprobeIptDoTable s pid = some s') :
    ∃ c, s.calls pid = some c ∧ ProbeMove s pid c c.stage s' := by
  cases hc : s.calls pid with
  | none => simp [kretprobeIptDoTable, hc] at h
  | some c =>
      by_cases hstage : c.stage = .running
      · simp [kretprobeIptDoTable, hc, hstage] at h
      · obtain ⟨s₁, hs₁, hmove⟩ := kretprobe_move hc hstage
        rw [hs₁, Option.some.injEq] at h
        exact ⟨c, rfl, h ▸ hmove⟩

end NetProbes.Netfilter.IptTable
