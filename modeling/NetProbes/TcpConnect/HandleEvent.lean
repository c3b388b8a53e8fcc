/-
# `NetProbes.TcpConnect.HandleEvent` — the time offsets `tcpconnect -t` prints

`handle_event` of `tcpconnect.c` prints one line for each event.  With `-t` the
line starts with the time since a reference, the static `start_ts`:

    start_ts == 0   not set yet: the event's own time becomes the reference
    ts_us - start_ts   in 64 bits without a sign, then divided by 1000000.0

Events come from one buffer for each CPU and in any order, so an event can be
older than the reference, and a time of 0 leaves the reference unset.  The
offsets are right exactly where neither happens (`offsets_true_iff`).

A line is what is handed to `printf`; the offset is kept as the number of
microseconds that is divided, and the rounding of the division is not modelled.
-/
import NetProbes.TcpConnect.Options

namespace NetProbes.TcpConnect

open NetProbes.Lib

/-! ## The handler -/

/-- A line: the offset in microseconds, the user, the process, the name of the
thread (of which 12 bytes are printed), the IP version, the addresses and the
port. -/
structure Line where
  offset : Option UInt64
  uid : Option UInt32
  pid : UInt32
  task : List UInt8
  version : Nat
  src : List UInt8
  dst : List UInt8
  dport : UInt16

/-- What a call prints. -/
inductive Printed where
  | line (l : Line)
  | broken (af : UInt32)

/-- The address bytes of a union, by the address family. -/
def addrBytes (af : UInt32) (addr : Buf 16) : List UInt8 := if af = 2 then addr.1.take 4 else addr.1

/-- `handle_event`: what it prints, and `start_ts`. -/
def handleEvent (env : Env) (startTs : UInt64) (event : Event) : Printed × UInt64 :=
  if event.af = 2 ∨ event.af = 10 then
    let startTs := if env.printTimestamp ∧ startTs = 0 then event.tsUs else startTs
    (.line {
      offset := if env.printTimestamp then some (event.tsUs - startTs) else none
      uid := if env.printUid then some event.uid else none
      pid := event.pid
      task := event.task.1.take 12
      version := if event.af = 2 then 4 else 6
      src := addrBytes event.af event.saddr
      dst := addrBytes event.af event.daddr
      dport := bswap16 event.dport }, startTs)
  else (.broken event.af, startTs)

/-- The calls for a sequence of events: what they print, and `start_ts`. -/
def handleEvents (env : Env) : UInt64 → List Event → List Printed × UInt64
  | startTs, [] => ([], startTs)
  | startTs, event :: events =>
      let (out, startTs) := handleEvent env startTs event
      let (outs, startTs) := handleEvents env startTs events
      (out :: outs, startTs)

/-! ## True offsets -/

/-- The event has an address family that is known. -/
def Event.Known (e : Event) : Prop := e.af = 2 ∨ e.af = 10

instance decKnown (e : Event) : Decidable e.Known := inferInstanceAs (Decidable (_ ∨ _))

/-- The time of the first event that is printed. -/
def reference (events : List Event) : Option UInt64 :=
  (events.find? fun e => e.Known).map Event.tsUs

/-- The offset that is printed for the event, if it is printed, is its true
distance from the reference. -/
def Tells (ref : UInt64) (e : Event) : Printed → Prop
  | .line l => ∃ offset, l.offset = some offset ∧
      (offset.toNat : Int) = (e.tsUs.toNat : Int) - (ref.toNat : Int)
  | .broken _ => ¬ e.Known

/-- Every offset is the distance from the time of the first event, and `start_ts`
is that time after every call from the first event on. -/
structure OffsetsTrue (env : Env) (events : List Event) : Prop where
  offsets : ∀ ref ∈ reference events,
    List.Forall₂ (Tells ref) events (handleEvents env 0 events).1
  fixed : ∀ ref ∈ reference events, ∀ before, before <+: events → (∃ e ∈ before, e.Known) →
    (handleEvents env 0 before).2 = ref

/-- No event is older than the first, and one of time 0 is not followed by any
other time. -/
def InOrder (events : List Event) : Prop :=
  ∀ ref ∈ reference events, ∀ e ∈ events, e.Known → ref ≤ e.tsUs ∧ (ref = 0 → e.tsUs = 0)

/-! ## One call -/

theorem sub_toNat_iff (a b : UInt64) :
    ((a - b).toNat : Int) = (a.toNat : Int) - (b.toNat : Int) ↔ b ≤ a := by
  have ha := a.toNat_lt
  have hb := b.toNat_lt
  rw [UInt64.toNat_sub, UInt64.le_iff_toNat_le]
  omega

section Calls
variable {env : Env} (ht : env.printTimestamp = true) {startTs ref : UInt64} {e : Event}

theorem handleEvent_unknown (hk : ¬ e.Known) :
    handleEvent env startTs e = (.broken e.af, startTs) := if_neg hk

include ht

theorem handleEvent_start (hk : e.Known) :
    (handleEvent env startTs e).2 = if startTs = 0 then e.tsUs else startTs := by
  have hk : e.af = 2 ∨ e.af = 10 := hk
  rw [handleEvent, if_pos hk]
  simp only [ht, true_and]

/-- The offset is taken from the reference after the call. -/
theorem tells_handleEvent_iff (hk : e.Known) :
    Tells ref e (handleEvent env startTs e).1 ↔
      (((e.tsUs - (handleEvent env startTs e).2).toNat : Int)
        = (e.tsUs.toNat : Int) - (ref.toNat : Int)) := by
  have hk : e.af = 2 ∨ e.af = 10 := hk
  rw [handleEvent, if_pos hk]
  simp only [Tells, ht, if_true, Option.some.injEq, exists_eq_left']

/-- A call at the reference tells the truth, and keeps the reference, exactly
for an event that is not older and does not set it anew. -/
theorem tells_at_reference (hk : e.Known) :
    Tells ref e (handleEvent env ref e).1 ↔ ref ≤ e.tsUs ∧ (ref = 0 → e.tsUs = 0) := by
  rw [tells_handleEvent_iff ht hk, handleEvent_start ht hk]
  split
  · rename_i hzero
    subst hzero
    rw [UInt64.sub_self]
    constructor
    · intro h
      have hts : e.tsUs = 0 := by
        apply UInt64.toNat_inj.mp
        have h₀ : (0 : UInt64).toNat = 0 := rfl
        omega
      exact ⟨by rw [hts]; exact UInt64.le_refl 0, fun _ => hts⟩
    · rintro ⟨-, h⟩
      rw [h rfl]
      rfl
  · rename_i hne
    rw [sub_toNat_iff]
    exact ⟨fun h => ⟨h, fun hzero => absurd hzero hne⟩, And.left⟩

theorem handleEvent_keeps (hk : e.Known) (h : ref = 0 → e.tsUs = 0) :
    (handleEvent env ref e).2 = ref := by
  rw [handleEvent_start ht hk]
  split
  · rename_i hzero
    rw [hzero, h hzero]
  · rfl

/-! ## All calls -/

/-- From the first event on. -/
theorem forall₂_tells_iff (ref : UInt64) (events : List Event) :
    List.Forall₂ (Tells ref) events (handleEvents env ref events).1 ↔
      ∀ e ∈ events, e.Known → ref ≤ e.tsUs ∧ (ref = 0 → e.tsUs = 0) := by
  induction events with
  | nil => simp [handleEvents]
  | cons e events ih =>
      simp only [handleEvents, List.forall₂_cons, List.forall_mem_cons]
      by_cases hk : e.Known
      · rw [tells_at_reference ht hk]
        constructor
        · rintro ⟨he, hrest⟩
          rw [handleEvent_keeps ht hk he.2] at hrest
          exact ⟨fun _ => he, ih.mp hrest⟩
        · rintro ⟨he, hrest⟩
          rw [handleEvent_keeps ht hk (he hk).2]
          exact ⟨he hk, ih.mpr hrest⟩
      · rw [handleEvent_unknown hk, ih]
        exact and_congr (iff_of_true hk fun h => absurd h hk) Iff.rfl

theorem handleEvents_keeps (ref : UInt64) (events : List Event)
    (h : ∀ e ∈ events, e.Known → ref = 0 → e.tsUs = 0) :
    (handleEvents env ref events).2 = ref := by
  induction events with
  | nil => rfl
  | cons e events ih =>
      obtain ⟨he, hrest⟩ := List.forall_mem_cons.mp h
      simp only [handleEvents]
      by_cases hk : e.Known
      · rw [handleEvent_keeps ht hk (he hk)]
        exact ih hrest
      · rw [handleEvent_unknown hk]
        exact ih hrest

/-! ## From the start -/

omit ht in
theorem reference_known (events : List Event) (hk : e.Known) :
    reference (e :: events) = some e.tsUs := by
  rw [reference, List.find?_cons_of_pos (by simpa using hk), Option.map_some]

omit ht in
theorem reference_unknown (events : List Event) (hk : ¬ e.Known) :
    reference (e :: events) = reference events := by
  rw [reference, List.find?_cons_of_neg (by simpa using hk), reference]

/-- The first event sets the reference, before its own offset is taken. -/
theorem handleEvents_first (events : List Event) (hk : e.Known) :
    handleEvents env 0 (e :: events) = handleEvents env e.tsUs (e :: events) := by
  have hk' : e.af = 2 ∨ e.af = 10 := hk
  have hsame : handleEvent env 0 e = handleEvent env e.tsUs e := by
    rw [handleEvent, handleEvent, if_pos hk', if_pos hk']
    simp only [ht, true_and, if_true, ite_self]
  rw [handleEvents, handleEvents, hsame]

theorem forall₂_tells_start_iff (events : List Event) :
    (∀ ref ∈ reference events, List.Forall₂ (Tells ref) events (handleEvents env 0 events).1) ↔
      InOrder events := by
  induction events with
  | nil => simp [InOrder, reference]
  | cons e events ih =>
      by_cases hk : e.Known
      · simp only [InOrder, reference_known events hk, Option.mem_some_iff, forall_eq']
        rw [handleEvents_first ht events hk, forall₂_tells_iff ht]
      · have hout : (handleEvents env 0 (e :: events)).1
            = .broken e.af :: (handleEvents env 0 events).1 := by
          rw [handleEvents, handleEvent_unknown hk]
        simp only [InOrder, reference_unknown events hk, hout, List.forall₂_cons,
          List.forall_mem_cons] at ih ⊢
        simp only [Tells, hk, not_false_eq_true, true_and, false_implies, ih]

theorem handleEvents_fixed (before : List Event) (hknown : ∃ e ∈ before, e.Known)
    (ref : UInt64) (href : ref ∈ reference before)
    (h : ∀ e ∈ before, e.Known → ref = 0 → e.tsUs = 0) :
    (handleEvents env 0 before).2 = ref := by
  induction before with
  | nil =>
      obtain ⟨e, he, -⟩ := hknown
      exact absurd he List.not_mem_nil
  | cons e before ih =>
      by_cases hk : e.Known
      · have href' : e.tsUs = ref := by
          rw [reference_known before hk] at href
          exact Option.some.inj href
        rw [handleEvents_first ht before hk, href']
        exact handleEvents_keeps ht ref (e :: before) h
      · rw [reference_unknown before hk] at href
        rw [handleEvents, handleEvent_unknown hk]
        refine ih ?_ href (List.forall_mem_cons.mp h).2
        obtain ⟨e', he', hk'⟩ := hknown
        rcases List.mem_cons.mp he' with rfl | he'
        · exact absurd hk' hk
        · exact ⟨e', he', hk'⟩

end Calls

/-- A sequence and its beginnings have one reference. -/
theorem reference_of_beginning {before events : List Event} (h : before <+: events)
    (hknown : ∃ e ∈ before, e.Known) : reference before = reference events := by
  obtain ⟨after, rfl⟩ := h
  obtain ⟨e, he, hk⟩ := hknown
  have hfound : (before.find? fun e => e.Known).isSome = true := by
    rw [List.find?_isSome]
    exact ⟨e, he, by simpa using hk⟩
  rw [reference, reference, List.find?_append, Option.or_of_isSome hfound]

/-- With `-t` all offsets are true, from a reference that stays, exactly where
no event is older than the first and the first has a time. -/
theorem offsets_true_iff (env : Env) (ht : env.printTimestamp = true) (events : List Event) :
    OffsetsTrue env events ↔ InOrder events := by
  constructor
  · intro h
    exact (forall₂_tells_start_iff ht events).mp h.offsets
  · intro h
    refine ⟨(forall₂_tells_start_iff ht events).mpr h, ?_⟩
    intro ref href before hbefore hknown
    have href' : ref ∈ reference before := by
      rw [reference_of_beginning hbefore hknown]
      exact href
    refine handleEvents_fixed ht before hknown ref href' ?_
    intro e he hk
    exact (h ref href e (hbefore.subset he) hk).2

/-- `tcpconnect -t`. -/
def timestampEnv : Env := { Env.init with printTimestamp := true }

/-- An IPv4 event at a time. -/
def eventAt (tsUs : UInt64) : Event where
  saddr := Buf.zero 16
  daddr := Buf.zero 16
  task := Buf.zero 16
  tsUs := tsUs
  af := 2
  pid := 1
  uid := 0
  dport := 0x5000

theorem offsets_true_timestampEnv : timestampEnv.printTimestamp = true ∧
    (OffsetsTrue timestampEnv [eventAt 1000000, eventAt 3500000] ↔
      InOrder [eventAt 1000000, eventAt 3500000]) :=
  ⟨rfl, offsets_true_iff timestampEnv rfl [eventAt 1000000, eventAt 3500000]⟩

/-- An event of another CPU, a second older than the first that was printed. -/
theorem offsets_older_event : ¬ OffsetsTrue timestampEnv [eventAt 2000000, eventAt 1000000] := by
  intro h
  have hout : (handleEvents timestampEnv 0 [eventAt 2000000, eventAt 1000000]).1
      = [(handleEvent timestampEnv 0 (eventAt 2000000)).1,
        (handleEvent timestampEnv 2000000 (eventAt 1000000)).1] := rfl
  have hall := h.offsets 2000000 rfl
  rw [hout, List.forall₂_cons, List.forall₂_cons] at hall
  obtain ⟨-, ⟨offset, hoffset, htrue⟩, -⟩ := hall
  have hwrap : offset = 18446744073708551616 := (Option.some.inj hoffset).symm
  rw [hwrap] at htrue
  exact absurd htrue (by decide)

end NetProbes.TcpConnect
