/-
# `NetProbes.Events.Format` — the events in C and in Go

Three probes hand a struct to the ring buffer and a Go program reads it with
`binary.Read`, which knows no padding.

    skb_message    tr_package.c, layer.c   packed
    intr_message   interrupt/interrupt.c   8 + 4 + 4 bytes, no padding
    intr_message   stack/interrupt.c       8 + 4 bytes, 4 bytes of padding, 80 bytes

The first two are read as they were written; the stack of the third is read
from four bytes too early (`format_agrees_iff`).
-/
import NetProbes.Lib.Layout

namespace NetProbes.Events

open NetProbes.Lib

/-- The three events. -/
inductive EventType where
  | skbMessage
  | intrMessage
  | stackMessage
  deriving DecidableEq

/-- The struct of the probe. -/
def cStruct : EventType → Struct
  | .skbMessage =>
      -- time, len, data_len, transport_header, network_header, mac_header, name[30]
      ⟨true, [⟨8, 1⟩, ⟨4, 1⟩, ⟨4, 1⟩, ⟨2, 1⟩, ⟨2, 1⟩, ⟨2, 1⟩, ⟨1, 30⟩]⟩
  | .intrMessage =>
      -- vector, pid, stack_id
      ⟨false, [⟨8, 1⟩, ⟨4, 1⟩, ⟨4, 1⟩]⟩
  | .stackMessage =>
      -- vector, pid, kernelstack[PERF_MAX_STACK_DEPTH]
      ⟨false, [⟨8, 1⟩, ⟨4, 1⟩, ⟨8, 10⟩]⟩

/-- The struct of the Go program. -/
def goFields : EventType → List Field
  | .skbMessage =>
      -- Time, Len, Data_len, Transport_header, Network_header, Mac_header, Name
      [⟨8, 1⟩, ⟨4, 1⟩, ⟨4, 1⟩, ⟨2, 1⟩, ⟨2, 1⟩, ⟨2, 1⟩, ⟨1, 30⟩]
  | .intrMessage =>
      -- Vector, Pid, Stack_id
      [⟨8, 1⟩, ⟨4, 1⟩, ⟨4, 1⟩]
  | .stackMessage =>
      -- Vector, Pid, Stack_id [10]uint64
      [⟨8, 1⟩, ⟨4, 1⟩, ⟨8, 10⟩]

/-- The Go program reads the values that the probe wrote into memory. -/
def Agrees (e : EventType) (mem : List UInt8) (values : List (List Nat)) : Prop :=
  readFields (goFields e) ((cStruct e).bytes mem values) = some values

instance (e : EventType) (mem : List UInt8) (values : List (List Nat)) :
    Decidable (Agrees e mem values) :=
  inferInstanceAs (Decidable (_ = _))

/-- In the event with a stack, every address is the four bytes of padding
behind `pid`, twice. -/
def StackIsPadding (e : EventType) (mem : List UInt8) (values : List (List Nat)) : Prop :=
  e = .stackMessage →
    ∀ k ∈ values.getD 2 [], leBytes 8 k = slice mem 12 4 ++ slice mem 12 4

/-- A struct without padding is read as it was written. -/
theorem agrees_of_dense {e : EventType} {mem : List UInt8} {values : List (List Nat)}
    (hsame : goFields e = (cStruct e).fields) (hdense : (cStruct e).Dense 0 (cStruct e).fields)
    (hfits : List.Forall₂ Field.Fits (cStruct e).fields values) : Agrees e mem values := by
  rw [Agrees, hsame]
  exact readFields_image hdense hfits

/-- The stack is read behind the padding. -/
theorem stackMessage_agrees_iff {mem : List UInt8} {values : List (List Nat)}
    (hmem : mem.length = 96)
    (hfits : List.Forall₂ Field.Fits (cStruct .stackMessage).fields values) :
    Agrees .stackMessage mem values ↔
      ∀ k ∈ values.getD 2 [], leBytes 8 k = slice mem 12 4 ++ slice mem 12 4 := by
  cases hfits with
  | cons hvector hfits =>
  cases hfits with
  | cons hpid hfits =>
  cases hfits with
  | cons hstack hfits =>
  cases hfits
  rename_i vector pid ks
  have hpad : (slice mem 12 4).length = 4 := slice_length (by rw [hmem]; decide)
  obtain ⟨vs, rest, hread, hiff⟩ := readElems_shifted (w := 4) (slice mem 96 0) hstack.2 hpad
  rw [hstack.1] at hread
  -- the bytes of the struct: vector and pid, the padding, the stack
  have hbytes : (cStruct .stackMessage).bytes mem [vector, pid, ks]
      = vector.flatMap (leBytes 8) ++ (pid.flatMap (leBytes 4) ++
          (slice mem 12 4 ++ (ks.flatMap (leBytes 8) ++ slice mem 96 0))) := by
    simp only [Struct.bytes, cStruct, Struct.image]
    rfl
  have hfirst := readElems_flatMap (pid.flatMap (leBytes 4) ++
    (slice mem 12 4 ++ (ks.flatMap (leBytes 8) ++ slice mem 96 0))) hvector.2
  have hsecond := readElems_flatMap
    (slice mem 12 4 ++ (ks.flatMap (leBytes 8) ++ slice mem 96 0)) hpid.2
  rw [hvector.1] at hfirst
  rw [hpid.1] at hsecond
  have hall : readFields (goFields .stackMessage) ((cStruct .stackMessage).bytes mem [vector, pid, ks])
      = some [vector, pid, vs] := by
    rw [hbytes]
    simp only [goFields, readFields, hfirst, hsecond, Option.bind_some]
    rw [hread]
    rfl
  rw [Agrees, hall]
  simp only [Option.some.injEq, List.cons.injEq, true_and, and_true]
  exact hiff

/-- For any values, in any memory, the Go program reads what the probe wrote
exactly where the event is not the one with a stack, or its stack is padding. -/
theorem format_agrees_iff (e : EventType) (mem : List UInt8) (values : List (List Nat))
    (hmem : mem.length = (cStruct e).size)
    (hfits : List.Forall₂ Field.Fits (cStruct e).fields values) :
    Agrees e mem values ↔ StackIsPadding e mem values := by
  cases e with
  | skbMessage =>
      constructor
      · intro _ he
        cases he
      · intro _
        exact agrees_of_dense rfl (by decide) hfits
  | intrMessage =>
      constructor
      · intro _ he
        cases he
      · intro _
        exact agrees_of_dense rfl (by decide) hfits
  | stackMessage =>
      rw [stackMessage_agrees_iff hmem hfits]
      exact ⟨fun h _ => h, fun h => h rfl⟩

/-- The other `intr_message`, in memory that is not zero. -/
theorem format_agrees_iff_sampleIntr :
    Agrees .intrMessage (List.replicate 16 7) [[14], [1234], [5]] := by
  have hfits : List.Forall₂ Field.Fits (cStruct .intrMessage).fields [[14], [1234], [5]] := by
    refine .cons ⟨rfl, ?_⟩ (.cons ⟨rfl, ?_⟩ (.cons ⟨rfl, ?_⟩ .nil)) <;> decide
  refine (format_agrees_iff .intrMessage (List.replicate 16 7) _ rfl hfits).mpr ?_
  intro he
  cases he

/-- A page fault of process 1234 with ten kernel addresses. -/
def sampleStack : List (List Nat) :=
  [[14], [1234], List.replicate 10 0xffffffff81000123]

theorem sampleStack_fits : List.Forall₂ Field.Fits (cStruct .stackMessage).fields sampleStack := by
  refine .cons ⟨rfl, ?_⟩ (.cons ⟨rfl, ?_⟩ (.cons ⟨rfl, ?_⟩ .nil)) <;> decide

/-- In zeroed memory the first address is read as `0x8100012300000000`. -/
theorem sampleStack_shifted :
    ¬ ∀ (e : EventType) (mem : List UInt8) (values : List (List Nat)),
      mem.length = (cStruct e).size → List.Forall₂ Field.Fits (cStruct e).fields values →
      Agrees e mem values := by
  intro hall
  have h := hall .stackMessage (List.replicate 96 0) sampleStack rfl sampleStack_fits
  exact absurd h (by decide +kernel)

end NetProbes.Events
