/-
# `NetProbes.TrPackage.Messages` — what the messages say

A message named after a stage should carry the time at which the probe of that
stage last ran, and nothing that was in the ring buffer's memory before
(`MessageOk`).  Five of the six probes that submit never write the field
`time`; `kprobe_dev_queue_xmit` writes it, and leaves the end of the field
`name` as it was.

    filled        the message a probe submits, from the memory it reserved
    submitted_eq  the probes submit exactly that, where the filter lets them

So a run is right only where it submits nothing; with the name read as text,
where only `kprobe_dev_queue_xmit` submits (`runOk_iff`).
-/
import NetProbes.TrPackage.Probes

namespace NetProbes.TrPackage

open NetProbes.Lib

/-! ## The property -/

/-- The name as text: the bytes before the first zero. -/
def SkbMessage.text (m : SkbMessage) : List UInt8 := m.name.1.takeWhile (· ≠ 0)

/-- The label of the stage a probe belongs to. -/
def Probe.label : Probe → Option (List UInt8)
  | .tcpTransmitSkb => some labelTcpTransmitSkb
  | .ipQueueXmit => some labelIpQueueXmit
  | .devQueueXmit => some labelDevQueueXmit
  | .ethTypeTrans => some labelEthTypeTrans
  | .ipLocalDeliverFinish => some labelIpLocalDeliverFinish
  | .tcpRcvEstablished => some labelTcpRcvEstablished
  | _ => none

/-- The clock at the last firing of a probe. -/
def lastClock (probe : Probe) (events : List Event) : Option UInt64 :=
  events.foldl (fun last event => match event with
    | .fire p ctx => if p = probe then some ctx.clock else last
    | .setPid _ => last) none

/-- The records a firing adds. -/
def submitted (probe : Probe) (maps : Maps) (ctx : Ctx) : List (List UInt8) :=
  (fire probe maps ctx).events.drop maps.events.length

/-- A record of the firing of `probe` after the events `before`: its time is
that of its stage, and what `view` shows of it is the same for any reserved
memory. -/
def MessageOk {α : Type} (view : SkbMessage → α) (before : List Event) (probe : Probe) (ctx : Ctx)
    (record : List UInt8) : Prop :=
  ∃ m, decode record = some m ∧
    (∀ stage, stage.label = some m.text →
      lastClock stage (before ++ [.fire probe ctx]) = some m.time) ∧
    ∀ mem, ∀ record' ∈ submitted probe (run before) { ctx with reserved := some mem },
      (decode record').map view = some (view m)

/-- Every record of a run is right. -/
def RunOk {α : Type} (view : SkbMessage → α) (events : List Event) : Prop :=
  ∀ before probe ctx after, events = before ++ .fire probe ctx :: after →
    ∀ record ∈ submitted probe (run before) ctx, MessageOk view before probe ctx record

/-- The fields that are printed, the name as text. -/
def printedFields (m : SkbMessage) :
    UInt64 × List UInt8 × UInt16 × UInt16 × UInt16 × UInt32 × UInt32 :=
  (m.time, m.text, m.macHeader, m.networkHeader, m.transportHeader, m.len, m.dataLen)

/-! ## What the probes submit -/

theorem labelDevQueueXmit_length_le : (labelDevQueueXmit ++ [0]).length ≤ 30 := by decide

/-- The message of a probe: all but one keep the `time` of the memory. -/
def filled (ctx : Ctx) (mem : SkbMessage) : Probe → Option SkbMessage
  | .ipQueueXmit => some ((mem.readSkb ctx.skb).setName labelTcpTransmitSkb)
  | .ipLocalOut => some ((mem.readSkb ctx.skb).setName labelIpQueueXmit)
  | .devQueueXmit => some (({ mem with time := ctx.clock }.readSkb ctx.skb).readName
      (labelDevQueueXmit ++ [0]) labelDevQueueXmit_length_le)
  | .ipRcv => some ((mem.readSkb ctx.skb).setName labelEthTypeTrans)
  | .ipProtocolDeliverRcu => some ((mem.readSkb ctx.skb).setName labelIpLocalDeliverFinish)
  | .tcpDataQueue => some ((mem.readSkb ctx.skb).setName labelTcpRcvEstablished)
  | _ => none

/-- The probe is one of the six. -/
def Probe.emits : Probe → Bool
  | .ipQueueXmit => true
  | .ipLocalOut => true
  | .devQueueXmit => true
  | .ipRcv => true
  | .ipProtocolDeliverRcu => true
  | .tcpDataQueue => true
  | _ => false

/-- A firing submits a message: the filter lets it and there is memory. -/
def Submits (maps : Maps) (probe : Probe) (ctx : Ctx) : Prop :=
  probe.emits = true ∧ passes maps ctx = true ∧ ctx.reserved.isSome = true

theorem setName_name (m : SkbMessage) (label : List UInt8) :
    (m.setName label).name = padded 30 label := by
  apply Subtype.ext
  show overwrite m.name.1 0 (padded 30 label).1 = _
  have hcover : overwrite (m.name.1 ++ []) 0 (padded 30 label).1 = (padded 30 label).1 ++ [] :=
    overwrite_append_left (m.name.2.trans (padded 30 label).2.symm)
  rwa [List.append_nil, List.append_nil] at hcover

/-- A label that fills the array hides what was read to `name` before. -/
theorem readName_setName (m : SkbMessage) (ch label : List UInt8) (h : ch.length ≤ 30)
    (skb : SkBuff) :
    ((m.readName ch h).readSkb skb).setName label = (m.readSkb skb).setName label := by
  have hname := (setName_name ((m.readName ch h).readSkb skb) label).trans
    (setName_name (m.readSkb skb) label).symm
  rw [SkbMessage.ext_iff]
  exact ⟨rfl, rfl, rfl, rfl, rfl, rfl, hname⟩

theorem withReserved_events {maps : Maps} {ctx : Ctx} {rest : SkbMessage → Maps}
    {m : SkbMessage → SkbMessage}
    (hrest : ∀ mem, (rest mem).events = maps.events ++ [(m mem).bytes]) :
    (withReserved maps ctx rest).events.drop maps.events.length =
      if passes maps ctx then (ctx.reserved.map fun mem => (m mem).bytes).toList else [] := by
  rw [withReserved]
  cases hpass : passes maps ctx with
  | false => simp
  | true =>
      cases hres : ctx.reserved with
      | none => simp
      | some mem => simp [hrest]

/-- The record of a firing, if it submits one. -/
theorem submitted_eq (probe : Probe) (maps : Maps) (ctx : Ctx) :
    submitted probe maps ctx =
      if passes maps ctx then
        (ctx.reserved.bind fun mem => (filled ctx mem probe).map SkbMessage.bytes).toList
      else [] := by
  have hnone : ∀ maps' : Maps, maps'.events = maps.events →
      maps'.events.drop maps.events.length =
        if passes maps ctx then
          (ctx.reserved.bind fun _ => (none : Option SkbMessage).map SkbMessage.bytes).toList
        else [] := by
    intro maps' hsame
    rw [hsame, List.drop_length]
    simp
  have hsome : ∀ m : SkbMessage → SkbMessage,
      (ctx.reserved.bind fun mem => (some (m mem)).map SkbMessage.bytes)
        = ctx.reserved.map fun mem => (m mem).bytes := by
    intro m
    cases ctx.reserved <;> rfl
  cases probe with
  | tcpTransmitSkb => exact hnone _ rfl
  | ethTypeTrans => exact hnone _ rfl
  | ipLocalDeliverFinish => exact hnone _ rfl
  | tcpRcvEstablished => exact hnone _ rfl
  | ipQueueXmit =>
      simp only [filled, hsome]
      refine withReserved_events fun mem => ?_
      show maps.events ++ [SkbMessage.bytes _] = _
      rw [readName_setName]
  | ipLocalOut =>
      simp only [filled, hsome]
      exact withReserved_events fun _ => rfl
  | devQueueXmit =>
      simp only [filled, hsome]
      exact withReserved_events fun _ => rfl
  | ipRcv =>
      simp only [filled, hsome]
      exact withReserved_events fun _ => rfl
  | ipProtocolDeliverRcu =>
      simp only [filled, hsome]
      exact withReserved_events fun _ => rfl
  | tcpDataQueue =>
      simp only [filled, hsome]
      exact withReserved_events fun _ => rfl

theorem mem_submitted {probe : Probe} {maps : Maps} {ctx : Ctx} {record : List UInt8} :
    record ∈ submitted probe maps ctx ↔
      passes maps ctx = true ∧ ∃ mem m, ctx.reserved = some mem ∧
        filled ctx mem probe = some m ∧ m.bytes = record := by
  rw [submitted_eq]
  cases passes maps ctx with
  | false => simp
  | true => simp [Option.bind_eq_some_iff]

theorem filled_of_emits (ctx : Ctx) (mem : SkbMessage) {probe : Probe} (h : probe.emits = true) :
    ∃ m, filled ctx mem probe = some m := by
  cases probe <;> first | exact ⟨_, rfl⟩ | cases h

theorem emits_of_filled {ctx : Ctx} {mem m : SkbMessage} {probe : Probe}
    (h : filled ctx mem probe = some m) : probe.emits = true := by
  cases probe <;> first | rfl | cases h

theorem submits_iff {probe : Probe} {maps : Maps} {ctx : Ctx} :
    Submits maps probe ctx ↔ ∃ record, record ∈ submitted probe maps ctx := by
  constructor
  · rintro ⟨hemits, hpass, hres⟩
    obtain ⟨mem, hmem⟩ := Option.isSome_iff_exists.mp hres
    obtain ⟨m, hm⟩ := filled_of_emits ctx mem hemits
    exact ⟨m.bytes, mem_submitted.mpr ⟨hpass, mem, m, hmem, hm, rfl⟩⟩
  · rintro ⟨record, hrec⟩
    obtain ⟨hpass, mem, m, hmem, hm, _⟩ := mem_submitted.mp hrec
    exact ⟨emits_of_filled hm, hpass, by rw [hmem]; rfl⟩

/-- All but one probe leave `time` as it was. -/
theorem filled_time {ctx : Ctx} {mem m : SkbMessage} {probe : Probe} (hne : probe ≠ .devQueueXmit)
    (h : filled ctx mem probe = some m) : m.time = mem.time := by
  cases probe with
  | devQueueXmit => exact absurd rfl hne
  | tcpTransmitSkb => cases h
  | ethTypeTrans => cases h
  | ipLocalDeliverFinish => cases h
  | tcpRcvEstablished => cases h
  | ipQueueXmit => cases h; rfl
  | ipLocalOut => cases h; rfl
  | ipRcv => cases h; rfl
  | ipProtocolDeliverRcu => cases h; rfl
  | tcpDataQueue => cases h; rfl

section DevQueueXmit

variable {ctx : Ctx} {mem m : SkbMessage}

theorem filled_devQueueXmit_name (h : filled ctx mem .devQueueXmit = some m) :
    m.name.1 = labelDevQueueXmit ++ 0 :: mem.name.1.drop 19 := by
  cases h
  rfl

/-- The end of the name is the memory's. -/
theorem filled_devQueueXmit_tail (h : filled ctx mem .devQueueXmit = some m) :
    m.name.1.drop 19 = mem.name.1.drop 19 := by
  rw [filled_devQueueXmit_name h]
  rfl

/-- As a text the name is the label. -/
theorem filled_devQueueXmit_text (h : filled ctx mem .devQueueXmit = some m) :
    m.text = labelDevQueueXmit := by
  rw [SkbMessage.text, filled_devQueueXmit_name h,
    List.takeWhile_append_of_pos (by decide +kernel), List.takeWhile_cons]
  rfl

theorem filled_devQueueXmit_printed (h : filled ctx mem .devQueueXmit = some m) :
    printedFields m = (ctx.clock, labelDevQueueXmit, ctx.skb.macHeader.getD 0,
      ctx.skb.networkHeader.getD 0, ctx.skb.transportHeader.getD 0, ctx.skb.len.getD 0,
      ctx.skb.dataLen.getD 0) := by
  rw [printedFields, filled_devQueueXmit_text h]
  cases h
  rfl

end DevQueueXmit

/-! ## Which runs are right -/

/-- Memory of zeros, and memory with a one in each field. -/
def clear : SkbMessage := ⟨0, 0, 0, 0, 0, 0, Buf.zero 30⟩

def dirty : SkbMessage := ⟨1, 1, 1, 1, 1, 1, ⟨List.replicate 30 1, rfl⟩⟩

section Right

variable {α : Type} {view : SkbMessage → α} {before : List Event} {probe : Probe} {ctx : Ctx}

/-- What is shown of the message is the same for any two memories. -/
theorem MessageOk.same {record : List UInt8} (h : MessageOk view before probe ctx record)
    (hpass : passes (run before) ctx = true) {mem₁ mem₂ m₁ m₂ : SkbMessage}
    (h₁ : filled ctx mem₁ probe = some m₁) (h₂ : filled ctx mem₂ probe = some m₂) :
    view m₁ = view m₂ := by
  obtain ⟨m, _, _, hview⟩ := h
  have hshow : ∀ mem m', filled ctx mem probe = some m' → view m' = view m := by
    intro mem m' hm'
    have hrec := hview mem m'.bytes (mem_submitted.mpr ⟨hpass, mem, m', rfl, hm', rfl⟩)
    rw [decode_bytes] at hrec
    exact Option.some.inj hrec
  rw [hshow mem₁ m₁ h₁, hshow mem₂ m₂ h₂]

/-- Where the time is shown, a message of another probe is wrong. -/
theorem not_messageOk_time {record : List UInt8} (hsub : Submits (run before) probe ctx)
    (hne : probe ≠ .devQueueXmit) (htime : ∀ m₁ m₂, view m₁ = view m₂ → m₁.time = m₂.time) :
    ¬ MessageOk view before probe ctx record := by
  intro h
  obtain ⟨m₁, h₁⟩ := filled_of_emits ctx clear hsub.1
  obtain ⟨m₂, h₂⟩ := filled_of_emits ctx dirty hsub.1
  have heq := htime m₁ m₂ (h.same hsub.2.1 h₁ h₂)
  rw [filled_time hne h₁, filled_time hne h₂] at heq
  exact absurd heq (by decide)

/-- Where the whole name is shown, one of `kprobe_dev_queue_xmit` is too. -/
theorem not_messageOk_name {record : List UInt8} (hsub : Submits (run before) .devQueueXmit ctx) :
    ¬ MessageOk id before .devQueueXmit ctx record := by
  intro h
  obtain ⟨m₁, h₁⟩ := filled_of_emits ctx clear hsub.1
  obtain ⟨m₂, h₂⟩ := filled_of_emits ctx dirty hsub.1
  have heq : m₁ = m₂ := h.same hsub.2.1 h₁ h₂
  have htail := filled_devQueueXmit_tail h₁
  rw [heq, filled_devQueueXmit_tail h₂] at htail
  exact absurd htail (by decide)

theorem lastClock_fire (probe : Probe) (before : List Event) (ctx : Ctx) :
    lastClock probe (before ++ [.fire probe ctx]) = some ctx.clock := by
  simp [lastClock]

/-- The labels are different, so a text names one stage. -/
theorem label_devQueueXmit {stage : Probe} (h : stage.label = some labelDevQueueXmit) :
    stage = .devQueueXmit := by
  cases stage <;> first | rfl | exact absurd h (by decide)

/-- The printed fields of a message of `kprobe_dev_queue_xmit` are right. -/
theorem messageOk_devQueueXmit {record : List UInt8}
    (hrec : record ∈ submitted .devQueueXmit (run before) ctx) :
    MessageOk printedFields before .devQueueXmit ctx record := by
  obtain ⟨_, mem, m, _, hm, rfl⟩ := mem_submitted.mp hrec
  refine ⟨m, decode_bytes m, ?_, ?_⟩
  · intro stage hstage
    rw [filled_devQueueXmit_text hm] at hstage
    rw [label_devQueueXmit hstage, lastClock_fire]
    cases hm
    rfl
  · intro mem' record' hrec'
    obtain ⟨_, mem'', m', _, hm', rfl⟩ := mem_submitted.mp hrec'
    rw [decode_bytes, Option.map_some, filled_devQueueXmit_printed hm,
      filled_devQueueXmit_printed hm']

end Right

/-- A run is right exactly where no firing submits a message, and as printed,
with the name as text, exactly where none but `kprobe_dev_queue_xmit` does. -/
theorem runOk_iff (events : List Event) :
    (RunOk id events ↔ ∀ before probe ctx after, events = before ++ .fire probe ctx :: after →
      ¬ Submits (run before) probe ctx) ∧
    (RunOk printedFields events ↔ ∀ before probe ctx after,
      events = before ++ .fire probe ctx :: after →
      Submits (run before) probe ctx → probe = .devQueueXmit) := by
  refine ⟨⟨?_, ?_⟩, ⟨?_, ?_⟩⟩
  · intro hok before probe ctx after hev hsub
    obtain ⟨record, hrec⟩ := submits_iff.mp hsub
    have hmsg := hok before probe ctx after hev record hrec
    by_cases hdev : probe = .devQueueXmit
    · subst hdev
      exact not_messageOk_name hsub hmsg
    · exact not_messageOk_time hsub hdev (fun m₁ m₂ h => congrArg SkbMessage.time h) hmsg
  · intro hnone before probe ctx after hev record hrec
    exact absurd (submits_iff.mpr ⟨record, hrec⟩) (hnone before probe ctx after hev)
  · intro hok before probe ctx after hev hsub
    obtain ⟨record, hrec⟩ := submits_iff.mp hsub
    have hmsg := hok before probe ctx after hev record hrec
    by_contra hdev
    exact not_messageOk_time hsub hdev (fun m₁ m₂ h => congrArg Prod.fst h) hmsg
  · intro hdev before probe ctx after hev record hrec
    obtain rfl := hdev before probe ctx after hev (submits_iff.mpr ⟨record, hrec⟩)
    exact messageOk_devQueueXmit hrec

/-- A packet with a length of 60 bytes, and a firing for it. -/
def sampleCtx (clock : UInt64) (reserved : Option SkbMessage) : Ctx where
  clock := clock
  pidTgid := 0
  skb := ⟨some 60, some 0, some 0, some 0, some 0⟩
  reserved := reserved

/-- A packet passes the first probe at 1000, and the second one, which reports
the stage of the first, at 2000 with memory that held zeros. -/
def sampleEvents : List Event :=
  [.fire .tcpTransmitSkb (sampleCtx 1000 none), .fire .ipQueueXmit (sampleCtx 2000 (some clear))]

/-- The message named after the first stage has the time 0. -/
theorem sampleEvents_wrong_time :
    ¬ RunOk id sampleEvents ∧ lastClock .tcpTransmitSkb sampleEvents = some 1000 ∧
      (run sampleEvents).events.map (fun record => (decode record).map fun m => (m.text, m.time))
        = [some (labelTcpTransmitSkb, 0)] := by
  refine ⟨fun hok => ?_, rfl, by decide +kernel⟩
  obtain ⟨m, hdec, htime, _⟩ := hok [.fire .tcpTransmitSkb (sampleCtx 1000 none)] .ipQueueXmit
    (sampleCtx 2000 (some clear)) [] rfl _ (mem_submitted.mpr ⟨rfl, clear, _, rfl, rfl, rfl⟩)
  rw [decode_bytes] at hdec
  cases hdec
  exact absurd (htime .tcpTransmitSkb (by decide +kernel)) (by decide +kernel)

end NetProbes.TrPackage
