/-
# `NetProbes.Dns.Agreement` — command line and XDP program agree

A history is a list of `add a NAME IP [TTL]` and `remove a NAME IP` commands
that all returned 0.  What it binds a name to is decided by the last command on
that name (`boundTo`); the map afterwards holds exactly that (`Agrees`):

    agrees_step     one command keeps the agreement
    agrees_run      so every history does
    answers_iff     the questions bound in an agreeing map are those for a
                    bound name, type 1, class 1, wholly inside the frame

and so `xdp_dns` answers exactly these questions, with the record of the last
`add` (`xdpDns_agrees_with_cli`).
-/
import NetProbes.Dns.Cli
import NetProbes.Dns.Response
import NetProbes.Lib.Run

namespace NetProbes.Dns

open NetProbes.Lib

/-! ## Histories -/

/-- `add a NAME IP [TTL]` or `remove a NAME IP`. -/
inductive Command where
  | add (name ip : List UInt8) (ttl : Option (List UInt8))
  | remove (name ip : List UInt8)
  deriving DecidableEq

namespace Command

/-- The name a command is about. -/
def name : Command → List UInt8
  | add name _ _ => name
  | remove name _ => name

/-- The record a command binds its name to. -/
def record : Command → Option ARecord
  | add _ ip ttl => (inetAton ip).map fun ipAddr => ⟨ipAddr, ttlOf ttl⟩
  | remove _ _ => none

/-- The argument vector. -/
def argv (program : List UInt8) : Command → List (List UInt8)
  | add name ip ttl => [program, cstr ['a', 'd', 'd'], cstr ['a'], name, ip] ++ ttl.toList
  | remove name ip => [program, cstr ['r', 'e', 'm', 'o', 'v', 'e'], cstr ['a'], name, ip]

end Command

/-- The last command on a name. -/
def lastCommand (h : List Command) (name : List UInt8) : Option Command :=
  h.reverse.find? fun c => decide (c.name = name)

/-- The record a history binds a name to. -/
def boundTo (h : List Command) (name : List UInt8) : Option ARecord :=
  (lastCommand h name).bind Command.record

/-- The names a history leaves bound. -/
def boundNames (h : List Command) : Finset (List UInt8) :=
  (h.map Command.name).toFinset.filter fun name => (boundTo h name).isSome

theorem boundTo_snoc (h : List Command) (c : Command) (name : List UInt8) :
    boundTo (h ++ [c]) name = if c.name = name then c.record else boundTo h name := by
  by_cases hc : c.name = name
  · simp [boundTo, lastCommand, List.reverse_append, hc]
  · simp [boundTo, lastCommand, List.reverse_append, hc]

theorem mem_of_boundTo {h : List Command} {name : List UInt8} {a : ARecord}
    (hb : boundTo h name = some a) : name ∈ h.map Command.name := by
  obtain ⟨c, hc, -⟩ := Option.bind_eq_some_iff.mp hb
  have hmem := List.mem_of_find?_eq_some hc
  have hname := List.find?_some hc
  simp only [decide_eq_true_eq] at hname
  exact List.mem_map.mpr ⟨c, List.mem_reverse.mp hmem, hname⟩

theorem mem_boundNames {h : List Command} {name : List UInt8} :
    name ∈ boundNames h ↔ ∃ a, boundTo h name = some a := by
  simp only [boundNames, Finset.mem_filter, List.mem_toFinset, Option.isSome_iff_exists]
  constructor
  · rintro ⟨-, hb⟩
    exact hb
  · rintro ⟨a, hb⟩
    exact ⟨mem_of_boundTo hb, a, hb⟩

/-! ## The map agrees with the history -/

/-- The key of a name's record. -/
def nameKey (name : List UInt8) : DnsQuery := ⟨1, 1, padded 256 (encodeName name)⟩

/-- The map holds the records the history binds, under their names' keys, and
nothing else. -/
def Agrees (h : List Command) (records : RecordMap) : Prop :=
  ∀ q a, records.lookup q = some a ↔ ∃ name, boundTo h name = some a ∧ q = nameKey name

theorem OctetEncoder.key_eq (enc : OctetEncoder) {name : List UInt8} (h : Encodable name) :
    (⟨1, 1, enc.run name (Buf.zero 256)⟩ : DnsQuery) = nameKey name := by
  rw [enc.run_eq h, nameKey]

theorem nameKey_inj {name name' : List UInt8} (h : Encodable name) (h' : Encodable name')
    (heq : nameKey name = nameKey name') : name = name' := by
  have hpad : padded 256 (encodeName name) = padded 256 (encodeName name') :=
    congrArg DnsQuery.name heq
  have hb := h.2
  have hb' := h'.2
  exact encodeName_inj h h' (padded_inj (by omega) (by omega) h.1 h'.1 hpad)

section History
variable {h : List Command} {records : RecordMap}

theorem Encodable.of_bound (henc : ∀ c ∈ h, Encodable c.name) {name : List UInt8} {a : ARecord}
    (hb : boundTo h name = some a) : Encodable name := by
  obtain ⟨c, hc, rfl⟩ := List.mem_map.mp (mem_of_boundTo hb)
  exact henc c hc

/-- Under the key of an encodable name stands what the history binds it to. -/
theorem Agrees.lookup_nameKey (hag : Agrees h records) (henc : ∀ c ∈ h, Encodable c.name)
    {name : List UInt8} (hn : Encodable name) : records.lookup (nameKey name) = boundTo h name := by
  apply Option.ext
  intro a
  rw [hag]
  constructor
  · rintro ⟨name', hb, hkey⟩
    rw [nameKey_inj hn (Encodable.of_bound henc hb) hkey]
    exact hb
  · intro hb
    exact ⟨name, hb, rfl⟩

/-- The map is as large as the set of bound names. -/
theorem Agrees.length_eq (hag : Agrees h records) (henc : ∀ c ∈ h, Encodable c.name) :
    records.entries.length = (boundNames h).card := by
  have hinj : Set.InjOn nameKey (boundNames h : Set (List UInt8)) := by
    intro x hx y hy hxy
    obtain ⟨a, ha⟩ := mem_boundNames.mp hx
    obtain ⟨b, hb⟩ := mem_boundNames.mp hy
    exact nameKey_inj (Encodable.of_bound henc ha) (Encodable.of_bound henc hb) hxy
  have himage : records.keys.toFinset = (boundNames h).image nameKey := by
    ext q
    simp only [List.mem_toFinset, HashMap.mem_keys_iff, Finset.mem_image, mem_boundNames]
    constructor
    · rintro ⟨a, ha⟩
      obtain ⟨name, hb, rfl⟩ := (hag q a).mp ha
      exact ⟨name, ⟨a, hb⟩, rfl⟩
    · rintro ⟨name, ⟨a, hb⟩, rfl⟩
      exact ⟨a, (hag _ a).mpr ⟨name, hb, rfl⟩⟩
  have hkeys : records.keys.toFinset.card = records.entries.length := by
    rw [HashMap.keys, List.toFinset_card_of_nodup records.nodup, List.length_map]
  rw [← hkeys, himage, Finset.card_image_of_injOn hinj]

/-- A map in which one name's key was set as the command says agrees again. -/
theorem Agrees.snoc {records' : RecordMap} {c : Command} (hag : Agrees h records)
    (henc : ∀ c ∈ h, Encodable c.name) (hc : Encodable c.name)
    (hself : records'.lookup (nameKey c.name) = c.record)
    (hother : ∀ q, q ≠ nameKey c.name → records'.lookup q = records.lookup q) :
    Agrees (h ++ [c]) records' := by
  intro q a
  by_cases hq : q = nameKey c.name
  · subst hq
    rw [hself]
    constructor
    · intro hrec
      exact ⟨c.name, by rw [boundTo_snoc, if_pos rfl]; exact hrec, rfl⟩
    · rintro ⟨name, hb, hkey⟩
      rw [boundTo_snoc] at hb
      by_cases hname : c.name = name
      · rw [if_pos hname] at hb
        exact hb
      · rw [if_neg hname] at hb
        exact absurd (nameKey_inj hc (Encodable.of_bound henc hb) hkey) hname
  · rw [hother q hq, hag]
    constructor
    · rintro ⟨name, hb, rfl⟩
      have hname : ¬ c.name = name := fun heq => hq (by rw [heq])
      exact ⟨name, by rw [boundTo_snoc, if_neg hname]; exact hb, rfl⟩
    · rintro ⟨name, hb, rfl⟩
      have hname : ¬ c.name = name := fun heq => hq (by rw [heq])
      rw [boundTo_snoc, if_neg hname] at hb
      exact ⟨name, hb, rfl⟩

/-- There is room for a name that the bound allows. -/
theorem Agrees.room {name ip : List UInt8}
    {ttl : Option (List UInt8)} {ipAddr : UInt32} (hag : Agrees h records)
    (henc : ∀ c ∈ h, Encodable c.name) (hname : Encodable name)
    (hip : inetAton ip = some ipAddr)
    (hcard : (boundNames (h ++ [.add name ip ttl])).card ≤ 65536) :
    records.entries.length < 65536 ∨ ∃ a, records.lookup (nameKey name) = some a := by
  cases hb : boundTo h name with
  | some a => exact Or.inr ⟨a, by rw [hag.lookup_nameKey henc hname, hb]⟩
  | none =>
      left
      have hnew : name ∉ boundNames h := by
        intro hmem
        obtain ⟨a, ha⟩ := mem_boundNames.mp hmem
        rw [hb] at ha
        cases ha
      have hsub : insert name (boundNames h) ⊆ boundNames (h ++ [.add name ip ttl]) := by
        intro x hx
        rw [mem_boundNames, boundTo_snoc]
        by_cases hxn : (Command.add name ip ttl).name = x
        · rw [if_pos hxn]
          exact ⟨_, by simp only [Command.record, hip, Option.map_some]; rfl⟩
        · rw [if_neg hxn]
          rcases Finset.mem_insert.mp hx with rfl | hx
          · exact absurd rfl hxn
          · exact mem_boundNames.mp hx
      have hle := Finset.card_le_card hsub
      rw [Finset.card_insert_of_notMem hnew] at hle
      rw [hag.length_eq henc]
      omega

end History

/-! ## Runs of commands -/

section Runs
variable [HashOrder DnsQuery] (enc : OctetEncoder) (key : DnsQuery) (fuel : Nat)
  (program : List UInt8)

/-- A command that succeeds. -/
def cliStep (records : RecordMap) (c : Command) : Option RecordMap :=
  (main MapCalls.working enc key fuel records (c.argv program)).bind fun r =>
    if r.ret = 0 then some r.records else none

/-- A successful `add` read an address and updated the map, if it could. -/
theorem cliStep_add {records records' : RecordMap} {name ip : List UInt8}
    {ttl : Option (List UInt8)}
    (hstep : cliStep enc key fuel program records (.add name ip ttl) = some records') :
    ∃ ipAddr, inetAton ip = some ipAddr ∧
      records' = match records.update ⟨1, 1, enc.run name (Buf.zero 256)⟩ ⟨ipAddr, ttlOf ttl⟩ .any
        with
        | .ok m => m
        | .error _ => records := by
  have hmain : main MapCalls.working enc key fuel records ((Command.add name ip ttl).argv program)
      = some (addOrRemove MapCalls.working enc records (cstr ['a', 'd', 'd']) (cstr ['a']) name ip
          ttl) := by
    cases ttl <;> rfl
  rw [cliStep, hmain, Option.bind_some] at hstep
  simp only [addOrRemove, true_or, if_true] at hstep
  cases hip : inetAton ip with
  | none => simp [hip] at hstep
  | some ipAddr =>
      simp only [hip, if_true, Option.some.injEq] at hstep
      exact ⟨ipAddr, rfl, hstep.symm⟩

/-- A successful `remove` deleted a record that was there. -/
theorem cliStep_remove {records records' : RecordMap} {name ip : List UInt8}
    (hstep : cliStep enc key fuel program records (.remove name ip) = some records') :
    records.delete ⟨1, 1, enc.run name (Buf.zero 256)⟩ = .ok records' := by
  have hverb : ¬ cstr ['r', 'e', 'm', 'o', 'v', 'e'] = cstr ['a', 'd', 'd'] := by decide
  have hmain : main MapCalls.working enc key fuel records ((Command.remove name ip).argv program)
      = some (addOrRemove MapCalls.working enc records (cstr ['r', 'e', 'm', 'o', 'v', 'e'])
          (cstr ['a']) name ip none) := rfl
  rw [cliStep, hmain, Option.bind_some] at hstep
  simp only [addOrRemove, or_true, true_or, if_true, if_neg hverb] at hstep
  cases hip : inetAton ip with
  | none => simp [hip] at hstep
  | some ipAddr =>
      simp only [hip, MapCalls.working] at hstep
      cases hdel : records.delete ⟨1, 1, enc.run name (Buf.zero 256)⟩ with
      | error e => simp [hdel] at hstep
      | ok m =>
          simp only [hdel, if_true, Option.some.injEq] at hstep
          rw [hstep]

/-- One successful command keeps the agreement. -/
theorem agrees_step {h : List Command} {records records' : RecordMap} {c : Command}
    (hag : Agrees h records) (henc : ∀ c ∈ h, Encodable c.name) (hc : Encodable c.name)
    (hcard : (boundNames (h ++ [c])).card ≤ 65536)
    (hstep : cliStep enc key fuel program records c = some records') :
    Agrees (h ++ [c]) records' := by
  cases c with
  | add name ip ttl =>
      obtain ⟨ipAddr, hip, hrec⟩ := cliStep_add enc key fuel program hstep
      have hname : Encodable name := hc
      obtain ⟨m, hm⟩ := HashMap.update_any_ok (v := ⟨ipAddr, ttlOf ttl⟩)
        (hag.room henc hname hip hcard)
      rw [enc.key_eq hname, hm] at hrec
      subst hrec
      refine hag.snoc henc hc ?_ ?_
      · show records'.lookup (nameKey name) = _
        rw [HashMap.lookup_update hm, if_pos rfl, Command.record, hip, Option.map_some]
      · intro q hq
        exact (HashMap.lookup_update hm q).trans (if_neg hq)
  | remove name ip =>
      have hname : Encodable name := hc
      have hdel := cliStep_remove enc key fuel program hstep
      rw [enc.key_eq hname] at hdel
      refine hag.snoc henc hc ?_ ?_
      · show records'.lookup (nameKey name) = none
        rw [HashMap.lookup_delete hdel, if_pos rfl]
      · intro q hq
        exact (HashMap.lookup_delete hdel q).trans (if_neg hq)

/-- Every history of successful commands leaves a map that agrees with it. -/
theorem agrees_run {h : List Command} {records : RecordMap}
    (henc : ∀ c ∈ h, Encodable c.name)
    (hcard : ∀ h', h' <+: h → (boundNames h').card ≤ 65536)
    (hrun : exec (cliStep enc key fuel program) HashMap.empty h = some records) :
    Agrees h records := by
  induction h using List.reverseRecOn generalizing records with
  | nil =>
      cases hrun
      intro q a
      simp [boundTo, lastCommand]
  | append_singleton h c ih =>
      obtain ⟨records₁, hrun₁, hlast⟩ := exec_append.mp hrun
      obtain ⟨records₂, hstep, hend⟩ := exec_cons.mp hlast
      cases hend
      have henc' : ∀ c ∈ h, Encodable c.name := fun c' hc' => henc c' (by simp [hc'])
      have hag := ih henc' (fun h' hpre => hcard h' (hpre.trans (List.prefix_append h [c]))) hrun₁
      exact agrees_step enc key fuel program hag henc' (henc c (by simp))
        (hcard _ (List.prefix_refl _)) hstep

end Runs

/-! ## The questions that are answered -/

/-- From offset 54 on stands the question for a name, type A, class IN. -/
def Asks (p : List UInt8) (name : List UInt8) : Prop :=
  54 + ((encodeName name).length + 5) ≤ p.length ∧
    slice p 54 ((encodeName name).length + 5) = encodeName name ++ [0, 0, 1, 0, 1]

instance decAsks (p name : List UInt8) : Decidable (Asks p name) :=
  inferInstanceAs (Decidable (_ ∧ _))

theorem Asks.byteAt {p name : List UInt8} (h : Asks p name) {i : Nat}
    (hi : i < (encodeName name).length + 5) :
    byteAt p (54 + i) = Lib.byteAt (encodeName name ++ [0, 0, 1, 0, 1]) i := by
  rw [← h.2, byteAt_slice hi]

theorem slice_of_asks {p name : List UInt8} (h : Asks p name) :
    slice p 54 (encodeName name).length = encodeName name := by
  have hcut : slice p 54 (encodeName name).length
      = (slice p 54 ((encodeName name).length + 5)).take (encodeName name).length := by
    simp [slice, List.take_take]
  rw [hcut, h.2, List.take_left]

/-- The scan for the zero byte finds the end of an encodable name. -/
theorem nameEnds_of_asks {p name : List UInt8} (hn : Encodable name) (h : Asks p name) :
    NameEnds p 54 (encodeName name).length := by
  have hin := h.1
  refine ⟨hn.2, by omega, ?_, ?_⟩
  · rw [h.byteAt (by omega), byteAt_append_right (Nat.le_refl _), Nat.sub_self]
    rfl
  · intro i hi
    rw [h.byteAt (by omega), byteAt_append, if_pos hi]
    exact hn.1 _ (byteAt_mem hi)

theorem questionKey_of_asks {p name : List UInt8} (h : Asks p name) :
    questionKey p 54 (encodeName name).length = nameKey name := by
  have hin := h.1
  have htail : ∀ j, j < 5 → Lib.byteAt p (54 + (encodeName name).length + j)
      = Lib.byteAt [0, 0, 1, 0, 1] j := by
    intro j hj
    rw [Nat.add_assoc, h.byteAt (by omega), byteAt_append_right (by omega),
      Nat.add_sub_cancel_left]
  rw [questionKey, slice_of_asks h, htail 1 (by omega), htail 2 (by omega), htail 3 (by omega),
    htail 4 (by omega), if_pos (by omega), if_pos (by omega)]
  rfl

/-- A question whose key is that of an encodable name asks for that name. -/
theorem asks_of_questionKey {p name : List UInt8} {k : Nat} (hn : Encodable name)
    (hk : NameEnds p 54 k) (hkey : questionKey p 54 k = nameKey name) :
    Asks p name ∧ k = (encodeName name).length := by
  have hname := hk.slice_ne_zero
  obtain ⟨hk255, hin, hzero, hnz⟩ := hk
  have hlen : (slice p 54 k).length = k := slice_length (by omega)
  have hbound := hn.2
  have hslice : slice p 54 k = encodeName name := by
    have hpad : padded 256 (slice p 54 k) = padded 256 (encodeName name) :=
      congrArg DnsQuery.name hkey
    exact padded_inj (by omega) (by omega) hname hn.1 hpad
  have htype : (if 54 + k + 5 ≤ p.length then
      le16 (Lib.byteAt p (54 + k + 2)) (Lib.byteAt p (54 + k + 1)) else 0) = (1 : UInt16) :=
    congrArg DnsQuery.recordType hkey
  have hcls : (if 54 + k + 5 ≤ p.length then
      le16 (Lib.byteAt p (54 + k + 4)) (Lib.byteAt p (54 + k + 3)) else 0) = (1 : UInt16) :=
    congrArg DnsQuery.cls hkey
  by_cases hcut : 54 + k + 5 ≤ p.length
  swap
  · rw [if_neg hcut] at htype
    exact absurd htype (by decide)
  have hone : (1 : UInt16) = le16 1 0 := rfl
  rw [if_pos hcut, hone, le16_inj] at htype hcls
  have hklen : k = (encodeName name).length := by rw [← hslice, hlen]
  have htail : slice p (54 + k) 5 = [0, 0, 1, 0, 1] := by
    rw [slice_cons (by omega), slice_cons (by omega), slice_cons (by omega), slice_cons (by omega),
      slice_cons (by omega), hzero, htype.2, htype.1, hcls.2, hcls.1]
    rfl
  refine ⟨⟨by omega, ?_⟩, hklen⟩
  rw [← hklen, ← slice_append_slice, hslice, htail]

/-- The questions bound in a map that agrees with the history. -/
theorem answers_iff {h : List Command} {records : RecordMap} {p : List UInt8} {k : Nat}
    {a : ARecord} (hag : Agrees h records) (henc : ∀ c ∈ h, Encodable c.name) :
    Answers records p k a ↔ IsDnsQuery p ∧
      ∃ name, Asks p name ∧ k = (encodeName name).length ∧ boundTo h name = some a := by
  constructor
  · rintro ⟨hquery, hname, hlook⟩
    obtain ⟨name, hb, hkey⟩ := (hag _ _).mp hlook
    obtain ⟨hasks, hk⟩ := asks_of_questionKey (Encodable.of_bound henc hb) hname hkey
    exact ⟨hquery, name, hasks, hk, hb⟩
  · rintro ⟨hquery, name, hasks, rfl, hb⟩
    refine ⟨hquery, nameEnds_of_asks (Encodable.of_bound henc hb) hasks, ?_⟩
    rw [questionKey_of_asks hasks]
    exact (hag _ _).mpr ⟨name, hb, rfl⟩

/-- A name is bound where the last command on it is an `add` of an address. -/
theorem boundTo_eq_some_iff {h : List Command} {name : List UInt8} {a : ARecord} :
    boundTo h name = some a ↔ ∃ ip ttl ipAddr, lastCommand h name = some (.add name ip ttl) ∧
      inetAton ip = some ipAddr ∧ a = ⟨ipAddr, ttlOf ttl⟩ := by
  constructor
  · intro hb
    obtain ⟨c, hc, hrec⟩ := Option.bind_eq_some_iff.mp hb
    have hname := List.find?_some hc
    simp only [decide_eq_true_eq] at hname
    cases c with
    | remove name' ip => cases hrec
    | add name' ip ttl =>
        obtain ⟨ipAddr, hip, rfl⟩ := Option.map_eq_some_iff.mp hrec
        obtain rfl : name' = name := hname
        exact ⟨ip, ttl, ipAddr, hc, hip, rfl⟩
  · rintro ⟨ip, ttl, ipAddr, hc, hip, rfl⟩
    rw [boundTo, hc, Option.bind_some, Command.record, hip, Option.map_some]

/-- `bpf_xdp_adjust_tail` succeeds on the answers to a frame. -/
def AdjustTail.Succeeds (adjust : AdjustTail) (p : List UInt8) : Prop :=
  ∀ (hp : 54 ≤ p.length) (k : Nat), k ≤ 255 →
    ∃ p₂, adjust.run (markedPacket p hp) (tailAdjust p (k + 5 : Nat) 16) = some p₂

/-- After any history of successful commands, with at most 65536 names bound at
any time, a frame is answered exactly when it asks for a name whose last
command was an `add`, and then with the address and time to live that `add`
means. -/
theorem xdpDns_agrees_with_cli [HashOrder DnsQuery] (enc : OctetEncoder) (key : DnsQuery)
    (fuel : Nat) (program : List UInt8) (h : List Command) (records : RecordMap)
    (henc : ∀ c ∈ h, Encodable c.name)
    (hcard : ∀ h', h' <+: h → (boundNames h').card ≤ 65536)
    (hrun : exec (cliStep enc key fuel program) HashMap.empty h = some records)
    (adjust : AdjustTail) (buf : Buf 512) (p : List UInt8) (hadjust : adjust.Succeeds p) :
    ∃ r, xdpDns adjust records buf p = some r ∧
      (r.action = .tx ↔ IsDnsQuery p ∧
        ∃ name ip ttl, Asks p name ∧ lastCommand h name = some (.add name ip ttl)) ∧
      ∀ (hquery : IsDnsQuery p) (name ip : List UInt8) (ttl : Option (List UInt8)),
        Asks p name → lastCommand h name = some (.add name ip ttl) →
        ∃ a, (Command.add name ip ttl).record = some a ∧ inetAton ip = some a.ipAddr ∧
          (∀ t, MeansTtl ttl t → a.ttl = t) ∧
          r.packet = (answerFrame (Frame.ofBytes p hquery.1)
            (encodeName name ++ [0, 0, 1, 0, 1]) a).bytes := by
  have hag := agrees_run enc key fuel program henc hcard hrun
  -- every `add` of the history read an address
  have hadd : ∀ {name ip ttl}, lastCommand h name = some (.add name ip ttl) →
      ∃ ipAddr, inetAton ip = some ipAddr := by
    intro name ip ttl hlast
    have hmem := List.mem_reverse.mp (List.mem_of_find?_eq_some hlast)
    obtain ⟨s₁, s₂, hstep⟩ := exec_mem hrun hmem
    obtain ⟨ipAddr, hip, -⟩ := cliStep_add enc key fuel program hstep
    exact ⟨ipAddr, hip⟩
  have hans : ∀ {name ip ttl ipAddr}, IsDnsQuery p → Asks p name →
      lastCommand h name = some (.add name ip ttl) → inetAton ip = some ipAddr →
      Answers records p (encodeName name).length ⟨ipAddr, ttlOf ttl⟩ := by
    intro name ip ttl ipAddr hquery hasks hlast hip
    refine (answers_iff hag henc).mpr ⟨hquery, name, hasks, rfl, ?_⟩
    exact boundTo_eq_some_iff.mpr ⟨ip, ttl, ipAddr, hlast, hip, rfl⟩
  obtain ⟨r, hr, hend⟩ := xdpDns_ends adjust records buf p
  refine ⟨r, hr, ?_⟩
  cases hend with
  | @sent k a p₂ hka hrun₂ =>
      obtain ⟨hquery, name, hasks, hk, hb⟩ := (answers_iff hag henc).mp hka
      obtain ⟨ip, ttl, ipAddr, hlast, hip, ha⟩ := boundTo_eq_some_iff.mp hb
      refine ⟨iff_of_true rfl ⟨hquery, name, ip, ttl, hasks, hlast⟩, ?_⟩
      intro _ name' ip' ttl' hasks' hlast'
      obtain ⟨ipAddr', hip'⟩ := hadd hlast'
      obtain ⟨rfl, rfl⟩ := hka.unique (hans hquery hasks' hlast' hip')
      refine ⟨⟨ipAddr', ttlOf ttl'⟩, by rw [Command.record, hip', Option.map_some], hip',
        fun t ht => ttlOf_of_means ht, ?_⟩
      simp only
      rw [resized_question hka.length_ge hka.2.1.1 hasks'.1 hrun₂, hasks'.2]
  | @marked k a hka hrun₂ =>
      -- the resize succeeds
      obtain ⟨p₂, hp₂⟩ := hadjust hka.length_ge k hka.2.1.1
      rw [hrun₂] at hp₂
      cases hp₂
  | passed hno =>
      constructor
      · refine iff_of_false (fun htx => by cases htx) ?_
        rintro ⟨hquery, name, ip, ttl, hasks, hlast⟩
        obtain ⟨ipAddr, hip⟩ := hadd hlast
        exact hno _ _ (hans hquery hasks hlast hip)
      · intro hquery name ip ttl hasks hlast
        obtain ⟨ipAddr, hip⟩ := hadd hlast
        exact absurd (hans hquery hasks hlast hip) (hno _ _)

/-- The commands `add a a 192.0.2.1 300`, `add a b 10.1` and `remove a b 10.1`. -/
def sampleHistory : List Command :=
  [.add (cstr ['a']) (cstr ['1', '9', '2', '.', '0', '.', '2', '.', '1']) (some (cstr ['3', '0', '0'])),
    .add (cstr ['b']) (cstr ['1', '0', '.', '1']) none,
    .remove (cstr ['b']) (cstr ['1', '0', '.', '1'])]

theorem kernelAdjustTail_succeeds : (kernelAdjustTail 1518 (by decide)).Succeeds sampleQuery := by
  intro hp k hk
  have hlen : (markedPacket sampleQuery hp).length = 61 := by
    rw [markedPacket_length]
    rfl
  have hd : tailAdjust sampleQuery (k + 5 : Nat) 16 = (k : Int) + 14 := by
    have hcast : (54 + ((k + 5 : Nat) : Int) + (16 : Nat) - sampleQuery.length) = (k : Int) + 14 := by
      have hsample : sampleQuery.length = 61 := rfl
      rw [hsample]
      omega
    rw [tailAdjust, hcast]
    exact Int.bmod_eq_of_le (by omega) (by omega)
  exact ⟨_, if_pos (by rw [hlen, hd]; omega)⟩

/-- The length-octet form, written as it should be. -/
def sampleEncoder : OctetEncoder where
  run name _ := padded 256 (encodeName name)
  run_eq _ := rfl

/-- A command on a table that puts every new key in front. -/
def sampleStep : RecordMap → Command → Option RecordMap :=
  @cliStep ⟨fun _ => 0⟩ sampleEncoder ⟨0, 0, Buf.zero 256⟩ 0 []

theorem xdpDns_agrees_with_cli_sampleHistory :
    ∃ records, exec sampleStep HashMap.empty sampleHistory = some records ∧
      ∃ r, xdpDns (kernelAdjustTail 1518 (by decide)) records (Buf.zero 512) sampleQuery = some r ∧
        r.action = .tx := by
  have hsome : (exec sampleStep HashMap.empty sampleHistory).isSome := by decide +kernel
  obtain ⟨records, hrun⟩ := Option.isSome_iff_exists.mp hsome
  have henc : ∀ c ∈ sampleHistory, Encodable c.name := by decide +kernel
  have hcard : ∀ h', h' <+: sampleHistory → (boundNames h').card ≤ 65536 := by
    intro h' hpre
    have hle : (boundNames h').card ≤ h'.length := by
      refine (Finset.card_filter_le _ _).trans ((List.toFinset_card_le _).trans ?_)
      rw [List.length_map]
    have hlen : h'.length ≤ 3 := hpre.length_le
    omega
  have hasks : Asks sampleQuery (cstr ['a']) := by decide +kernel
  have hlast : lastCommand sampleHistory (cstr ['a']) = some (.add (cstr ['a'])
      (cstr ['1', '9', '2', '.', '0', '.', '2', '.', '1']) (some (cstr ['3', '0', '0']))) := by
    decide +kernel
  obtain ⟨r, hr, htx, -⟩ := @xdpDns_agrees_with_cli ⟨fun _ => 0⟩ sampleEncoder
    ⟨0, 0, Buf.zero 256⟩ 0 [] sampleHistory records henc hcard hrun
    (kernelAdjustTail 1518 (by decide)) (Buf.zero 512) sampleQuery kernelAdjustTail_succeeds
  exact ⟨records, hrun, r, hr, htx.mpr ⟨by decide, _, _, _, hasks, hlast⟩⟩

end NetProbes.Dns
