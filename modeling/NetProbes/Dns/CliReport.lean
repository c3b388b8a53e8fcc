/-
# `NetProbes.Dns.CliReport` — what the command line reports

Two things a user of `dnscache` goes by: the exit status of `add` and `remove`,
and the listing.

    main_reports_iff      the exit status says whether the map reflects the
                          command, except that an `add` whose update fails
                          still exits with 0
    listLoop_complete_iff the listing is complete unless the uninitialised
                          `key` happens to hold a stored key

`remove` looks at the result of its call and `add` does not; `print_map` of
`tcprtt` starts its cursor at a key that is never stored and `list` does not
start it anywhere.
-/
import NetProbes.Dns.Agreement

namespace NetProbes.Dns

open NetProbes.Lib

/-! ## Command lines -/

inductive Verb where
  | add
  | remove
  deriving DecidableEq

/-- `add` or `remove`, a type, a name, an address and perhaps a time to live. -/
structure CommandLine where
  verb : Verb
  type : List UInt8
  name : List UInt8
  ip : List UInt8
  ttl : Option (List UInt8)

namespace CommandLine

/-- The argument vector. -/
def argv (program : List UInt8) (l : CommandLine) : List (List UInt8) :=
  [program, match l.verb with
    | .add => cstr ['a', 'd', 'd']
    | .remove => cstr ['r', 'e', 'm', 'o', 'v', 'e'], l.type, l.name, l.ip] ++ l.ttl.toList

/-- The line is well-formed and gives the record `a`: an A record, a name that
has a length-octet form, an address and, unless it is left out and 0, a decimal
32-bit time to live. -/
structure Gives (l : CommandLine) (a : ARecord) : Prop where
  type : l.type = cstr ['a'] ∨ l.type = cstr ['A']
  name : Encodable l.name
  ip : inetAton l.ip = some a.ipAddr
  ttl : MeansTtl l.ttl a.ttl

/-- The map afterwards reflects the command: `add` bound the name to exactly
the record given, `remove` took away a record that was there. -/
def Reflected (l : CommandLine) (a : ARecord) (records records' : RecordMap) : Prop :=
  match l.verb with
  | .add => records'.lookup (nameKey l.name) = some a
  | .remove => (∃ b, records.lookup (nameKey l.name) = some b) ∧
      records'.lookup (nameKey l.name) = none

end CommandLine

/-- The exit status is 0 exactly where the map reflects the command; no other
record is touched, and none at all where the status is not 0. -/
structure ReportsTruly (l : CommandLine) (a : ARecord) (records : RecordMap) (r : CliResult) :
    Prop where
  status : r.ret = 0 ↔ l.Reflected a records r.records
  others : ∀ q, q ≠ nameKey l.name → r.records.lookup q = records.lookup q
  failed : r.ret ≠ 0 → r.records = records

/-- The calls do what their documentation says where they succeed.  Where they
fail the map is as before, which is how `main` is modelled; when they fail is
left open. -/
structure MapCalls.Documented (calls : MapCalls) : Prop where
  update : ∀ {records records' : RecordMap} {q : DnsQuery} {a : ARecord},
    calls.update records q a .any = .ok records' →
      ∀ q', records'.lookup q' = if q' = q then some a else records.lookup q'
  delete : ∀ {records records' : RecordMap} {q : DnsQuery},
    calls.delete records q = .ok records' → (∃ a, records.lookup q = some a) ∧
      ∀ q', records'.lookup q' = if q' = q then none else records.lookup q'

theorem MapCalls.working_documented [HashOrder DnsQuery] : MapCalls.working.Documented where
  update h q' := HashMap.lookup_update h q'
  delete := by
    intro records records' q h
    refine ⟨?_, fun q' => HashMap.lookup_delete h q'⟩
    cases hl : records.lookup q with
    | some a => exact ⟨a, rfl⟩
    | none =>
        have herr : records.delete q = .error .enoent := by simp only [HashMap.delete, hl]
        have hok : records.delete q = .ok records' := h
        rw [herr] at hok
        cases hok

/-! ## The exit status -/

section Status
variable (calls : MapCalls) (enc : OctetEncoder) (key : DnsQuery) (fuel : Nat)
  (program : List UInt8) {l : CommandLine} {a : ARecord} (records : RecordMap)

/-- `main` on a well-formed line, with the map opened. -/
theorem main_of_gives (hl : l.Gives a) (hopen : calls.objGet = none) :
    main calls enc key fuel records (l.argv program) = some (match l.verb with
      | .add => ⟨0, match calls.update records (nameKey l.name) a .any with
          | .ok records' => records'
          | .error _ => records, [.text "DNS record added\n"]⟩
      | .remove => match calls.delete records (nameKey l.name) with
          | .ok records' => ⟨0, records', [.text "DNS record removed\n"]⟩
          | .error _ => ⟨2, records, [.text "DNS record not found\n", .usage]⟩) := by
  obtain ⟨verb, type, name, ip, ttl⟩ := l
  have hkey : (⟨1, 1, enc.run name (Buf.zero 256)⟩ : DnsQuery) = nameKey name :=
    enc.key_eq hl.name
  have hip : inetAton ip = some a.ipAddr := hl.ip
  have htype : type = cstr ['a'] ∨ type = cstr ['A'] := hl.type
  have hrec : (⟨a.ipAddr, ttlOf ttl⟩ : ARecord) = a := by rw [ttlOf_of_means hl.ttl]
  have hverb : ¬ cstr ['r', 'e', 'm', 'o', 'v', 'e'] = cstr ['a', 'd', 'd'] := by decide
  cases verb with
  | add =>
      have hmain : main calls enc key fuel records (CommandLine.argv program ⟨.add, type, name, ip, ttl⟩)
          = some (addOrRemove calls enc records (cstr ['a', 'd', 'd']) type name ip ttl) := by
        cases ttl <;> simp only [main, hopen] <;> rfl
      rw [hmain]
      cases hupd : calls.update records (nameKey name) a .any with
      | ok records' =>
          simp only [addOrRemove, true_or, if_true, if_pos htype, hip, hkey, hrec, hupd]
      | error e =>
          simp only [addOrRemove, true_or, if_true, if_pos htype, hip, hkey, hrec, hupd]
  | remove =>
      have hmain : main calls enc key fuel records
          (CommandLine.argv program ⟨.remove, type, name, ip, ttl⟩)
          = some (addOrRemove calls enc records (cstr ['r', 'e', 'm', 'o', 'v', 'e']) type name ip
              ttl) := by
        cases ttl <;> simp only [main, hopen] <;> rfl
      rw [hmain]
      cases hdel : calls.delete records (nameKey name) with
      | ok records' =>
          simp only [addOrRemove, or_true, if_true, if_neg hverb, if_pos htype, hip, hkey, hdel]
      | error e =>
          simp only [addOrRemove, or_true, if_true, if_neg hverb, if_pos htype, hip, hkey, hdel]

/-- A status on a map that is as before. -/
theorem reportsTruly_unchanged_iff {ret : Nat} {out : List Output} :
    ReportsTruly l a records ⟨ret, records, out⟩ ↔
      (ret = 0 ↔ l.verb = .add ∧ records.lookup (nameKey l.name) = some a) := by
  have hsame : l.Reflected a records records ↔
      l.verb = .add ∧ records.lookup (nameKey l.name) = some a := by
    rw [CommandLine.Reflected]
    cases hverb : l.verb with
    | add => exact ⟨fun hbound => ⟨rfl, hbound⟩, fun h => h.2⟩
    | remove =>
        refine iff_of_false ?_ fun h => by cases h.1
        rintro ⟨⟨b, hb⟩, hnone⟩
        rw [hb] at hnone
        cases hnone
  constructor
  · intro h
    exact h.status.trans hsame
  · intro h
    exact ⟨h.trans hsame.symm, fun _ _ => rfl, fun _ => rfl⟩

/-- A success that has written the name's record and no other. -/
theorem reportsTruly_of_written {records' : RecordMap} {written : Option ARecord}
    {out : List Output}
    (hlook : ∀ q, records'.lookup q = if q = nameKey l.name then written else records.lookup q)
    (href : l.Reflected a records records') : ReportsTruly l a records ⟨0, records', out⟩ where
  status := iff_of_true rfl href
  others q hq := (hlook q).trans (if_neg hq)
  failed hne := absurd rfl hne

/-- The exit status of a well-formed line tells what became of the map, unless
it is an `add` and its update fails on a name not bound to that record already
(or the map cannot be opened, and holds just that record). -/
theorem main_reports_iff (hcalls : calls.Documented) (hl : l.Gives a) :
    ∃ r, main calls enc key fuel records (l.argv program) = some r ∧
      (ReportsTruly l a records r ↔ (l.verb = .add →
        match calls.objGet with
        | none => (∃ records', calls.update records (nameKey l.name) a .any = .ok records') ∨
            records.lookup (nameKey l.name) = some a
        | some _ => records.lookup (nameKey l.name) ≠ some a)) := by
  cases hopen : calls.objGet with
  | some e =>
      refine ⟨⟨1, records, getMapFdError e⟩, by simp only [main, hopen], ?_⟩
      rw [reportsTruly_unchanged_iff]
      constructor
      · intro h hverb hbound
        exact Nat.one_ne_zero (h.mpr ⟨hverb, hbound⟩)
      · intro h
        refine iff_of_false Nat.one_ne_zero ?_
        rintro ⟨hverb, hbound⟩
        exact h hverb hbound
  | none =>
      refine ⟨_, main_of_gives calls enc key fuel program records hl hopen, ?_⟩
      cases hverb : l.verb with
      | add =>
          cases hupd : calls.update records (nameKey l.name) a .any with
          | ok records' =>
              have hlook := hcalls.update hupd
              refine iff_of_true (reportsTruly_of_written records hlook ?_) fun _ => Or.inl ⟨_, rfl⟩
              simp only [CommandLine.Reflected, hverb]
              rw [hlook, if_pos rfl]
          | error e =>
              -- the status is 0 all the same
              refine (reportsTruly_unchanged_iff records).trans ?_
              constructor
              · intro h _
                exact Or.inr (h.mp rfl).2
              · intro h
                rcases h rfl with ⟨records', hok⟩ | hbound
                · cases hok
                · exact iff_of_true rfl ⟨hverb, hbound⟩
      | remove =>
          refine iff_of_true ?_ fun h => by cases h
          cases hdel : calls.delete records (nameKey l.name) with
          | ok records' =>
              obtain ⟨hthere, hlook⟩ := hcalls.delete hdel
              refine reportsTruly_of_written records hlook ?_
              simp only [CommandLine.Reflected, hverb]
              exact ⟨hthere, by rw [hlook, if_pos rfl]⟩
          | error e =>
              refine (reportsTruly_unchanged_iff records).mpr (iff_of_false (Nat.succ_ne_zero 1) ?_)
              rw [hverb]
              exact fun h => by cases h.1

end Status

/-- The calls on a map whose hash puts every key in one bucket. -/
def sampleCalls : MapCalls := @MapCalls.working ⟨fun _ => 0⟩

theorem sampleCalls_documented : sampleCalls.Documented :=
  @MapCalls.working_documented ⟨fun _ => 0⟩

/-- `add a a 192.0.2.1 300`. -/
def sampleLine : CommandLine :=
  ⟨.add, cstr ['a'], cstr ['a'], cstr ['1', '9', '2', '.', '0', '.', '2', '.', '1'],
    some (cstr ['3', '0', '0'])⟩

theorem sampleLine_gives : sampleLine.Gives ⟨le32 192 0 2 1, 300⟩ where
  type := Or.inl rfl
  name := by decide +kernel
  ip := by decide +kernel
  ttl := ⟨300, by decide, by decide +kernel, rfl⟩

theorem main_reports_iff_sampleLine :
    ∃ r, main sampleCalls sampleEncoder (nameKey []) 1 HashMap.empty (sampleLine.argv (cstr ['x']))
        = some r ∧ ReportsTruly sampleLine ⟨le32 192 0 2 1, 300⟩ HashMap.empty r := by
  obtain ⟨r, hr, h⟩ := main_reports_iff sampleCalls sampleEncoder (nameKey []) 1 (cstr ['x'])
    HashMap.empty sampleCalls_documented sampleLine_gives
  refine ⟨r, hr, h.mpr fun _ => Or.inl ?_⟩
  exact @HashMap.update_any_ok DnsQuery ARecord 65536 _ ⟨fun _ => 0⟩ HashMap.empty _ _
    (Or.inl (Nat.zero_lt_succ _))

/-- A map that holds `n` records, none of them of class 1. -/
def otherRecords (n : Nat) (hn : n ≤ 65536) : RecordMap where
  entries := (List.range n).map fun i => (⟨UInt16.ofNat i, 0, Buf.zero 256⟩, ⟨0, 0⟩)
  nodup := by
    rw [List.map_map]
    refine List.Nodup.map_on ?_ List.nodup_range
    intro i hi j hj hij
    have htype : (UInt16.ofNat i).toNat = (UInt16.ofNat j).toNat :=
      congrArg (fun q : DnsQuery => q.recordType.toNat) hij
    rw [UInt16.toNat_ofNat', UInt16.toNat_ofNat'] at htype
    rw [List.mem_range] at hi hj
    omega
  size_le := by
    rw [List.length_map, List.length_range]
    exact hn

theorem otherRecords_length (n : Nat) (hn : n ≤ 65536) :
    (otherRecords n hn).entries.length = n := by
  rw [otherRecords, List.length_map, List.length_range]

theorem otherRecords_lookup (n : Nat) (hn : n ≤ 65536) (name : List UInt8) :
    (otherRecords n hn).lookup (nameKey name) = none := by
  rw [HashMap.lookup_eq_none_iff]
  intro hmem
  obtain ⟨e, he, hkey⟩ := List.mem_map.mp hmem
  obtain ⟨i, -, rfl⟩ := List.mem_map.mp he
  have hcls : (0 : UInt16) = 1 := congrArg DnsQuery.cls hkey
  cases hcls

theorem update_of_full [HashOrder DnsQuery] {records : RecordMap} {q : DnsQuery} (a : ARecord)
    (hfull : records.entries.length = 65536) (hnew : records.lookup q = none) :
    records.update q a .any = .error .e2big := by
  unfold HashMap.update
  split
  · rename_i b hb
    rw [hnew] at hb
    cases hb
  · rw [if_neg (by decide), dif_neg (by rw [hfull]; exact Nat.lt_irrefl _)]

/-- With the map full an `add` of a new name reports success and does nothing. -/
theorem main_add_full :
    ¬ ∀ (calls : MapCalls) (enc : OctetEncoder) (key : DnsQuery) (fuel : Nat)
      (program : List UInt8) (l : CommandLine) (a : ARecord) (records : RecordMap) (r : CliResult),
      calls.Documented → l.Gives a →
        main calls enc key fuel records (l.argv program) = some r →
          ReportsTruly l a records r := by
  intro hall
  have hlen := otherRecords_length 65536 (Nat.le_refl _)
  have hnew := otherRecords_lookup 65536 (Nat.le_refl _) sampleLine.name
  generalize otherRecords 65536 (Nat.le_refl _) = records at hlen hnew
  have hmain := main_of_gives sampleCalls sampleEncoder (nameKey []) 1 (cstr ['x']) records
    sampleLine_gives rfl
  have hupd : sampleCalls.update records (nameKey sampleLine.name) ⟨le32 192 0 2 1, 300⟩ .any
      = .error .e2big := @update_of_full ⟨fun _ => 0⟩ _ _ _ hlen hnew
  simp only [sampleLine] at hupd hnew hmain
  rw [hupd] at hmain
  have hreport := hall _ _ _ _ _ sampleLine _ _ _ sampleCalls_documented sampleLine_gives hmain
  have hbound : records.lookup (nameKey (cstr ['a'])) = some ⟨le32 192 0 2 1, 300⟩ :=
    hreport.status.mp rfl
  rw [hnew] at hbound
  cases hbound

/-! ## The listing -/

/-- The loop of `list` ends, and every stored record was visited once. -/
def ListsAll (records : RecordMap) (key : DnsQuery) : Prop :=
  ∃ rounds out, (∀ fuel, rounds ≤ fuel → listLoop records fuel key = some out) ∧
    out.Perm (records.entries.map fun e => .aRecord e.1 e.2)

/-- From a cursor with the entries `es₂` before it, the loop lists these.
Induction on `es₂`; the entries behind the cursor grow. -/
theorem listLoop_eq {records : RecordMap} (es₁ es₂ : List (DnsQuery × ARecord)) (fuel : Nat)
    (key : DnsQuery) (hes : records.entries = es₁ ++ es₂)
    (hnext : records.nextKey key = (es₂.map Prod.fst).head?) (hfuel : es₂.length < fuel) :
    listLoop records fuel key = some (es₂.map fun e => .aRecord e.1 e.2) := by
  induction es₂ generalizing es₁ fuel key with
  | nil =>
      obtain ⟨n, rfl⟩ := Nat.exists_eq_succ_of_ne_zero (Nat.ne_of_gt hfuel)
      simp only [listLoop, hnext, List.map_nil, List.head?_nil]
  | cons e es₂ ih =>
      obtain ⟨n, rfl⟩ := Nat.exists_eq_succ_of_ne_zero (Nat.ne_of_gt (Nat.zero_lt_of_lt hfuel))
      obtain ⟨hlook, hafter⟩ := HashMap.cursor_at hes
      have htail := ih (es₁ ++ [e]) n e.1 (by simp [hes]) hafter (Nat.lt_of_succ_lt_succ hfuel)
      simp only [listLoop, hnext, List.map_cons, List.head?_cons, hlook, htail, Option.map_some]

/-- The listing is complete exactly where the value `key` starts with is not
the key of a record. -/
theorem listLoop_complete_iff (records : RecordMap) (key : DnsQuery) :
    ListsAll records key ↔ key ∉ records.keys := by
  constructor
  · rintro ⟨rounds, out, hout, hperm⟩ hmem
    -- the record of `key` and those before it are skipped
    obtain ⟨e, he, rfl⟩ := List.mem_map.mp hmem
    obtain ⟨es₁, es₂, hes⟩ := List.append_of_mem he
    have hrest := listLoop_eq (es₁ ++ [e]) es₂ (max rounds (es₂.length + 1)) e.1 (by simp [hes])
      (HashMap.cursor_at hes).2 (by omega)
    have hsame := (hout _ (Nat.le_max_left _ _)).symm.trans hrest
    have hlen := hperm.length_eq
    rw [Option.some.inj hsame, List.length_map, List.length_map, hes, List.length_append,
      List.length_cons] at hlen
    omega
  · intro habs
    refine ⟨records.entries.length + 1, _, ?_, List.Perm.refl _⟩
    intro fuel hfuel
    exact listLoop_eq [] _ _ _ (List.nil_append _).symm (HashMap.nextKey_of_absent habs) hfuel

/-- A `key` that holds the only stored key: nothing is listed. -/
theorem listLoop_skips : ¬ ∀ (records : RecordMap) (key : DnsQuery), ListsAll records key := by
  intro hall
  obtain ⟨rounds, out, hout, hperm⟩ := hall sampleRecords ⟨1, 1, padded 256 [1, 97]⟩
  have hnil : listLoop sampleRecords (rounds + 1) ⟨1, 1, padded 256 [1, 97]⟩ = some [] :=
    listLoop_eq _ [] _ _ (List.append_nil _).symm (HashMap.nextKey_of_split (List.nil_append _).symm)
      (Nat.zero_lt_succ _)
  rw [hout _ (Nat.le_succ _)] at hnil
  rw [Option.some.inj hnil] at hperm
  exact absurd hperm.length_eq (by decide)

end NetProbes.Dns
