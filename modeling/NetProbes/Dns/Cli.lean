/-
# `NetProbes.Dns.Cli` — the command line that fills the record map

`dnscache.c` adds, removes and lists records of the map the XDP program reads.
The key of a record has type and class 1 in host order and the length-octet
form of the name, zero-padded; that form is made by
`replace_dots_with_length_octets`, which comes from elsewhere and is a
parameter (`OctetEncoder`).

    main           one command: exit code, map afterwards, output
    encodeName     the length-octet form; it determines the name
-/
import NetProbes.Dns.Xdp
import NetProbes.Lib.CString
import NetProbes.Lib.DnsMessage

namespace NetProbes.Dns

open NetProbes.Lib

/-! ## Names -/

/-- The length-octet form of a dotted name. -/
def encodeName (name : List UInt8) : List UInt8 := (name.splitOn 46).flatMap labelBytes

/-- The form has at most 255 bytes, none of them zero. -/
def Encodable (name : List UInt8) : Prop :=
  (∀ b ∈ encodeName name, b ≠ 0) ∧ (encodeName name).length ≤ 255

instance decEncodable (name : List UInt8) : Decidable (Encodable name) :=
  inferInstanceAs (Decidable (_ ∧ _))

theorem Encodable.label_length {name : List UInt8} (h : Encodable name) :
    ∀ l ∈ name.splitOn 46, l.length < 256 := by
  intro l hl
  have hsub : (labelBytes l).length ≤ (encodeName name).length := by
    rw [encodeName, List.flatMap_def]
    exact (List.sublist_flatten_of_mem (List.mem_map_of_mem hl)).length_le
  have hbound := h.2
  simp only [labelBytes, List.length_cons] at hsub
  omega

/-- The length-octet form determines the name. -/
theorem encodeName_inj {name name' : List UInt8} (h : Encodable name) (h' : Encodable name')
    (heq : encodeName name = encodeName name') : name = name' := by
  have hlabels := flatMap_labelBytes_inj h.label_length h'.label_length heq
  calc name = [46].intercalate (name.splitOn 46) := (List.intercalate_splitOn 46).symm
    _ = [46].intercalate (name'.splitOn 46) := by rw [hlabels]
    _ = name' := List.intercalate_splitOn 46

/-- `replace_dots_with_length_octets`: the length-octet form of a name, written
into a zeroed array. -/
structure OctetEncoder where
  run : List UInt8 → Buf 256 → Buf 256
  run_eq : ∀ {name : List UInt8}, Encodable name →
    run name (Buf.zero 256) = padded 256 (encodeName name)

/-! ## `main` -/

/-- The errors `bpf_obj_get` is told apart by. -/
inductive Errno where
  | eacces
  | enoent
  | other (n : Nat)
  deriving DecidableEq, Repr

/-- What is printed: fixed text, text of the user's, an error's number and what
`strerror` says of it, a listed record, `usage`. -/
inductive Output where
  | text (s : String)
  | arg (s : List UInt8)
  | errno (n : Nat)
  | strerror (n : Nat)
  | aRecord (q : DnsQuery) (a : ARecord)
  | usage
  deriving DecidableEq

/-- The system calls `main` makes on the pinned map. -/
structure MapCalls where
  objGet : Option Errno
  update : RecordMap → DnsQuery → ARecord → UpdateFlag → Except MapError RecordMap
  delete : RecordMap → DnsQuery → Except MapError RecordMap

/-- The calls on a map that is there. -/
def MapCalls.working [HashOrder DnsQuery] : MapCalls where
  objGet := none
  update := HashMap.update
  delete := HashMap.delete

/-- What a command leaves. -/
structure CliResult where
  ret : Nat
  records : RecordMap
  output : List Output

/-- The messages of `get_map_fd`. -/
def getMapFdError : Errno → List Output
  | .eacces => [.text "ERROR: Permission denied while trying to access ",
      .text "/sys/fs/bpf/xdp/globals/xdns_a_records", .text "\n"]
  | .enoent => [.text "ERROR: Could not find BPF maps. Load XDP program with iproute2 first.\n"]
  | .other n => [.text "ERROR: BPF map error: ", .errno n, .text " (", .strerror n, .text ")\n"]

/-- The loop of `list`, for at most the given number of rounds; the first `key`
is whatever the stack held. -/
def listLoop (records : RecordMap) : Nat → DnsQuery → Option (List Output)
  | 0, _ => none
  | n + 1, key =>
      match records.nextKey key with
      | none => some []
      | some nextKey =>
          match records.lookup nextKey with
          | some value => (listLoop records n nextKey).map (.aRecord nextKey value :: ·)
          | none => listLoop records n nextKey

/-- The time to live of an `add`: 0, or the sixth argument through `atoi`. -/
def ttlOf : Option (List UInt8) → UInt32
  | none => 0
  | some arg => toUint32 (atoi arg)

/-- The time to live that a user means: 0 where it is left out, else the number
the numeral shows. -/
def MeansTtl : Option (List UInt8) → UInt32 → Prop
  | none, ttl => ttl = 0
  | some arg, ttl => ∃ n, n < 4294967296 ∧ decimal arg = some n ∧ ttl = UInt32.ofNat n

theorem ttlOf_of_means {arg : Option (List UInt8)} {ttl : UInt32} (h : MeansTtl arg ttl) :
    ttlOf arg = ttl := by
  cases arg with
  | none => exact h.symm
  | some s =>
      obtain ⟨n, hn, hs, rfl⟩ := h
      exact toUint32_atoi_decimal hs hn

/-- The branch of `main` for five or six arguments. -/
def addOrRemove (calls : MapCalls) (enc : OctetEncoder) (records : RecordMap)
    (verb type name ip : List UInt8) (ttl : Option (List UInt8)) : CliResult :=
  if verb = cstr ['a', 'd', 'd'] ∨ verb = cstr ['r', 'e', 'm', 'o', 'v', 'e'] then
    if type = cstr ['a'] ∨ type = cstr ['A'] then
      match inetAton ip with
      | none => ⟨22, records, [.text "ERROR: Invalid IP address\n"]⟩
      | some ipAddr =>
          let newDnsName := enc.run name (Buf.zero 256)
          let dns : DnsQuery := ⟨1, 1, newDnsName⟩
          if verb = cstr ['a', 'd', 'd'] then
            -- the result of the update is not looked at
            let records :=
              match calls.update records dns ⟨ipAddr, ttlOf ttl⟩ .any with
              | .ok records' => records'
              | .error _ => records
            ⟨0, records, [.text "DNS record added\n"]⟩
          else
            match calls.delete records dns with
            | .ok records' => ⟨0, records', [.text "DNS record removed\n"]⟩
            | .error _ => ⟨2, records, [.text "DNS record not found\n", .usage]⟩
    else ⟨22, records, [.text "ERROR: ", .arg type, .text " is not a DNS record type.\n"]⟩
  else ⟨22, records, [.usage]⟩

/-- `main`; `none` while the loop of `list` has not ended in `fuel` rounds. -/
def main (calls : MapCalls) (enc : OctetEncoder) (key : DnsQuery) (fuel : Nat)
    (records : RecordMap) (argv : List (List UInt8)) : Option CliResult :=
  match calls.objGet with
  | some e => some ⟨1, records, getMapFdError e⟩
  | none =>
      match argv with
      | [_, verb] =>
          if verb = cstr ['l', 'i', 's', 't'] then
            (listLoop records fuel key).map fun out => ⟨0, records, out⟩
          else some ⟨22, records, [.usage]⟩
      | [_, verb, type, name, ip] => some (addOrRemove calls enc records verb type name ip none)
      | [_, verb, type, name, ip, ttl] =>
          some (addOrRemove calls enc records verb type name ip (some ttl))
      | _ => some ⟨22, records, [.usage]⟩

end NetProbes.Dns
