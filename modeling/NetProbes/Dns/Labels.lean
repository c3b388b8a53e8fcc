/-
# `NetProbes.Dns.Labels` — the scan for a zero byte reads names label by label

`parse_query` knows no labels: the name of a question ends at its first zero
byte, also where that byte belongs to a label.  A reader of the wire format goes
from length octet to length octet (`labelsOf`).  The two differ on names, and
still every lookup comes out the same: the bytes before a zero byte inside a
label are no whole labels, and every key of the map consists of whole labels.

    records.lookup (key of parse_query) = some a
      ↔ some key with the labels, type and class of the question has a

No case split on where the zero byte stands is needed.  A key that matches
makes the frame read `labels of the key, zero, …` from the question on, and the
reader label by label can only read one list of labels there.
-/
import NetProbes.Dns.Response
import NetProbes.Lib.DnsMessage

namespace NetProbes.Dns

open NetProbes.Lib

/-- The name of a key is a list of labels of 1 to 63 nonzero octets each, at
most 255 bytes in all, padded with zeros. -/
structure KeyLabels (q : DnsQuery) (ls : List (List UInt8)) : Prop where
  name : q.name = padded 256 (ls.flatMap labelBytes)
  label : ∀ l ∈ ls, 1 ≤ l.length ∧ l.length ≤ 63
  octets : ∀ l ∈ ls, ∀ b ∈ l, b ≠ 0
  size : (ls.flatMap labelBytes).length ≤ 255

/-- No byte of such a name is zero, not even a length octet. -/
theorem KeyLabels.ne_zero {q : DnsQuery} {ls : List (List UInt8)} (h : KeyLabels q ls) :
    ∀ b ∈ ls.flatMap labelBytes, b ≠ 0 := by
  intro b hb
  obtain ⟨l, hl, hbl⟩ := List.mem_flatMap.mp hb
  have hlen := h.label l hl
  rcases List.mem_cons.mp hbl with rfl | hbl
  · intro hz
    have hoct := congrArg UInt8.toNat hz
    rw [UInt8.toNat_ofNat'] at hoct
    have hzero : (0 : UInt8).toNat = 0 := rfl
    omega
  · exact h.octets l hl b hbl

theorem DnsQuery.ext_fields {q q' : DnsQuery} (htype : q.recordType = q'.recordType)
    (hcls : q.cls = q'.cls) (hname : q.name = q'.name) : q = q' := by
  cases q
  cases q'
  simp_all

/-! ## The frame from the question on -/

/-- A zero byte within reach: the name ends there or before. -/
theorem nameEnds_of_zero {p : List UInt8} {start m : Nat} (hm : m ≤ 255)
    (hin : start + m < p.length) (hz : byteAt p (start + m) = 0) : ∃ k, NameEnds p start k := by
  have hex : ∃ i, byteAt p (start + i) = 0 := ⟨m, hz⟩
  have hle : Nat.find hex ≤ m := Nat.find_min' hex hz
  exact ⟨Nat.find hex, by omega, by omega, Nat.find_spec hex, fun i hi => Nat.find_min hex hi⟩

theorem NameEnds.drop_eq {p : List UInt8} {start k : Nat} (h : NameEnds p start k) :
    p.drop start = slice p start k ++ 0 :: p.drop (start + k + 1) := by
  obtain ⟨-, hin, hz, -⟩ := h
  have hbyte : p[start + k] = 0 := by
    simpa [byteAt, List.getD_eq_getElem?_getD, hin] using hz
  have hcons : p.drop (start + k) = 0 :: p.drop (start + k + 1) := by
    rw [List.drop_eq_getElem_cons hin, hbyte]
  rw [← hcons, slice, ← List.drop_drop, List.take_append_drop]

section Question
variable {p rest : List UInt8} {start : Nat} {ls : List (List UInt8)}

/-- The bytes from the question on are the labels, the root and the rest. -/
theorem byteAt_of_drop (hdrop : p.drop start = ls.flatMap labelBytes ++ 0 :: rest) (i : Nat) :
    byteAt p (start + i) = byteAt (ls.flatMap labelBytes ++ 0 :: rest) i := by
  rw [← hdrop]
  simp [byteAt, List.getD_eq_getElem?_getD]

/-- Where no label holds a zero octet the scan finds the root. -/
theorem nameEnds_of_drop (hdrop : p.drop start = ls.flatMap labelBytes ++ 0 :: rest)
    (hin : start + (ls.flatMap labelBytes).length < p.length)
    (hsize : (ls.flatMap labelBytes).length ≤ 255)
    (hnz : ∀ b ∈ ls.flatMap labelBytes, b ≠ 0) :
    NameEnds p start (ls.flatMap labelBytes).length := by
  refine ⟨hsize, hin, ?_, ?_⟩
  · rw [byteAt_of_drop hdrop, byteAt_append_right (Nat.le_refl _), Nat.sub_self]
    rfl
  · intro i hi
    rw [byteAt_of_drop hdrop, byteAt_append, if_pos hi]
    exact hnz _ (byteAt_mem hi)

/-- A matching key has the labels that the reader label by label reads. -/
theorem labels_eq_of_key {k : Nat} {ls' : List (List UInt8)} (hk : NameEnds p start k)
    (hread : labelsOf (p.drop start) = some (ls, rest))
    (hkey : KeyLabels (questionKey p start k) ls') :
    ls' = ls ∧ rest = p.drop (start + k + 1) := by
  have hlen : (slice p start k).length = k := slice_length (by have := hk.2.1; omega)
  have hk255 := hk.1
  have hsize := hkey.size
  have hname : slice p start k = ls'.flatMap labelBytes :=
    padded_inj (by omega) (by omega) hk.slice_ne_zero hkey.ne_zero hkey.name
  have hread' : labelsOf (p.drop start) = some (ls', p.drop (start + k + 1)) :=
    labelsOf_eq_some_iff.mpr ⟨by rw [hk.drop_eq, hname], hkey.label⟩
  have heq := Option.some.inj (hread'.symm.trans hread)
  exact ⟨congrArg Prod.fst heq, (congrArg Prod.snd heq).symm⟩

end Question

/-- The lookup done by `parse_query` and `match_a_records` finds exactly the
record of the key with the labels, type and class of the question. -/
theorem lookup_iff_labels (records : RecordMap)
    (hkeys : ∀ key ∈ records.keys, ∃ ls, KeyLabels key ls)
    (p : List UInt8) (start : Nat) (ls : List (List UInt8)) (rest : List UInt8)
    (hread : labelsOf (p.drop start) = some (ls, rest))
    (hsize : (ls.flatMap labelBytes).length + 1 ≤ 255) (hrest : 4 ≤ rest.length) :
    ∃ n q, parseQuery p start = some (n, q) ∧ 1 ≤ n ∧
      ∀ a, matchARecords records q = some a ↔
        ∃ key, records.lookup key = some a ∧ KeyLabels key ls ∧
          key.recordType.toNat = net16 rest 0 ∧ key.cls.toNat = net16 rest 2 := by
  obtain ⟨hdrop, hlabels⟩ := labelsOf_eq_some_iff.mp hread
  have hlen := congrArg List.length hdrop
  simp only [List.length_drop, List.length_append, List.length_cons] at hlen
  have hroot : byteAt p (start + (ls.flatMap labelBytes).length) = 0 := by
    rw [byteAt_of_drop hdrop, byteAt_append_right (Nat.le_refl _), Nat.sub_self]
    rfl
  obtain ⟨m, hm⟩ := nameEnds_of_zero (by omega) (by omega) hroot
  rcases parseQuery_cases p start with ⟨k, hk, hparse⟩ | ⟨hno, -⟩
  swap
  · exact absurd hm (hno m)
  refine ⟨_, _, hparse, by omega, ?_⟩
  -- type and class stand where the reader label by label stops
  have hnet : ∀ j i, rest = p.drop (start + j + 1) → net16 rest i = net16 p (start + j + 1 + i) := by
    intro j i hr
    simp [hr, net16, byteAt, List.getD_eq_getElem?_getD, Nat.add_assoc]
  intro a
  constructor
  · intro hfound
    obtain ⟨ls', hls'⟩ := hkeys _ (HashMap.mem_keys_iff.mpr ⟨a, hfound⟩)
    obtain ⟨rfl, hr⟩ := labels_eq_of_key hk hread hls'
    have hin : start + k + 5 ≤ p.length := by
      rw [hr, List.length_drop] at hrest
      omega
    refine ⟨_, hfound, hls', ?_, ?_⟩
    · rw [questionKey_recordType hin, hnet k 0 hr]
    · rw [questionKey_cls hin, hnet k 2 hr]
  · rintro ⟨key, hfound, hkey, htype, hcls⟩
    -- the key has no zero octet, so the scan ends at the root
    have hend := nameEnds_of_drop hdrop (by omega) (by omega) hkey.ne_zero
    obtain rfl := hk.unique hend
    have hin : start + (ls.flatMap labelBytes).length + 5 ≤ p.length := by omega
    have hslice : slice p start (ls.flatMap labelBytes).length = ls.flatMap labelBytes := by
      rw [slice, hdrop, List.take_left]
    have hr : rest = p.drop (start + (ls.flatMap labelBytes).length + 1) := by
      have hcut := hend.drop_eq
      rw [hdrop, hslice] at hcut
      exact (List.cons.inj (List.append_cancel_left hcut)).2
    have heq : questionKey p start (ls.flatMap labelBytes).length = key := by
      refine DnsQuery.ext_fields (UInt16.toNat_inj.mp ?_) (UInt16.toNat_inj.mp ?_) ?_
      · rw [questionKey_recordType hin, htype, hnet _ 0 hr]
      · rw [questionKey_cls hin, hcls, hnet _ 2 hr]
      · rw [hkey.name]
        exact congrArg (padded 256) hslice
    rw [heq]
    exact hfound

/-- A query for one label, an `a`, a zero octet and a `b`. -/
def zeroOctetQuery : List UInt8 := sampleQuery.take 54 ++ [3, 97, 0, 98, 0, 0, 1, 0, 1]

theorem lookup_iff_labels_zeroOctetQuery :
    (∀ key ∈ sampleRecords.keys, ∃ ls, KeyLabels key ls) ∧
    (∃ n q, parseQuery sampleQuery 54 = some (n, q) ∧
      ∀ a, matchARecords sampleRecords q = some a ↔
        ∃ key, sampleRecords.lookup key = some a ∧ KeyLabels key [[97]] ∧
          key.recordType.toNat = 1 ∧ key.cls.toNat = 1) ∧
    ∃ n q, parseQuery zeroOctetQuery 54 = some (n, q) ∧
      ∀ a, matchARecords sampleRecords q = some a ↔
        ∃ key, sampleRecords.lookup key = some a ∧ KeyLabels key [[97, 0, 98]] ∧
          key.recordType.toNat = 1 ∧ key.cls.toNat = 1 := by
  have hkeys : ∀ key ∈ sampleRecords.keys, ∃ ls, KeyLabels key ls := by
    intro key hkey
    have hkey' : key = ⟨1, 1, padded 256 [1, 97]⟩ := by
      simpa only [sampleRecords, HashMap.keys, List.map_cons, List.map_nil, List.mem_singleton]
        using hkey
    subst hkey'
    exact ⟨[[97]], rfl, by simp, by simp, by decide⟩
  obtain ⟨n, q, hparse, -, hlookup⟩ := lookup_iff_labels sampleRecords hkeys sampleQuery 54 [[97]]
    [0, 1, 0, 1] (by decide) (by decide) (by decide)
  obtain ⟨n', q', hparse', -, hlookup'⟩ := lookup_iff_labels sampleRecords hkeys zeroOctetQuery 54
    [[97, 0, 98]] [0, 1, 0, 1] (by decide) (by decide) (by decide)
  exact ⟨hkeys, ⟨n, q, hparse, hlookup⟩, n', q', hparse', hlookup'⟩

end NetProbes.Dns
