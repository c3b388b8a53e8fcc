/-
# `NetProbes.Dns.Message` — when the answer is a well-formed message

The answer keeps the counts of the request for questions, authority and
additional records, but its body is always one question and one record.  Read
by its own header (`WellFormed`) it is a message exactly when counts and body
fit together, `CountsFit`:

    q_count = 1, auth_count = add_count = 0 and the labels of the name end at
    the zero byte that `parse_query` stopped at

or, where that byte lies inside a label, in a few cases in which the bytes
happen to read as other sections of the right length.  A request with any
authority or additional record, an `OPT` record for one, never gets a
well-formed answer.
-/
import NetProbes.Dns.Response
import NetProbes.Lib.DnsMessage

namespace NetProbes.Dns

open NetProbes.Lib

/-! ## The bytes of the answer -/

/-- The message in an answer: header, question, answer record. -/
def message (header question : List UInt8) (a : ARecord) : List UInt8 :=
  header ++ (question ++ answer a)

/-- A header, and a question whose first zero byte is its `k`-th. -/
structure Parts (header question : List UInt8) (k : Nat) : Prop where
  header_length : header.length = 12
  question_length : question.length = k + 5
  zero : byteAt question k = 0
  nonzero : ∀ i, i < k → byteAt question i ≠ 0

/-- Where the labels of the question end, read on into the six fixed bytes the
answer record starts with. -/
def labelsEnd (question : List UInt8) : Option Nat :=
  nameWalk (question ++ [0xc0, 0x0c, 0, 1, 0, 1]) 0 256 0

/-- The counts of the header and the body fit together. -/
def CountsFit (qCount authCount addCount k : Nat) (question : List UInt8) (a : ARecord) : Prop :=
  authCount = 0 ∧ addCount = 0 ∧
    ((qCount = 1 ∧ labelsEnd question = some (k + 1)) ∨
     (qCount = 1 ∧ labelsEnd question = some (k + 5) ∧ net16 (bytes32 a.ipAddr) 1 = 1) ∨
     (qCount = 0 ∧ labelsEnd question = some (k + 3) ∧ a.ttl.toNat / 65536 = 8) ∨
     (qCount = 0 ∧ labelsEnd question = some (k + 4) ∧ a.ttl.toNat / 256 % 65536 = 7) ∨
     (qCount = 0 ∧ labelsEnd question = some (k + 5) ∧ a.ttl.toNat % 65536 = 6) ∨
     (qCount = 0 ∧ labelsEnd question = some (k + 10) ∧ net16 (bytes32 a.ipAddr) 1 = 1))

instance decCountsFit (qCount authCount addCount k : Nat) (question : List UInt8) (a : ARecord) :
    Decidable (CountsFit qCount authCount addCount k question a) :=
  inferInstanceAs (Decidable (_ ∧ _ ∧ (_ ∨ _ ∨ _ ∨ _ ∨ _ ∨ _)))

/-- The numbers that can be read across the fields of an answer record. -/
theorem net16_answer (a : ARecord) :
    net16 (answer a) 4 = 1 ∧ 256 ≤ net16 (answer a) 5 ∧
    net16 (answer a) 6 = a.ttl.toNat / 65536 ∧ net16 (answer a) 7 = a.ttl.toNat / 256 % 65536 ∧
    net16 (answer a) 8 = a.ttl.toNat % 65536 ∧ net16 (answer a) 9 % 256 = 0 ∧
    net16 (answer a) 10 = 4 ∧ 256 ≤ net16 (answer a) 11 ∧
    net16 (answer a) 13 = net16 (bytes32 a.ipAddr) 1 := by
  have httl := a.ttl.toNat_lt
  simp only [net16, answer, be16, be32, bytes32, byteAt, List.cons_append, List.nil_append,
    List.getD_cons_succ, List.getD_cons_zero, UInt8.toNat_ofNat', Nat.reduceAdd, Nat.reduceDiv,
    Nat.reducePow, Nat.reduceMod, true_and, and_true]
  omega

theorem byteAt_answer (a : ARecord) :
    byteAt (answer a) 0 = 0xc0 ∧ byteAt (answer a) 1 = 0x0c ∧ byteAt (answer a) 2 = 0 ∧
    byteAt (answer a) 3 = 1 ∧ byteAt (answer a) 4 = 0 ∧ byteAt (answer a) 5 = 1 :=
  ⟨rfl, rfl, rfl, rfl, rfl, rfl⟩

section Bytes
variable {header question : List UInt8} {k : Nat} (h : Parts header question k) (a : ARecord)
include h

theorem Parts.message_length : (message header question a).length = k + 33 := by
  simp only [message, List.length_append, h.header_length, h.question_length, answer_length]
  omega

theorem Parts.byteAt_question {x i : Nat} (hx : x = 12 + i) (hi : i < k + 5) :
    byteAt (message header question a) x = byteAt question i := by
  have hlen := h.header_length
  rw [message, byteAt_append_right (by omega), hx, hlen, Nat.add_sub_cancel_left, byteAt_append,
    if_pos (by rw [h.question_length]; exact hi)]

theorem Parts.byteAt_answer {x j : Nat} (hx : x = 12 + k + 5 + j) :
    byteAt (message header question a) x = byteAt (answer a) j := by
  have hlen := h.header_length
  have hqlen := h.question_length
  rw [message, byteAt_append_right (by omega), byteAt_append_right (by omega), hx, hlen, hqlen]
  congr 1
  omega

theorem Parts.net16_answer {x j : Nat} (hx : x = 12 + k + 5 + j) :
    net16 (message header question a) x = net16 (answer a) j := by
  rw [net16, h.byteAt_answer a hx, h.byteAt_answer a (show x + 1 = 12 + k + 5 + (j + 1) by omega)]
  rfl

theorem Parts.net16_header {x : Nat} (hx : x + 1 < 12) :
    net16 (message header question a) x = net16 header x := by
  have hlen := h.header_length
  simp only [net16, message]
  rw [byteAt_append, if_pos (by omega), byteAt_append, if_pos (by omega)]

theorem Parts.byteAt_labels {i : Nat} (hi : i < k + 11) :
    byteAt (message header question a) (12 + i)
      = byteAt (question ++ [0xc0, 0x0c, 0, 1, 0, 1]) i := by
  have hparts : message header question a = header ++ ((question ++ [0xc0, 0x0c, 0, 1, 0, 1])
      ++ (be32 a.ttl.toNat ++ (be16 4 ++ bytes32 a.ipAddr))) := by
    simp [message, answer, be16]
  have hlen := h.header_length
  rw [hparts, byteAt_append_right (by omega), hlen, Nat.add_sub_cancel_left, byteAt_append,
    if_pos (by rw [List.length_append, h.question_length]; exact hi)]

/-- The walk over the first name of the message is the walk over the labels. -/
theorem Parts.nameWalk_iff {e : Nat} (he : e ≤ k + 11) : ∀ n i : Nat,
    nameWalk (message header question a) 12 n (12 + i) = some (12 + e)
      ↔ nameWalk (question ++ [0xc0, 0x0c, 0, 1, 0, 1]) 0 n i = some e
  | 0, _ => by simp [nameWalk]
  | n + 1, i => by
      have hlen := h.message_length a
      have hlabels : (question ++ [0xc0, 0x0c, 0, 1, 0, 1]).length = k + 11 := by
        rw [List.length_append, h.question_length]
        rfl
      by_cases hi : i < k + 11
      · -- the same octet on both sides, and no room for a pointer on either
        have hM : 12 + i < (message header question a).length := by omega
        have hL : i < (question ++ [0xc0, 0x0c, 0, 1, 0, 1]).length := by omega
        have hbyte := h.byteAt_labels a hi
        have ih := Parts.nameWalk_iff he n
          (i + 1 + (byteAt (question ++ [0xc0, 0x0c, 0, 1, 0, 1]) i).toNat)
        simp only [nameWalk, if_pos hM, if_pos hL, hbyte]
        split
        · simp only [Option.some.injEq]
          omega
        · split
          · rw [← ih]
            simp only [Nat.add_assoc]
          · rw [if_neg (by omega), if_neg (by omega)]
            simp
      · have hL : ¬ i < (question ++ [0xc0, 0x0c, 0, 1, 0, 1]).length := by omega
        constructor
        · intro hwalk
          have hgt := nameWalk_gt hwalk
          omega
        · intro hwalk
          simp only [nameWalk, if_neg hL] at hwalk
          cases hwalk

/-! ## The sections of the answer -/

/-- The first name ends behind the zero byte of the question or later. -/
theorem Parts.nameEnd_first {e : Nat} (hname : nameEnd (message header question a) 12 = some e) :
    ∃ m, 1 ≤ m ∧ e = 12 + k + m ∧ (m ≤ 11 → labelsEnd question = some (k + m)) := by
  obtain ⟨hz, hle⟩ := nameWalk_zero (Nat.le_refl 12) hname
  have hgt := nameWalk_gt hname
  have hlate : 12 + k ≤ e - 1 := by
    by_contra hearly
    refine h.nonzero (e - 1 - 12) (by omega) ?_
    rw [← h.byteAt_question a (show e - 1 = 12 + (e - 1 - 12) by omega) (by omega)]
    exact hz
  obtain ⟨m, rfl⟩ : ∃ m, e = 12 + k + m := ⟨e - (12 + k), by omega⟩
  refine ⟨m, by omega, rfl, fun hm => ?_⟩
  have hwalk := (h.nameWalk_iff a (e := k + m) (by omega) 256 0).mp
  rw [← Nat.add_assoc] at hwalk
  exact hwalk hname

theorem Parts.nameEnd_of_labelsEnd {m : Nat} (hm : m ≤ 11)
    (hlabels : labelsEnd question = some (k + m)) :
    nameEnd (message header question a) 12 = some (12 + k + m) := by
  have hwalk := (h.nameWalk_iff a (e := k + m) (by omega) 256 0).mpr hlabels
  rw [← Nat.add_assoc] at hwalk
  exact hwalk

/-- Labels that end inside the answer record end at one of its zero bytes. -/
theorem Parts.byteAt_answer_of_labelsEnd {j : Nat} (hj : j ≤ 5)
    (hlabels : labelsEnd question = some (k + (j + 6))) : byteAt (answer a) j = 0 := by
  have hname := h.nameEnd_of_labelsEnd a (by omega) hlabels
  have hz := (nameWalk_zero (Nat.le_refl 12) hname).1
  rw [h.byteAt_answer a (show 12 + k + (j + 6) - 1 = 12 + k + 5 + j by omega)] at hz
  exact hz

/-- Whatever the number of questions, the answer record ends late. -/
theorem Parts.recordEnd_late {q i₁ i₂ : Nat}
    (hquestions : sectionEnd (questionEnd (message header question a)) q 12 = some i₁)
    (hrecord : recordEnd (message header question a) i₁ = some i₂) : k + 23 < i₂ + 1 := by
  cases q with
  | zero =>
      cases hquestions
      obtain ⟨e, hname, hend⟩ := Option.bind_eq_some_iff.mp hrecord
      obtain ⟨m, hm, rfl, -⟩ := h.nameEnd_first a hname
      split at hend
      · cases hend
        omega
      · cases hend
  | succ n =>
      obtain ⟨e₁, hfirst, hrest⟩ := Option.bind_eq_some_iff.mp hquestions
      obtain ⟨e, hname, hend⟩ := Option.bind_eq_some_iff.mp hfirst
      obtain ⟨m, hm, rfl, -⟩ := h.nameEnd_first a hname
      have hge := sectionEnd_ge (fun i e he => (questionEnd_ge he).1) hrest
      have hrec := (recordEnd_ge hrecord).1
      split at hend
      · cases hend
        omega
      · cases hend

/-- Behind the answer there is no room for a further record. -/
theorem Parts.wellFormed_iff_record (hans : net16 header 6 = 1) :
    WellFormed (message header question a) ↔ net16 header 8 = 0 ∧ net16 header 10 = 0 ∧
      ∃ i, sectionEnd (questionEnd (message header question a)) (net16 header 4) 12 = some i ∧
        recordEnd (message header question a) i = some (k + 33) := by
  have hlen := h.message_length a
  have hrec : ∀ i e, recordEnd (message header question a) i = some e → i + 11 ≤ e :=
    fun i e he => (recordEnd_ge he).1
  simp only [WellFormed, messageEnd, hlen, show 12 ≤ k + 33 by omega, if_true,
    h.net16_header a (show 4 + 1 < 12 by omega), h.net16_header a (show 6 + 1 < 12 by omega),
    h.net16_header a (show 8 + 1 < 12 by omega), h.net16_header a (show 10 + 1 < 12 by omega),
    hans, sectionEnd_one, Option.bind_eq_bind, Option.bind_eq_some_iff]
  constructor
  · rintro ⟨i₁, hq, i₂, hr, i₃, hauth, hadd⟩
    have hlate := h.recordEnd_late a hq hr
    have hge := sectionEnd_ge hrec hauth
    have hge' := sectionEnd_ge hrec hadd
    have hauth0 : net16 header 8 = 0 := by omega
    have hadd0 : net16 header 10 = 0 := by omega
    rw [hauth0] at hauth
    rw [hadd0] at hadd
    cases hauth
    cases hadd
    exact ⟨hauth0, hadd0, i₁, hq, hr⟩
  · rintro ⟨hauth0, hadd0, i₁, hq, hr⟩
    rw [hauth0, hadd0]
    exact ⟨i₁, hq, k + 33, hr, k + 33, rfl, rfl⟩

/-- No question: the only record starts at the name, and its length field must
cover the rest. -/
theorem Parts.recordEnd_first_iff :
    recordEnd (message header question a) 12 = some (k + 33) ↔
      ∃ m, 1 ≤ m ∧ m ≤ 11 ∧ labelsEnd question = some (k + m) ∧
        net16 (answer a) (m + 3) = 11 - m := by
  have hlen := h.message_length a
  have hdata : ∀ m, net16 (message header question a) (12 + k + m + 8)
      = net16 (answer a) (m + 3) := fun m => h.net16_answer a (by omega)
  constructor
  · intro hrecord
    obtain ⟨e, hname, hend⟩ := Option.bind_eq_some_iff.mp hrecord
    obtain ⟨m, hm, rfl, hlabels⟩ := h.nameEnd_first a hname
    rw [hdata] at hend
    split at hend
    · have hend := Option.some.inj hend
      exact ⟨m, hm, by omega, hlabels (by omega), by omega⟩
    · cases hend
  · rintro ⟨m, hm, hm', hlabels, hfield⟩
    rw [recordEnd, h.nameEnd_of_labelsEnd a hm' hlabels, Option.bind_some, hdata, hfield,
      if_pos (by omega)]
    congr 1
    omega

theorem Parts.no_question_iff :
    recordEnd (message header question a) 12 = some (k + 33) ↔
      (labelsEnd question = some (k + 3) ∧ a.ttl.toNat / 65536 = 8) ∨
      (labelsEnd question = some (k + 4) ∧ a.ttl.toNat / 256 % 65536 = 7) ∨
      (labelsEnd question = some (k + 5) ∧ a.ttl.toNat % 65536 = 6) ∨
      (labelsEnd question = some (k + 10) ∧ net16 (bytes32 a.ipAddr) 1 = 1) := by
  obtain ⟨hn4, hn5, hn6, hn7, hn8, hn9, hn10, hn11, hn13⟩ := Dns.net16_answer a
  obtain ⟨h0, h1, -, h3, -, h5⟩ := Dns.byteAt_answer a
  rw [h.recordEnd_first_iff a]
  constructor
  · rintro ⟨m, hm, hm', hlabels, hfield⟩
    interval_cases m
    case «1» => exact absurd (hn4.symm.trans hfield) (by decide)
    case «2» =>
        have hf : net16 (answer a) 5 = 9 := hfield
        omega
    case «3» => exact Or.inl ⟨hlabels, hn6 ▸ hfield⟩
    case «4» => exact Or.inr (Or.inl ⟨hlabels, hn7 ▸ hfield⟩)
    case «5» => exact Or.inr (Or.inr (Or.inl ⟨hlabels, hn8 ▸ hfield⟩))
    case «6» =>
        have hz := h.byteAt_answer_of_labelsEnd a (by omega) hlabels
        exact absurd (h0.symm.trans hz) (by decide)
    case «7» =>
        have hz := h.byteAt_answer_of_labelsEnd a (j := 1) (by omega) hlabels
        exact absurd (h1.symm.trans hz) (by decide)
    case «8» =>
        have hf : net16 (answer a) 11 = 3 := hfield
        omega
    case «9» =>
        have hz := h.byteAt_answer_of_labelsEnd a (j := 3) (by omega) hlabels
        exact absurd (h3.symm.trans hz) (by decide)
    case «10» => exact Or.inr (Or.inr (Or.inr ⟨hlabels, hn13 ▸ hfield⟩))
    case «11» =>
        have hz := h.byteAt_answer_of_labelsEnd a (j := 5) (by omega) hlabels
        exact absurd (h5.symm.trans hz) (by decide)
  · rintro (⟨hlabels, hfield⟩ | ⟨hlabels, hfield⟩ | ⟨hlabels, hfield⟩ | ⟨hlabels, hfield⟩)
    · exact ⟨3, by omega, by omega, hlabels, hn6.trans hfield⟩
    · exact ⟨4, by omega, by omega, hlabels, hn7.trans hfield⟩
    · exact ⟨5, by omega, by omega, hlabels, hn8.trans hfield⟩
    · exact ⟨10, by omega, by omega, hlabels, hn13.trans hfield⟩

/-- A record that would start at offset `j` of the answer record. -/
theorem Parts.recordEnd_inside {j : Nat}
    (hrecord : recordEnd (message header question a) (12 + k + 5 + j) = some (k + 33)) :
    ∃ i, nameEnd (message header question a) (12 + k + 5 + j) = some (12 + k + 5 + i) ∧
      j < i ∧ i ≤ 6 ∧ net16 (answer a) (i + 8) = 6 - i := by
  obtain ⟨e, hname, hend⟩ := Option.bind_eq_some_iff.mp hrecord
  have hgt := nameWalk_gt hname
  obtain ⟨i, rfl⟩ : ∃ i, e = 12 + k + 5 + i := ⟨e - (12 + k + 5), by omega⟩
  rw [h.net16_answer a (show 12 + k + 5 + i + 8 = 12 + k + 5 + (i + 8) by omega)] at hend
  split at hend
  · have hend := Option.some.inj hend
    exact ⟨i, hname, by omega, by omega, by omega⟩
  · cases hend

/-- The name of the answer record is a pointer to the first name. -/
theorem Parts.nameEnd_answer :
    nameEnd (message header question a) (12 + k + 5) = some (12 + k + 5 + 2) := by
  have hlen := h.message_length a
  have hb₀ : byteAt (message header question a) (12 + k + 5) = 0xc0 :=
    h.byteAt_answer a (show 12 + k + 5 = 12 + k + 5 + 0 by omega)
  have hb₁ : byteAt (message header question a) (12 + k + 5 + 1) = 0x0c :=
    h.byteAt_answer a rfl
  have h192 : (192 : UInt8).toNat = 192 := rfl
  have h12 : (12 : UInt8).toNat = 12 := rfl
  refine nameWalk_pointer (by omega) ?_ ?_ ?_
  · rw [hb₀, h192]
  · rw [hb₀, hb₁, h192, h12]
  · rw [hb₀, hb₁, h192, h12]
    omega

/-- A name that starts at a zero octet of the answer record ends behind it. -/
theorem Parts.nameEnd_root {i j : Nat} (hj : j < 16) (hzero : byteAt (answer a) j = 0)
    (hname : nameEnd (message header question a) (12 + k + 5 + j) = some (12 + k + 5 + i)) :
    i = j + 1 := by
  have hlen := h.message_length a
  have hroot := nameWalk_root (12 + k + 5 + j) 255 (by omega)
    ((h.byteAt_answer a rfl).trans hzero)
  have hend := Option.some.inj (hroot.symm.trans hname)
  omega

/-- A name that comes to a label of the answer record ends behind the label. -/
theorem Parts.nameWalk_past {i j d n start : Nat} (hlabel : (byteAt (answer a) j).toNat = d)
    (hpos : 1 ≤ d) (hlt : d < 64)
    (hwalk : nameWalk (message header question a) start (n + 1) (12 + k + 5 + j)
      = some (12 + k + 5 + i)) : j + 1 + d < i := by
  have hoct : (byteAt (message header question a) (12 + k + 5 + j)).toNat = d := by
    rw [h.byteAt_answer a rfl, hlabel]
  have hgt := nameWalk_label_gt (by omega) (by omega) hwalk
  omega

/-- A record starting inside the answer record ends with it only if it starts
at its beginning or at its fifth byte. -/
theorem Parts.recordEnd_inside_iff {j : Nat} :
    recordEnd (message header question a) (12 + k + 5 + j) = some (k + 33) ↔
      j = 0 ∨ (j = 4 ∧ net16 (bytes32 a.ipAddr) 1 = 1) := by
  obtain ⟨hn4, hn5, hn6, hn7, hn8, hn9, hn10, hn11, hn13⟩ := Dns.net16_answer a
  obtain ⟨-, h1, h2, h3, h4, h5⟩ := Dns.byteAt_answer a
  have hlen := h.message_length a
  constructor
  · intro hrecord
    obtain ⟨i, hname, hji, hi, hfield⟩ := h.recordEnd_inside a hrecord
    have hj : j < 6 := by omega
    interval_cases j
    case «0» => exact Or.inl rfl
    case «1» =>
        have hgt := h.nameWalk_past a (congrArg UInt8.toNat h1) (by decide) (by decide) hname
        have hlow : 1 + 1 + 12 < i := hgt
        omega
    case «2» =>
        obtain rfl := h.nameEnd_root a (by omega) h2 hname
        have hf : net16 (answer a) 11 = 3 := hfield
        omega
    case «3» =>
        -- a label of one octet, and behind it one that is too long
        have hoct : (byteAt (message header question a) (12 + k + 5 + 3)).toNat = 1 := by
          rw [h.byteAt_answer a rfl, h3]
          rfl
        have hstep := nameWalk_label (12 + k + 5 + 3) 255
          (show 12 + k + 5 + 3 < (message header question a).length by omega) (by omega) (by omega)
        rw [hoct] at hstep
        have hgt := h.nameWalk_past a (j := 5) (congrArg UInt8.toNat h5) (by decide) (by decide)
          (hstep.symm.trans hname)
        have hlow : 5 + 1 + 1 < i := hgt
        omega
    case «4» =>
        obtain rfl := h.nameEnd_root a (by omega) h4 hname
        exact Or.inr ⟨rfl, hn13 ▸ hfield⟩
    case «5» =>
        have hgt := h.nameWalk_past a (congrArg UInt8.toNat h5) (by decide) (by decide) hname
        have hlow : 5 + 1 + 1 < i := hgt
        omega
  · rintro (rfl | ⟨rfl, hfield⟩)
    · rw [Nat.add_zero, recordEnd, h.nameEnd_answer a, Option.bind_some,
        h.net16_answer a (show 12 + k + 5 + 2 + 8 = 12 + k + 5 + 10 by omega), hn10,
        if_pos (by omega)]
      exact congrArg some (by omega)
    · have hb : byteAt (message header question a) (12 + k + 5 + 4) = 0 :=
        (h.byteAt_answer a rfl).trans h4
      rw [recordEnd, nameEnd, nameWalk_root _ _ (by omega) hb, Option.bind_some,
        h.net16_answer a (show 12 + k + 5 + 4 + 1 + 8 = 12 + k + 5 + 13 by omega), hn13, hfield,
        if_pos (by omega)]
      exact congrArg some (by omega)

/-- One question: the record starts behind it. -/
theorem Parts.one_question_iff :
    ((questionEnd (message header question a) 12).bind (recordEnd (message header question a))
        = some (k + 33)) ↔
      labelsEnd question = some (k + 1) ∨
      (labelsEnd question = some (k + 5) ∧ net16 (bytes32 a.ipAddr) 1 = 1) := by
  have hlen := h.message_length a
  have hquestion : ∀ {m}, 1 ≤ m → m ≤ 11 → labelsEnd question = some (k + m) →
      questionEnd (message header question a) 12 = some (12 + k + 5 + (m - 1)) := by
    intro m hm hm' hlabels
    rw [questionEnd, h.nameEnd_of_labelsEnd a hm' hlabels, Option.bind_some, if_pos (by omega)]
    exact congrArg some (by omega)
  constructor
  · intro hboth
    obtain ⟨e₁, hq, hrecord⟩ := Option.bind_eq_some_iff.mp hboth
    obtain ⟨e, hname, hend⟩ := Option.bind_eq_some_iff.mp hq
    obtain ⟨m, hm, rfl, hlabels⟩ := h.nameEnd_first a hname
    split at hend
    · cases hend
      rw [show 12 + k + m + 4 = 12 + k + 5 + (m - 1) by omega, h.recordEnd_inside_iff] at hrecord
      rcases hrecord with hj | ⟨hj, hfield⟩
      · obtain rfl : m = 1 := by omega
        exact Or.inl (hlabels (by omega))
      · obtain rfl : m = 5 := by omega
        exact Or.inr ⟨hlabels (by omega), hfield⟩
    · cases hend
  · rintro (hlabels | ⟨hlabels, hfield⟩)
    · rw [hquestion (by omega) (by omega) hlabels, Option.bind_some, h.recordEnd_inside_iff]
      exact Or.inl rfl
    · rw [hquestion (by omega) (by omega) hlabels, Option.bind_some, h.recordEnd_inside_iff]
      exact Or.inr ⟨rfl, hfield⟩

/-- Two questions or more: the body is too short for them and a record. -/
theorem Parts.two_questions {n i : Nat}
    (hquestions : sectionEnd (questionEnd (message header question a)) (n + 2) 12 = some i) :
    recordEnd (message header question a) i ≠ some (k + 33) := by
  intro hrecord
  obtain ⟨e₁, hfirst, hrest⟩ := Option.bind_eq_some_iff.mp hquestions
  obtain ⟨e₂, hsecond, hrest⟩ := Option.bind_eq_some_iff.mp hrest
  have hge := sectionEnd_ge (fun i e he => (questionEnd_ge he).1) hrest
  have hrec := (recordEnd_ge hrecord).1
  have hq₂ := (questionEnd_ge hsecond).1
  obtain ⟨e, hname, hend⟩ := Option.bind_eq_some_iff.mp hfirst
  obtain ⟨m, hm, rfl, -⟩ := h.nameEnd_first a hname
  split at hend
  · cases hend
    obtain rfl : m = 1 := by omega
    obtain ⟨e', hname', hend'⟩ := Option.bind_eq_some_iff.mp hsecond
    rw [show 12 + k + 1 + 4 = 12 + k + 5 by omega, h.nameEnd_answer a] at hname'
    cases hname'
    split at hend'
    · cases hend'
      omega
    · cases hend'
  · cases hend

/-- An answer is a well-formed message exactly when its counts fit. -/
theorem Parts.wellFormed_iff (hans : net16 header 6 = 1) :
    WellFormed (message header question a)
      ↔ CountsFit (net16 header 4) (net16 header 8) (net16 header 10) k question a := by
  rw [h.wellFormed_iff_record a hans, CountsFit]
  refine and_congr_right fun _ => and_congr_right fun _ => ?_
  generalize net16 header 4 = q
  match q with
  | 0 =>
      simp only [sectionEnd, Option.some.injEq, exists_eq_left', h.no_question_iff a]
      simp
  | 1 =>
      rw [← Option.bind_eq_some_iff, sectionEnd_one, h.one_question_iff a]
      simp
  | n + 2 =>
      constructor
      · rintro ⟨i, hq, hrecord⟩
        exact absurd hrecord (h.two_questions a hq)
      · intro hfit
        omega

end Bytes

/-- Where the name is labels of 1 to 63 octets, the counts fit exactly when
there is one question and nothing behind the answer. -/
theorem countsFit_of_labels {ls : List (List UInt8)} {rest : List UInt8} {q auth add : Nat}
    {a : ARecord} (hls : ∀ l ∈ ls, 1 ≤ l.length ∧ l.length < 64) (hn : ls.length < 256) :
    CountsFit q auth add (ls.flatMap labelBytes).length (ls.flatMap labelBytes ++ 0 :: rest) a
      ↔ q = 1 ∧ auth = 0 ∧ add = 0 := by
  have hend : labelsEnd (ls.flatMap labelBytes ++ 0 :: rest)
      = some ((ls.flatMap labelBytes).length + 1) := by
    have hwalk := nameWalk_labels 0 (rest ++ [0xc0, 0x0c, 0, 1, 0, 1]) [] hls hn
    simpa [labelsEnd] using hwalk
  simp only [CountsFit, hend, Option.some.injEq, and_true]
  omega

/-! ## The answers of `xdp_dns` -/

/-- The DNS header of a frame of at least 54 bytes. -/
theorem net16_header_eq {p : List UInt8} {x : Nat} (hx : x + 1 < 12) :
    net16 (slice p 42 12) x = net16 p (42 + x) := by
  rw [net16, byteAt_slice (by omega), byteAt_slice hx]
  rfl

/-- The message in an answer. -/
theorem answerFrame_message (f : Frame) (question : List UInt8) (a : ARecord) :
    (answerFrame f question a).bytes.drop 42
      = message (slice (answerFrame f question a).bytes 42 12) question a := by
  have hbody : (answerFrame f question a).bytes.drop 54 = question ++ answer a :=
    Frame.bytes_drop _
  rw [message, ← hbody, slice]
  have hdrop : (answerFrame f question a).bytes.drop 54
      = ((answerFrame f question a).bytes.drop 42).drop 12 := by
    rw [List.drop_drop]
  rw [hdrop, List.take_append_drop]

/-- The answer keeps the three other counts of the request. -/
theorem answerFrame_counts {p : List UInt8} (hp : 54 ≤ p.length) (question : List UInt8)
    (a : ARecord) :
    net16 (slice (answerFrame (Frame.ofBytes p hp) question a).bytes 42 12) 4 = net16 p 46 ∧
    net16 (slice (answerFrame (Frame.ofBytes p hp) question a).bytes 42 12) 6 = 1 ∧
    net16 (slice (answerFrame (Frame.ofBytes p hp) question a).bytes 42 12) 8 = net16 p 50 ∧
    net16 (slice (answerFrame (Frame.ofBytes p hp) question a).bytes 42 12) 10 = net16 p 52 := by
  refine ⟨?_, ?_, ?_, ?_⟩
  · rw [net16_header_eq (by omega)]
    exact net16_congr (Frame.slice_qCount _)
  · rw [net16_header_eq (by omega)]
    exact net16_of_slice (Frame.slice_ansCount _) (by omega)
  · rw [net16_header_eq (by omega)]
    exact net16_congr (Frame.slice_authCount _)
  · rw [net16_header_eq (by omega)]
    exact net16_congr (Frame.slice_addCount _)

/-- The question behind the resize: the name and its zero byte are kept. -/
theorem resized_parts {adjust : AdjustTail} {p p₂ : List UInt8} {k : Nat} (hp : 54 ≤ p.length)
    (hk : NameEnds p 54 k)
    (hrun : adjust.run (markedPacket p hp) (tailAdjust p (k + 5 : Nat) 16) = some p₂)
    {header : List UInt8} (hheader : header.length = 12) :
    Parts header (slice p₂ 54 (k + 5)) k := by
  obtain ⟨hk255, hin, hz, hnz⟩ := hk
  have hlen := markedPacket_resized_length hp hk255 hrun
  have hmlen := markedPacket_length p hp
  have hbyte : ∀ i, i ≤ k → byteAt (slice p₂ 54 (k + 5)) i = byteAt p (54 + i) := by
    intro i hi
    rw [byteAt_slice (by omega), adjust.keeps hrun _ (by omega) (by omega), ← byteAt_drop,
      markedPacket_drop, byteAt_drop]
  refine ⟨hheader, slice_length (by omega), ?_, ?_⟩
  · rw [hbyte k (Nat.le_refl k)]
    exact hz
  · intro i hi
    rw [hbyte i (by omega)]
    exact hnz i hi

/-- Every answer, whatever the request and the record map, is a well-formed
message exactly when the counts of the request fit the question as it stands
in the resized frame `p₂`. -/
theorem xdpDns_tx_wellFormed_iff (adjust : AdjustTail) (records : RecordMap) (buf : Buf 512)
    (p : List UInt8) :
    ∃ r, xdpDns adjust records buf p = some r ∧ (r.action = .tx →
      ∃ (k : Nat) (a : ARecord) (h : Answers records p k a) (p₂ : List UInt8),
        adjust.run (markedPacket p h.length_ge) (tailAdjust p (k + 5 : Nat) 16) = some p₂ ∧
        (WellFormed (r.packet.drop 42) ↔
          CountsFit (net16 p 46) (net16 p 50) (net16 p 52) k (slice p₂ 54 (k + 5)) a)) := by
  obtain ⟨r, hr, hend⟩ := xdpDns_ends adjust records buf p
  refine ⟨r, hr, fun htx => ?_⟩
  cases hend with
  | marked _ _ => cases htx
  | passed _ => cases htx
  | @sent k a p₂ hans hrun =>
      refine ⟨k, a, hans, p₂, hrun, ?_⟩
      have hheader : (slice (answerFrame (Frame.ofBytes p hans.length_ge)
          (slice p₂ 54 (k + 5)) a).bytes 42 12).length = 12 :=
        slice_length (by rw [Frame.bytes_length]; omega)
      have hparts := resized_parts hans.length_ge hans.2.1 hrun hheader
      obtain ⟨hq, hone, hauth, hadd⟩ :=
        answerFrame_counts hans.length_ge (slice p₂ 54 (k + 5)) a
      have hiff := hparts.wellFormed_iff a hone
      rw [hq, hauth, hadd] at hiff
      rw [answerFrame_message]
      exact hiff

/-- The query for `a` with an `OPT` record, as resolvers send it. -/
def sampleQueryOpt : List UInt8 :=
  sampleQuery.take 53 ++ [1] ++ sampleQuery.drop 54 ++ [0, 0, 41, 0x10, 0, 0, 0, 0, 0, 0, 0]

/-- The answer to it announces an additional record and has none. -/
theorem xdpDns_tx_not_wellFormed :
    ¬ ∀ (adjust : AdjustTail) (records : RecordMap) (buf : Buf 512) (p : List UInt8) (r : XdpResult),
      xdpDns adjust records buf p = some r → r.action = .tx → WellFormed (r.packet.drop 42) := by
  intro hall
  have hrun : (xdpDns (kernelAdjustTail 1518 (by decide)) sampleRecords (Buf.zero 512)
      sampleQueryOpt).map (fun r => (r.action, decide (WellFormed (r.packet.drop 42))))
        = some (.tx, false) := by
    decide +kernel
  obtain ⟨r, hr, hres⟩ := Option.map_eq_some_iff.mp hrun
  obtain ⟨htx, hwf⟩ := Prod.mk.inj hres
  exact of_decide_eq_false hwf (hall _ _ _ _ r hr htx)

end NetProbes.Dns
