/-
# `NetProbes.Dns.Question` — which frames carry a question, and its key

`findQuestion` stops at the first check that fails and `parseQuery` at the
first zero byte.  Put together they accept exactly the frames of `IsDnsQuery`
whose name ends within 256 bytes (`NameEnds`), and the key is `questionKey`:

    ∃ k, IsDnsQuery p ∧ NameEnds p 54 k,  length k + 5, key questionKey p 54 k
    or neither, and the frame is passed                    (`findQuestion_cases`)

A question that the frame cuts off after its name still has a key: type and
class are then left at their default `0`, and the length counts the missing
bytes.  What becomes of such a question is decided by the record map.
-/
import NetProbes.Dns.Xdp

namespace NetProbes.Dns

open NetProbes.Lib

/-! ## The name -/

/-- The first zero byte from `start` on is `k ≤ 255` bytes further. -/
def NameEnds (p : List UInt8) (start k : Nat) : Prop :=
  k ≤ 255 ∧ start + k < p.length ∧ byteAt p (start + k) = 0 ∧
    ∀ i, i < k → byteAt p (start + i) ≠ 0

instance decNameEnds (p : List UInt8) (start k : Nat) : Decidable (NameEnds p start k) :=
  inferInstanceAs (Decidable (_ ∧ _ ∧ _ ∧ _))

/-- The key of a question whose name is `k` bytes long. -/
def questionKey (p : List UInt8) (start k : Nat) : DnsQuery where
  recordType :=
    if start + k + 5 ≤ p.length then
      le16 (byteAt p (start + k + 2)) (byteAt p (start + k + 1)) else 0
  cls :=
    if start + k + 5 ≤ p.length then
      le16 (byteAt p (start + k + 4)) (byteAt p (start + k + 3)) else 0
  name := padded 256 (slice p start k)

theorem NameEnds.unique {p : List UInt8} {start k k' : Nat} (h : NameEnds p start k)
    (h' : NameEnds p start k') : k = k' := by
  obtain ⟨-, -, hz, hnz⟩ := h
  obtain ⟨-, -, hz', hnz'⟩ := h'
  rcases Nat.lt_trichotomy k k' with hlt | heq | hgt
  · exact absurd hz (hnz' k hlt)
  · exact heq
  · exact absurd hz' (hnz k' hgt)

theorem NameEnds.slice_ne_zero {p : List UInt8} {start k : Nat} (h : NameEnds p start k) :
    ∀ b ∈ slice p start k, b ≠ 0 := by
  obtain ⟨-, hin, -, hnz⟩ := h
  have hlen : (slice p start k).length = k := slice_length (by omega)
  intro b hb
  obtain ⟨i, hi, rfl⟩ := exists_byteAt_of_mem hb
  rw [byteAt_slice (by omega)]
  exact hnz i (by omega)

/-- A zero byte at the cursor ends the name there. -/
theorem parseQueryLoop_zero {p : List UInt8} {start i n : Nat} {name : Buf 256}
    (hname : name = padded 256 (slice p start i)) (hin : start + i < p.length)
    (hz : byteAt p (start + i) = 0) :
    parseQueryLoop p (n + 1) (start + i) i ⟨0, 0, name⟩
      = some ((i : Int) + 5, questionKey p start i) := by
  have hbound : ¬ start + i + 1 > p.length := by omega
  simp only [parseQueryLoop, if_neg hbound, load8_eq hin, Option.bind_eq_bind, Option.bind_some,
    hz, if_true]
  by_cases hcut : start + i + 5 > p.length
  · have hcut' : ¬ start + i + 5 ≤ p.length := by omega
    simp only [if_pos hcut, questionKey, if_neg hcut', hname]
    rfl
  · have hcut' : start + i + 5 ≤ p.length := by omega
    simp only [if_neg hcut, load16_eq (show start + i + 1 + 2 ≤ p.length by omega),
      load16_eq (show start + i + 3 + 2 ≤ p.length by omega), Option.bind_some, bswap16_le16,
      questionKey, if_pos hcut', hname]
    rfl

/-- The loop from index `i` on, with the bytes before `i` read into the name
and none of them zero.  Induction on the iterations left. -/
theorem parseQueryLoop_spec {p : List UInt8} {start : Nat} :
    ∀ (n i : Nat), i + n = 256 → (i = 0 ∨ start + i ≤ p.length) →
      (∀ j, j < i → byteAt p (start + j) ≠ 0) →
      (∃ k, NameEnds p start k ∧
        parseQueryLoop p n (start + i) i ⟨0, 0, padded 256 (slice p start i)⟩
          = some ((k : Int) + 5, questionKey p start k)) ∨
      ((∀ k, ¬ NameEnds p start k) ∧ ∃ q,
        parseQueryLoop p n (start + i) i ⟨0, 0, padded 256 (slice p start i)⟩ = some (-1, q))
  | 0, i, hi, _, hnz => by
      refine Or.inr ⟨?_, _, rfl⟩
      rintro k ⟨hk, -, hz, -⟩
      exact hnz k (by omega) hz
  | n + 1, i, hi, hin, hnz => by
      by_cases hend : start + i + 1 > p.length
      · refine Or.inr ⟨?_, ⟨0, 0, padded 256 (slice p start i)⟩, ?_⟩
        · rintro k ⟨-, hk, hz, -⟩
          exact hnz k (by omega) hz
        · simp only [parseQueryLoop, if_pos hend]
      · have hlt : start + i < p.length := by omega
        by_cases hz : byteAt p (start + i) = 0
        · exact Or.inl ⟨i, ⟨by omega, hlt, hz, hnz⟩, parseQueryLoop_zero rfl hlt hz⟩
        · -- the byte joins the name and the loop goes on
          have hlen : (slice p start i).length = i := slice_length (by omega)
          have hstore : (padded 256 (slice p start i)).store i [byteAt p (start + i)]
              = some (padded 256 (slice p start (i + 1))) := by
            have hroom : (slice p start i).length + 1 ≤ 256 := by omega
            have h := padded_store hroom (byteAt p (start + i))
            rw [hlen, ← slice_succ hlt] at h
            exact h
          have hstep : parseQueryLoop p (n + 1) (start + i) i ⟨0, 0, padded 256 (slice p start i)⟩
              = parseQueryLoop p n (start + (i + 1)) (i + 1)
                  ⟨0, 0, padded 256 (slice p start (i + 1))⟩ := by
            simp only [parseQueryLoop, if_neg hend, load8_eq hlt, Option.bind_eq_bind,
              Option.bind_some, if_neg hz, hstore]
            rfl
          rw [hstep]
          refine parseQueryLoop_spec n (i + 1) (by omega) (Or.inr (by omega)) ?_
          intro j hj
          rcases Nat.lt_succ_iff_lt_or_eq.mp hj with hj | rfl
          · exact hnz j hj
          · exact hz

/-- `parse_query` finds the first zero byte or fails. -/
theorem parseQuery_cases (p : List UInt8) (start : Nat) :
    (∃ k, NameEnds p start k ∧
      parseQuery p start = some ((k : Int) + 5, questionKey p start k)) ∨
    ((∀ k, ¬ NameEnds p start k) ∧ ∃ q, parseQuery p start = some (-1, q)) := by
  have hnil : slice p start 0 = [] := List.take_zero
  have h := @parseQueryLoop_spec p start 256 0 rfl (Or.inl rfl)
    (fun j hj => absurd hj (Nat.not_lt_zero j))
  rw [hnil, padded_nil] at h
  exact h

/-! ## What a caller may rely on -/

/-- A whole question lies inside the frame: a name of `k ≤ 255` bytes, its zero
byte, type and class. -/
def QuestionInside (p : List UInt8) (start k : Nat) : Prop :=
  NameEnds p start k ∧ start + k + 5 ≤ p.length

/-- `parse_query` returns without touching a byte outside the frame or outside
`q->name`; the length it returns is positive exactly for a question inside the
frame, whose length, name, type and class it then gives, and `-1` otherwise. -/
def ParsesAsSpecified (p : List UInt8) (start : Nat) : Prop :=
  ∃ n q, parseQuery p start = some (n, q) ∧
    (1 ≤ n ↔ ∃ k, QuestionInside p start k) ∧
    (∀ k, QuestionInside p start k →
      n = (k : Int) + 5 ∧ q.name = padded 256 (slice p start k) ∧
        q.recordType.toNat = net16 p (start + k + 1) ∧ q.cls.toNat = net16 p (start + k + 3)) ∧
    ((∀ k, ¬ QuestionInside p start k) → n = -1)

theorem questionKey_recordType {p : List UInt8} {start k : Nat} (h : start + k + 5 ≤ p.length) :
    (questionKey p start k).recordType.toNat = net16 p (start + k + 1) := by
  simp only [questionKey, if_pos h, le16_toNat, net16]
  ring

theorem questionKey_cls {p : List UInt8} {start k : Nat} (h : start + k + 5 ≤ p.length) :
    (questionKey p start k).cls.toNat = net16 p (start + k + 3) := by
  simp only [questionKey, if_pos h, le16_toNat, net16]
  ring

/-- The length and the key that `parse_query` gives to a question inside the
frame are the specified ones. -/
theorem parsesAsSpecified_of_inside {p : List UInt8} {start k : Nat}
    (hparse : parseQuery p start = some ((k : Int) + 5, questionKey p start k))
    (hk : QuestionInside p start k) : ParsesAsSpecified p start := by
  refine ⟨_, _, hparse, ⟨fun _ => ⟨k, hk⟩, fun _ => by omega⟩, ?_, fun hno => absurd hk (hno k)⟩
  intro k' hk'
  obtain rfl := hk'.1.unique hk.1
  exact ⟨rfl, rfl, questionKey_recordType hk.2, questionKey_cls hk.2⟩

/-- `parse_query` does what is specified unless the frame ends between the
name's zero byte and the end of type and class. -/
theorem parseQuery_specified_iff (p : List UInt8) (start : Nat) :
    ParsesAsSpecified p start ↔ ∀ k, NameEnds p start k → start + k + 5 ≤ p.length := by
  rcases parseQuery_cases p start with ⟨k, hk, hparse⟩ | ⟨hno, q, hparse⟩
  · constructor
    · rintro ⟨n, q, hn, hpos, -, -⟩ k' hk'
      obtain ⟨rfl, rfl⟩ := Prod.mk.inj (Option.some.inj (hparse.symm.trans hn))
      -- the length is positive, so some question is inside; its name is this one
      obtain ⟨j, hj⟩ := hpos.mp (by omega)
      obtain rfl := hj.1.unique hk'
      exact hj.2
    · intro h
      exact parsesAsSpecified_of_inside hparse ⟨hk, h k hk⟩
  · constructor
    · intro _ k hk
      exact absurd hk (hno k)
    · intro _
      refine ⟨_, _, hparse, ⟨fun h => by omega, ?_⟩, fun k hk => absurd hk.1 (hno k), fun _ => rfl⟩
      rintro ⟨k, hk⟩
      exact absurd hk.1 (hno k)

/-- The name `a` with nothing behind it: the length `7` reaches four bytes past
the end of the three. -/
theorem parseQuery_cut_after_name : ¬ ParsesAsSpecified [1, 97, 0] 0 := by
  rintro ⟨n, q, hparse, -, -, hfail⟩
  have hseven : (parseQuery [1, 97, 0] 0).map Prod.fst = some 7 := by decide
  rw [hparse] at hseven
  have hno : ∀ k, ¬ QuestionInside [1, 97, 0] 0 k := by
    rintro k ⟨-, hk⟩
    exact absurd hk (by simp)
  rw [hfail hno] at hseven
  simp at hseven

/-! ## The header checks -/

/-- The frame is IPv4, UDP, to port 53, and starts a standard query. -/
def IsDnsQuery (p : List UInt8) : Prop :=
  54 ≤ p.length ∧ byteAt p 12 = 0x08 ∧ byteAt p 13 = 0x00 ∧ byteAt p 23 = 17 ∧
    byteAt p 36 = 0 ∧ byteAt p 37 = 53 ∧ byteAt p 44 < 8

instance decIsDnsQuery (p : List UInt8) : Decidable (IsDnsQuery p) :=
  inferInstanceAs (Decidable (_ ∧ _ ∧ _ ∧ _ ∧ _ ∧ _ ∧ _))

/-- The bits `qr` and `opcode` are zero in the flag bytes below `8`. -/
theorem qr_opcode_zero_iff (b : UInt8) : (b >>> 7 = 0 ∧ (b >>> 3) &&& 0x0f = 0) ↔ b < 8 := by
  have h : ∀ n : Fin 256, ((UInt8.ofNat n.val >>> 7 = 0 ∧ (UInt8.ofNat n.val >>> 3) &&& 0x0f = 0)
      ↔ UInt8.ofNat n.val < 8) := by decide +kernel
  have hb := h ⟨b.toNat, b.toNat_lt⟩
  simpa using hb

/-- `findQuestion` is the header checks followed by `parseQuery`. -/
theorem findQuestion_cases (p : List UInt8) :
    (∃ k, IsDnsQuery p ∧ NameEnds p 54 k ∧
      findQuestion p = some (some ((k : Int) + 5, questionKey p 54 k))) ∨
    ((∀ k, ¬ (IsDnsQuery p ∧ NameEnds p 54 k)) ∧ findQuestion p = some none) := by
  have hproto : bswap16 0x0800 = le16 0x08 0x00 := rfl
  have hport : bswap16 53 = le16 0 53 := rfl
  unfold findQuestion
  by_cases h₁ : 14 + 20 > p.length
  · refine Or.inr ⟨fun k h => ?_, if_pos h₁⟩
    have := h.1.1
    omega
  rw [if_neg h₁, load16_eq (show 12 + 2 ≤ p.length by omega), hproto]
  simp only [Option.bind_eq_bind, Option.bind_some, ne_eq, le16_inj]
  by_cases h₂ : byteAt p 12 = 0x08 ∧ byteAt p (12 + 1) = 0x00
  swap
  · exact Or.inr ⟨fun k h => h₂ ⟨h.1.2.1, h.1.2.2.1⟩, if_pos h₂⟩
  rw [if_neg (not_not.mpr h₂), load8_eq (show 23 < p.length by omega)]
  simp only [Option.bind_some]
  by_cases h₃ : byteAt p 23 = 17
  swap
  · exact Or.inr ⟨fun k h => h₃ h.1.2.2.2.1, if_neg h₃⟩
  rw [if_pos h₃]
  by_cases h₄ : 14 + 20 + 8 > p.length
  · refine Or.inr ⟨fun k h => ?_, if_pos h₄⟩
    have := h.1.1
    omega
  rw [if_neg h₄, load16_eq (show 36 + 2 ≤ p.length by omega), hport]
  simp only [Option.bind_some, le16_inj]
  by_cases h₅ : byteAt p 36 = 0 ∧ byteAt p (36 + 1) = 53
  swap
  · exact Or.inr ⟨fun k h => h₅ ⟨h.1.2.2.2.2.1, h.1.2.2.2.2.2.1⟩, if_neg h₅⟩
  rw [if_pos h₅]
  by_cases h₆ : 14 + 20 + 8 + 12 > p.length
  · refine Or.inr ⟨fun k h => ?_, if_pos h₆⟩
    have := h.1.1
    omega
  rw [if_neg h₆, load8_eq (show 44 < p.length by omega)]
  simp only [Option.bind_some, qr_opcode_zero_iff]
  by_cases h₇ : byteAt p 44 < 8
  swap
  · exact Or.inr ⟨fun k h => h₇ h.1.2.2.2.2.2.2, if_neg h₇⟩
  rw [if_pos h₇]
  have hquery : IsDnsQuery p := ⟨by omega, h₂.1, h₂.2, h₃, h₅.1, h₅.2, h₇⟩
  rcases parseQuery_cases p 54 with ⟨k, hk, hparse⟩ | ⟨hno, q, hparse⟩
  · refine Or.inl ⟨k, hquery, hk, ?_⟩
    have hlen : ¬ (k : Int) + 5 < 1 := by omega
    simp only [hparse, Option.bind_some, if_neg hlen]
  · refine Or.inr ⟨fun k h => hno k h.2, ?_⟩
    simp [hparse]

end NetProbes.Dns
