/-
# `NetProbes.Lib.OnesComplement` — the Internet checksum of RFC 1071

The one's-complement sum of 16-bit words adds with end-around carry
(`onesAdd`); the checksum is its complement.  Arithmetic modulo `65535` decides
everything but the two representatives of zero, and those are told apart by
whether the plain sum is zero: `OnesRep s n` says that `n` is the one's-complement
representative of the plain sum `s`, and a sum has exactly one.

Byte order does not matter: swapping the bytes of a word multiplies it by
`256` modulo `65535`, so it takes the representative of the sum of the words to
the representative of the sum of the swapped words (`OnesRep.swap`).
-/
import Mathlib

namespace NetProbes.Lib

/-- Addition of 16-bit words with end-around carry. -/
def onesAdd (a b : Nat) : Nat := if a + b < 65536 then a + b else a + b - 65535

/-- The one's-complement sum. -/
def onesSum (ws : List Nat) : Nat := ws.foldl onesAdd 0

/-- The checksum: the complement of the one's-complement sum. -/
def onesChecksum (ws : List Nat) : Nat := 65535 - onesSum ws

/-- The big-endian 16-bit words of a byte string; an odd last byte is padded. -/
def wordsBE : List UInt8 → List Nat
  | [] => []
  | [a] => [256 * a.toNat]
  | a :: b :: rest => (256 * a.toNat + b.toNat) :: wordsBE rest

/-- The little-endian 16-bit words of a byte string. -/
def wordsLE : List UInt8 → List Nat
  | [] => []
  | [a] => [a.toNat]
  | a :: b :: rest => (a.toNat + 256 * b.toNat) :: wordsLE rest

/-! ## Representatives -/

/-- `n` is the one's-complement representative of the plain sum `s`. -/
structure OnesRep (s n : Nat) : Prop where
  le : n ≤ 65535
  modEq : n ≡ s [MOD 65535]
  zero_iff : n = 0 ↔ s = 0

theorem OnesRep.unique {s n n' : Nat} (h : OnesRep s n) (h' : OnesRep s n') : n = n' := by
  have hmod : n % 65535 = n' % 65535 := h.modEq.trans h'.modEq.symm
  have hz : n = 0 ↔ n' = 0 := h.zero_iff.trans h'.zero_iff.symm
  have hn := h.le
  have hn' := h'.le
  omega

theorem OnesRep.add {s n w : Nat} (h : OnesRep s n) (hw : w ≤ 65535) :
    OnesRep (s + w) (onesAdd n w) := by
  have hn := h.le
  have hz := h.zero_iff
  have hmod : n % 65535 = s % 65535 := h.modEq
  unfold onesAdd
  split
  · refine ⟨by omega, ?_, by omega⟩
    exact h.modEq.add_right w
  · refine ⟨by omega, ?_, by omega⟩
    show (n + w - 65535) % 65535 = (s + w) % 65535
    omega

theorem onesRep_foldl :
    ∀ (ws : List Nat) {s n : Nat}, OnesRep s n → (∀ w ∈ ws, w ≤ 65535) →
      OnesRep (s + ws.sum) (ws.foldl onesAdd n)
  | [], s, n, h, _ => by simpa using h
  | w :: ws, s, n, h, hws => by
      have h₁ := h.add (hws w List.mem_cons_self)
      have h₂ := onesRep_foldl ws h₁ fun x hx => hws x (List.mem_cons_of_mem _ hx)
      simpa [Nat.add_assoc] using h₂

theorem onesRep_onesSum {ws : List Nat} (h : ∀ w ∈ ws, w ≤ 65535) :
    OnesRep ws.sum (onesSum ws) := by
  have h₀ : OnesRep 0 0 := ⟨Nat.zero_le _, rfl, Iff.rfl⟩
  have h₁ := onesRep_foldl ws h₀ h
  rwa [Nat.zero_add] at h₁

theorem OnesRep.congr {s s' n : Nat} (h : OnesRep s n) (hmod : s' ≡ s [MOD 65535])
    (hz : s' = 0 ↔ s = 0) : OnesRep s' n :=
  ⟨h.le, h.modEq.trans hmod.symm, h.zero_iff.trans hz.symm⟩

/-- One carry fold suffices below `2 * 65535`. -/
theorem onesRep_fold {a : Nat} (h : a ≤ 131070) : OnesRep a ((a + a / 65536) % 65536) := by
  by_cases ha : a < 65536
  · have hdiv : a / 65536 = 0 := by omega
    rw [hdiv, Nat.add_zero, Nat.mod_eq_of_lt ha]
    exact ⟨by omega, rfl, Iff.rfl⟩
  · have hdiv : a / 65536 = 1 := by omega
    rw [hdiv]
    refine ⟨by omega, ?_, by omega⟩
    show (a + 1) % 65536 % 65535 = a % 65535
    omega

/-- Two carry folds bring any 32-bit sum to its representative. -/
theorem onesRep_fold_twice {s : Nat} (h : s < 4294967296) :
    OnesRep s ((s % 65536 + s / 65536 + (s % 65536 + s / 65536) / 65536) % 65536) := by
  have hle : s % 65536 + s / 65536 ≤ 131070 := by omega
  refine (onesRep_fold hle).congr ?_ (by omega)
  show s % 65535 = (s % 65536 + s / 65536) % 65535
  omega

/-- Words that add up to a sum and its checksum have the one's-complement sum
`0xFFFF`: this is how a receiver verifies. -/
theorem onesSum_with_checksum {ws ws' : List Nat} (h : ∀ w ∈ ws, w ≤ 65535)
    (h' : ∀ w ∈ ws', w ≤ 65535) (hsum : ws'.sum = ws.sum + onesChecksum ws) :
    onesSum ws' = 65535 := by
  have hrep := onesRep_onesSum h
  have hle := hrep.le
  have hzero := hrep.zero_iff
  have hmod : onesSum ws % 65535 = ws.sum % 65535 := hrep.modEq
  have hws' : ws'.sum = ws.sum + (65535 - onesSum ws) := hsum
  refine (onesRep_onesSum h').unique ⟨Nat.le_refl _, ?_, by omega⟩
  show 65535 % 65535 = ws'.sum % 65535
  omega

/-! ## Byte order -/

/-- The bytes of a 16-bit number exchanged. -/
def swapBytes (n : Nat) : Nat := n % 256 * 256 + n / 256

theorem OnesRep.swap {s s' n : Nat} (h : OnesRep s n) (hmod : s' ≡ 256 * s [MOD 65535])
    (hz : s' = 0 ↔ s = 0) : OnesRep s' (swapBytes n) := by
  have hn := h.le
  have hzn := h.zero_iff
  have hnz : swapBytes n = 0 ↔ n = 0 := by unfold swapBytes; omega
  refine ⟨by unfold swapBytes; omega, ?_, hnz.trans (hzn.trans hz.symm)⟩
  have h₁ : swapBytes n ≡ 256 * n [MOD 65535] := by
    show swapBytes n % 65535 = 256 * n % 65535
    unfold swapBytes
    omega
  exact h₁.trans ((h.modEq.mul_left 256).trans hmod.symm)

theorem swapBytes_complement {n : Nat} (h : n ≤ 65535) :
    swapBytes (65535 - n) = 65535 - swapBytes n := by
  unfold swapBytes
  omega

theorem wordsBE_sum_modEq :
    ∀ (bs : List UInt8), 2 ∣ bs.length →
      (wordsBE bs).sum ≡ 256 * (wordsLE bs).sum [MOD 65535]
  | [], _ => rfl
  | [a], h => by simp at h
  | a :: b :: rest, h => by
      have hrest : 2 ∣ rest.length := by simpa using h
      have ih := wordsBE_sum_modEq rest hrest
      simp only [wordsBE, wordsLE, List.sum_cons]
      have hw : 256 * a.toNat + b.toNat ≡ 256 * (a.toNat + 256 * b.toNat) [MOD 65535] := by
        show _ % 65535 = _ % 65535
        omega
      rw [Nat.mul_add]
      exact hw.add ih

theorem wordsBE_sum_eq_zero :
    ∀ (bs : List UInt8), (wordsBE bs).sum = 0 ↔ (wordsLE bs).sum = 0
  | [] => Iff.rfl
  | [a] => by simp [wordsBE, wordsLE]
  | a :: b :: rest => by
      have ih := wordsBE_sum_eq_zero rest
      simp only [wordsBE, wordsLE, List.sum_cons]
      omega

theorem wordsBE_le : ∀ (bs : List UInt8), ∀ w ∈ wordsBE bs, w ≤ 65535
  | [], w, h => absurd h List.not_mem_nil
  | [a], w, h => by
      have ha := a.toNat_lt
      simp only [wordsBE, List.mem_singleton] at h
      omega
  | a :: b :: rest, w, h => by
      have ha := a.toNat_lt
      have hb := b.toNat_lt
      rcases List.mem_cons.mp h with h | h
      · omega
      · exact wordsBE_le rest w h

theorem wordsLE_le : ∀ (bs : List UInt8), ∀ w ∈ wordsLE bs, w ≤ 65535
  | [], w, h => absurd h List.not_mem_nil
  | [a], w, h => by
      have ha := a.toNat_lt
      simp only [wordsLE, List.mem_singleton] at h
      omega
  | a :: b :: rest, w, h => by
      have ha := a.toNat_lt
      have hb := b.toNat_lt
      rcases List.mem_cons.mp h with h | h
      · omega
      · exact wordsLE_le rest w h

/-- The checksum computed over little-endian words, its bytes exchanged, is
the checksum over big-endian words. -/
theorem swapBytes_checksum_of_rep {bs : List UInt8} {n : Nat} (hlen : 2 ∣ bs.length)
    (h : OnesRep (wordsLE bs).sum n) :
    swapBytes (65535 - n) = onesChecksum (wordsBE bs) := by
  have hswap : OnesRep (wordsBE bs).sum (swapBytes n) :=
    h.swap (wordsBE_sum_modEq bs hlen) (wordsBE_sum_eq_zero bs)
  have hsum : OnesRep (wordsBE bs).sum (onesSum (wordsBE bs)) :=
    onesRep_onesSum (wordsBE_le bs)
  rw [swapBytes_complement h.le, hswap.unique hsum]
  rfl

end NetProbes.Lib
