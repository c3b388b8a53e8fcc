/-
# `NetProbes.Dns.Checksum` — `update_ip_checksum` writes the RFC 1071 checksum

The function adds the header's words as the machine loads them, little-endian,
with the checksum word taken as zero, folds the carries twice and stores the
complement, little-endian again.  The result is the checksum of RFC 1071 over
the big-endian words, stored big-endian:

    updateIpChecksum p data (2 n) loc
      = some (overwrite p loc (be16 (onesChecksum (wordsBE header))))

where `header` is the `2 n` bytes from `data` with the word at `loc` cleared.
Up to `131072` bytes the 32-bit accumulator does not overflow.
-/
import NetProbes.Dns.Xdp
import NetProbes.Lib.OnesComplement

namespace NetProbes.Dns

open NetProbes.Lib

/-! ## The folds -/

theorem xor_65535 {n : Nat} (h : n ≤ 65535) : n ^^^ 65535 = 65535 - n := by
  have hx : BitVec.ofNat 16 n ^^^ BitVec.allOnes 16 = ~~~ (BitVec.ofNat 16 n) :=
    BitVec.xor_allOnes
  have hn := congrArg BitVec.toNat hx
  have hmod : n % 65536 = n := Nat.mod_eq_of_lt (by omega)
  simpa [BitVec.toNat_xor, BitVec.toNat_not, hmod] using hn

theorem checksumFold_toNat (accumulator : UInt32) :
    (checksumFold accumulator).toNat
      = 65535 - (accumulator.toNat % 65536 + accumulator.toNat / 65536
          + (accumulator.toNat % 65536 + accumulator.toNat / 65536) / 65536) % 65536 := by
  have hs := accumulator.toNat_lt
  have hand : ∀ n : Nat, n &&& 65535 = n % 65536 := fun n =>
    Nat.and_two_pow_sub_one_eq_mod n 16
  simp only [checksumFold, UInt32.toNat_toUInt16, UInt32.toNat_xor, UInt32.toNat_and,
    UInt32.toNat_add, UInt32.toNat_shiftRight, UInt16.toNat_toUInt32, UInt32.reduceToNat,
    Nat.reduceMod, Nat.shiftRight_eq_div_pow, hand, Nat.reducePow]
  have h₁ : accumulator.toNat / 65536 % 65536 = accumulator.toNat / 65536 := by omega
  have h₂ : (accumulator.toNat % 65536 + accumulator.toNat / 65536) % 4294967296
      = accumulator.toNat % 65536 + accumulator.toNat / 65536 := by omega
  rw [h₁, h₂]
  generalize accumulator.toNat % 65536 + accumulator.toNat / 65536 = a at *
  have h₃ : (a + a / 65536) % 4294967296 % 65536 = (a + a / 65536) % 65536 := by omega
  rw [h₃, xor_65535 (by omega)]
  omega

/-- The bytes of a value in memory are those of the swapped value, most
significant first. -/
theorem bytes16_eq_be16 (v : UInt16) : bytes16 v = be16 (swapBytes v.toNat) := by
  have hv := v.toNat_lt
  have hhigh : (v.toNat % 256 * 256 + v.toNat / 256) / 256 = v.toNat % 256 := by omega
  simp only [bytes16, be16, swapBytes, hhigh, List.cons.injEq, and_true]
  constructor
  · apply UInt8.toNat_inj.mp
    simp only [UInt8.toNat_ofNat']
    omega
  · apply UInt8.toNat_inj.mp
    simp only [UInt8.toNat_ofNat']
    omega

/-! ## The loop -/

/-- The bytes the loop sums: the checksum word reads as zero. -/
def cleared (p : List UInt8) (loc : Nat) : List UInt8 := overwrite p loc [0, 0]

theorem wordsLE_slice_succ {p : List UInt8} {i n : Nat} (h : i + 1 < p.length) :
    wordsLE (slice p i (2 * (n + 1)))
      = ((byteAt p i).toNat + 256 * (byteAt p (i + 1)).toNat)
        :: wordsLE (slice p (i + 2) (2 * n)) := by
  have htwo : 2 * (n + 1) = (2 * n + 1) + 1 := by ring
  rw [htwo, slice_cons (by omega), slice_cons h]
  rfl

/-- The loop adds the words of the cleared header.  Induction on the words
left; `hfit` is what keeps the accumulator from wrapping. -/
theorem checksumLoop_spec {p : List UInt8} {data j : Nat}
    (hloc : data + 2 * j + 2 ≤ p.length) :
    ∀ (n i : Nat) (accumulator : UInt32), data + 2 * i + 2 * n ≤ p.length →
      accumulator.toNat
        + (wordsLE (slice (cleared p (data + 2 * j)) (data + 2 * i) (2 * n))).sum < 4294967296 →
      ∃ r, checksumLoop p data (data + 2 * j) n (2 * i) accumulator = some r ∧
        r.toNat = accumulator.toNat
          + (wordsLE (slice (cleared p (data + 2 * j)) (data + 2 * i) (2 * n))).sum
  | 0, i, accumulator, _, _ => by
      refine ⟨accumulator, rfl, ?_⟩
      simp [slice, wordsLE]
  | n + 1, i, accumulator, hin, hfit => by
      have hlen : (cleared p (data + 2 * j)).length = p.length := overwrite_length hloc
      have hbyte : ∀ m, byteAt (cleared p (data + 2 * j)) m
          = if data + 2 * j ≤ m ∧ m < data + 2 * j + 2 then byteAt [0, 0] (m - (data + 2 * j))
            else byteAt p m := fun m => byteAt_overwrite hloc
      rw [wordsLE_slice_succ (by omega), List.sum_cons] at hfit ⊢
      by_cases hij : i = j
      · -- the checksum word itself
        subst hij
        have hword : (byteAt (cleared p (data + 2 * i)) (data + 2 * i)).toNat
            + 256 * (byteAt (cleared p (data + 2 * i)) (data + 2 * i + 1)).toNat = 0 := by
          rw [hbyte, hbyte, if_pos (by omega), if_pos (by omega)]
          simp [byteAt]
        rw [hword, Nat.zero_add] at hfit ⊢
        obtain ⟨r, hr, hsum⟩ := checksumLoop_spec hloc n (i + 1) accumulator (by omega) hfit
        refine ⟨r, ?_, hsum⟩
        simp only [checksumLoop, if_true, UInt32.add_zero]
        exact hr
      · have hne : ¬ data + 2 * i = data + 2 * j := by omega
        rw [hbyte, hbyte, if_neg (by omega), if_neg (by omega)] at hfit ⊢
        have hload : load16 p (data + 2 * i)
            = some (le16 (byteAt p (data + 2 * i)) (byteAt p (data + 2 * i + 1))) :=
          load16_eq (by omega)
        have hadd : (accumulator
            + (le16 (byteAt p (data + 2 * i)) (byteAt p (data + 2 * i + 1))).toUInt32).toNat
            = accumulator.toNat + ((byteAt p (data + 2 * i)).toNat
                + 256 * (byteAt p (data + 2 * i + 1)).toNat) := by
          rw [UInt32.toNat_add, UInt16.toNat_toUInt32, le16_toNat]
          exact Nat.mod_eq_of_lt (by omega)
        obtain ⟨r, hr, hsum⟩ := checksumLoop_spec hloc n (i + 1) _ (by omega)
          (by rw [hadd, Nat.add_assoc]; exact hfit)
        refine ⟨r, ?_, ?_⟩
        · simp only [checksumLoop, if_neg hne, hload, Option.bind_eq_bind, Option.bind_some]
          exact hr
        · rw [hsum, hadd, Nat.add_assoc]
          rfl

/-- The words of a string of `2 n` bytes sum to at most `65535 n`. -/
theorem wordsLE_sum_le : ∀ (n : Nat) (bs : List UInt8), bs.length = 2 * n →
    (wordsLE bs).sum ≤ 65535 * n
  | 0, bs, h => by
      have : bs = [] := List.eq_nil_of_length_eq_zero (by omega)
      simp [this, wordsLE]
  | n + 1, [], h => by simp at h
  | n + 1, [a], h => by simp at h; omega
  | n + 1, a :: b :: rest, h => by
      have ha := a.toNat_lt
      have hb := b.toNat_lt
      have ih := wordsLE_sum_le n rest (by simp at h; omega)
      simp only [wordsLE, List.sum_cons]
      omega

/-! ## The function -/

/-- `update_ip_checksum` on `2 n` bytes from `data`, the checksum word being
the `j`-th. -/
theorem updateIpChecksum_eq {p : List UInt8} {data n j : Nat} (hj : j < n) (hn : n ≤ 65536)
    (hlen : data + 2 * n ≤ p.length) :
    updateIpChecksum p data (2 * n) (data + 2 * j)
      = some (overwrite p (data + 2 * j)
          (be16 (onesChecksum (wordsBE (slice (cleared p (data + 2 * j)) data (2 * n)))))) := by
  have hloc : data + 2 * j + 2 ≤ p.length := by omega
  have hclen : (cleared p (data + 2 * j)).length = p.length := overwrite_length hloc
  have hslen : (slice (cleared p (data + 2 * j)) data (2 * n)).length = 2 * n :=
    slice_length (by omega)
  have hle := wordsLE_sum_le n _ hslen
  have hs : (wordsLE (slice (cleared p (data + 2 * j)) data (2 * n))).sum < 4294967296 := by
    omega
  obtain ⟨r, hr, hsum⟩ := checksumLoop_spec hloc n 0 0 (by simpa using hlen)
    (by simpa using hs)
  have hrsum : r.toNat = (wordsLE (slice (cleared p (data + 2 * j)) data (2 * n))).sum := by
    simpa using hsum
  have hwords : (2 * n + 1) / 2 = n := by omega
  have hrep := onesRep_fold_twice hs
  have hfold := checksumFold_toNat r
  rw [hrsum] at hfold
  have hswap := swapBytes_checksum_of_rep (by rw [hslen]; exact Nat.dvd_mul_right 2 n) hrep
  have hbytes : bytes16 (checksumFold r)
      = be16 (onesChecksum (wordsBE (slice (cleared p (data + 2 * j)) data (2 * n)))) := by
    rw [bytes16_eq_be16, hfold, hswap]
  simp only [updateIpChecksum, hwords, Option.bind_eq_bind]
  have hr' : checksumLoop p data (data + 2 * j) n 0 0 = some r := by simpa using hr
  rw [hr', Option.bind_some, hbytes]
  exact store_eq (by simpa [be16] using hloc)

/-! ## What a receiver sees -/

/-- Writing a word over a cleared one raises the sum of the words by it. -/
theorem wordsBE_sum_overwrite {w : Nat} (hw : w ≤ 65535) (j : Nat) (bs : List UInt8)
    (h : 2 * j + 2 ≤ bs.length) :
    (wordsBE (overwrite bs (2 * j) (be16 w))).sum
      = (wordsBE (overwrite bs (2 * j) [0, 0])).sum + w := by
  induction j generalizing bs with
  | zero =>
      match bs, h with
      | a :: b :: rest, _ =>
          have hbytes : 256 * (UInt8.ofNat (w / 256)).toNat + (UInt8.ofNat w).toNat = w := by
            simp only [UInt8.toNat_ofNat']
            omega
          show (256 * (UInt8.ofNat (w / 256)).toNat + (UInt8.ofNat w).toNat
              + (wordsBE rest).sum : Nat) = 0 + (wordsBE rest).sum + w
          rw [hbytes, Nat.zero_add, Nat.add_comm]
  | succ j ih =>
      match bs, h with
      | a :: b :: rest, h =>
          have htwo : 2 * (j + 1) = 2 * j + 1 + 1 := by ring
          have hrest : 2 * j + 2 ≤ rest.length := by simp only [List.length_cons] at h; omega
          simp only [htwo, overwrite_cons_succ, wordsBE, List.sum_cons, ih rest hrest,
            Nat.add_assoc]

/-- The two folds over the naturals, where nothing can wrap. -/
def foldTwice (s : Nat) : Nat :=
  let a := s % 65536 + s / 65536
  (a + a / 65536) % 65536

/-- After every number of iterations the accumulator is the plain sum of the
words read so far, the checksum word counting as zero, and it folds as that sum
does: no addition wrapped. -/
def AccumulatorExact (p : List UInt8) (data len loc : Nat) : Prop :=
  ∀ m, 2 * m ≤ len → ∃ r, checksumLoop p data loc m 0 0 = some r ∧
    r.toNat = (wordsLE (slice (cleared p loc) data (2 * m))).sum ∧
    (checksumFold r).toNat = 65535 - foldTwice r.toNat

theorem accumulatorExact {p : List UInt8} {data n j : Nat} (hj : j < n) (hn : n ≤ 65536)
    (hlen : data + 2 * n ≤ p.length) : AccumulatorExact p data (2 * n) (data + 2 * j) := by
  intro m hm
  have hloc : data + 2 * j + 2 ≤ p.length := by omega
  have hclen : (cleared p (data + 2 * j)).length = p.length := overwrite_length hloc
  have hslen : (slice (cleared p (data + 2 * j)) data (2 * m)).length = 2 * m :=
    slice_length (by omega)
  have hle := wordsLE_sum_le m _ hslen
  have hspec := checksumLoop_spec hloc m 0 0 (by omega)
  simp only [Nat.mul_zero, Nat.add_zero, UInt32.toNat_zero, Nat.zero_add] at hspec
  obtain ⟨r, hr, hsum⟩ := hspec (by omega)
  exact ⟨r, hr, hsum, checksumFold_toNat r⟩

/-- A header whose checksum word holds the checksum of the rest verifies. -/
theorem onesSum_header {p : List UInt8} {data n j : Nat} (hj : j < n)
    (hlen : data + 2 * n ≤ p.length) :
    onesSum (wordsBE (slice (overwrite p (data + 2 * j)
      (be16 (onesChecksum (wordsBE (slice (cleared p (data + 2 * j)) data (2 * n)))))) data (2 * n)))
      = 0xFFFF := by
  have hslen : (slice p data (2 * n)).length = 2 * n := slice_length hlen
  refine onesSum_with_checksum (wordsBE_le (slice (cleared p (data + 2 * j)) data (2 * n)))
    (wordsBE_le _) ?_
  rw [slice_overwrite (by rw [be16_length]; omega) hlen, cleared,
    slice_overwrite (by simp only [List.length_cons, List.length_nil]; omega) hlen]
  exact wordsBE_sum_overwrite (Nat.sub_le _ _) j _ (by omega)

/-- `update_ip_checksum` makes the header verify: it changes the checksum word
only, whatever that held, and the one's-complement sum of the header's
big-endian words is then `0xFFFF`. -/
theorem updateIpChecksum_verifies (p : List UInt8) (data len off : Nat) (hlen : 2 ∣ len)
    (hpos : 2 ≤ len) (hmax : len ≤ 131072) (hin : data + len ≤ p.length) (heven : 2 ∣ off)
    (hoff : off < len) :
    AccumulatorExact p data len (data + off) ∧
    ∃ p', updateIpChecksum p data len (data + off) = some p' ∧ p'.length = p.length ∧
      (∀ i, ¬ (data + off ≤ i ∧ i < data + off + 2) → byteAt p' i = byteAt p i) ∧
      onesSum (wordsBE (slice p' data len)) = 0xFFFF ∧
      ∀ a b, updateIpChecksum (overwrite p (data + off) [a, b]) data len (data + off)
        = some p' := by
  obtain ⟨n, rfl⟩ := hlen
  obtain ⟨j, rfl⟩ := heven
  have hj : j < n := by omega
  have hn : n ≤ 65536 := by omega
  have hloc : data + 2 * j + 2 ≤ p.length := by omega
  refine ⟨accumulatorExact hj hn hin, _, updateIpChecksum_eq hj hn hin,
    overwrite_length (by simpa using hloc), ?_, ?_, ?_⟩
  · intro i hi
    rw [byteAt_overwrite (by simpa using hloc), if_neg (by simpa using hi)]
  · exact onesSum_header hj hin
  · intro a b
    have hab : (overwrite p (data + 2 * j) [a, b]).length = p.length := overwrite_length hloc
    have hclear : cleared (overwrite p (data + 2 * j) [a, b]) (data + 2 * j)
        = cleared p (data + 2 * j) := overwrite_same rfl hloc
    rw [updateIpChecksum_eq hj hn (by rw [hab]; exact hin), hclear]
    exact congrArg some (overwrite_same rfl hloc)

/-- The header of a datagram with a stale checksum `0xABCD`. -/
def staleHeader : List UInt8 :=
  [0x45, 0, 0, 0x3c, 0x1c, 0x46, 0x40, 0, 0x40, 0x11, 0xab, 0xcd, 192, 168, 0, 1, 192, 168, 0, 2]

theorem updateIpChecksum_verifies_staleHeader :
    ∃ p', updateIpChecksum staleHeader 0 20 10 = some p' ∧
      onesSum (wordsBE (slice p' 0 20)) = 0xFFFF := by
  obtain ⟨-, p', hp', -, -, hsum, -⟩ := updateIpChecksum_verifies staleHeader 0 20 10 (by decide)
    (by decide) (by decide) (by decide) (by decide) (by decide)
  exact ⟨p', hp', hsum⟩

end NetProbes.Dns
