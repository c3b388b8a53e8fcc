/-
# `NetProbes.TcpRtt.Samples` — what a segment counts

The probe reads a socket with 64-bit and 32-bit words; here is what it takes
from it, as numbers:

    accepts    each filter that is set is the socket's own    Sock.Passes
    keyOf      the address the histogram is kept for, or 0    Sock.group
    srttOf     srtt_us / 8, and / 1000 in milliseconds        Sock.rtt
    slotOf     the logarithm, at most 26                      bucket

The statements about the histograms are in the words on the right.
-/
import NetProbes.TcpRtt.Bpf
import Mathlib.Data.Nat.Log

namespace NetProbes.TcpRtt

open NetProbes.Lib

/-- Each filter that is set is the socket's own. -/
@[mk_iff] structure Sock.Passes (cfg : Config) (sk : Sock) : Prop where
  sport : cfg.targSport ≠ 0 → cfg.targSport = sk.inetSport
  dport : cfg.targDport ≠ 0 → cfg.targDport = sk.skcDport
  saddr : cfg.targSaddr ≠ 0 → cfg.targSaddr = sk.inetSaddr
  daddr : cfg.targDaddr ≠ 0 → cfg.targDaddr = sk.skcDaddr

/-- The address whose histogram the segment counts in, 0 if there is one for
all. -/
def Sock.group (cfg : Config) (sk : Sock) : Nat :=
  if cfg.targLaddrHist then sk.inetSaddr.toNat
  else if cfg.targRaddrHist then sk.skcDaddr.toNat
  else 0

/-- The round trip time, of which the kernel keeps eight times the
microseconds. -/
def Sock.rtt (cfg : Config) (sk : Sock) : Nat :=
  if cfg.targMs then sk.srttUs.toNat / 8 / 1000 else sk.srttUs.toNat / 8

/-- The slot of a value. -/
def bucket (n : Nat) : Nat := min (Nat.log 2 n) 26

theorem accepts_iff_passes {cfg : Config} {sk : Sock} : accepts cfg sk = true ↔ sk.Passes cfg := by
  simp only [accepts, Sock.passes_iff, Bool.and_eq_true, Bool.not_eq_true', Bool.and_eq_false_iff,
    decide_eq_false_iff_not, not_not, and_assoc, Decidable.imp_iff_not_or]

instance decPasses (cfg : Config) (sk : Sock) : Decidable (sk.Passes cfg) :=
  decidable_of_iff _ accepts_iff_passes

theorem keyOf_toNat (cfg : Config) (sk : Sock) : (keyOf cfg sk).toNat = sk.group cfg := by
  rw [keyOf, Sock.group]
  split
  · exact UInt32.toNat_toUInt64 _
  · split
    · exact UInt32.toNat_toUInt64 _
    · rfl

theorem keyOf_eq_iff {cfg : Config} {sk : Sock} {k : UInt64} :
    keyOf cfg sk = k ↔ sk.group cfg = k.toNat := by
  rw [← keyOf_toNat, UInt64.toNat_inj]

theorem srttOf_toNat (cfg : Config) (sk : Sock) : (srttOf cfg sk).toNat = sk.rtt cfg := by
  have hshift : (sk.srttUs >>> 3).toNat = sk.srttUs.toNat / 8 := by
    rw [UInt32.toNat_shiftRight, Nat.shiftRight_eq_div_pow]
    rfl
  rw [srttOf, Sock.rtt]
  split
  · rw [UInt32.toNat_div, hshift]
    rfl
  · exact hshift

/-! ## The logarithm -/

/-- One step: below `2^(2k)`, a shift by `k` of what has reached `2^k` leaves
less than `2^k`, and takes `k` from the logarithm. -/
theorem log_stage {v : UInt32} (c m : UInt32) (k : Nat) (hv : v.toNat < 2 ^ (k + k)) (hk : k < 32)
    (hc : c.toNat + 1 = 2 ^ k) (hm : ∀ b, (bit b <<< m).toNat = if b then k else 0) :
    (v >>> (bit (v > c) <<< m)).toNat < 2 ^ k ∧
      Nat.log 2 v.toNat
        = (bit (v > c) <<< m).toNat + Nat.log 2 (v >>> (bit (v > c) <<< m)).toNat := by
  rw [UInt32.toNat_shiftRight, Nat.shiftRight_eq_div_pow, hm]
  by_cases hgt : v > c
  · have hle : 2 ^ k ≤ v.toNat := by
      rw [← hc]
      exact UInt32.lt_iff_toNat_lt.mp hgt
    have hlog : k ≤ Nat.log 2 v.toNat := Nat.le_log_of_pow_le Nat.one_lt_two hle
    rw [if_pos (decide_eq_true hgt), Nat.mod_eq_of_lt hk, Nat.log_div_base_pow]
    refine ⟨?_, (Nat.add_sub_cancel' hlog).symm⟩
    rw [Nat.div_lt_iff_lt_mul (Nat.two_pow_pos k), ← Nat.pow_add]
    exact hv
  · have hlt : v.toNat < 2 ^ k := by
      rw [← hc]
      exact Nat.lt_succ_iff.mpr (Nat.le_of_not_lt fun h => hgt (UInt32.lt_iff_toNat_lt.mpr h))
    simpa [hgt] using hlt

/-- The shifts are different powers of two, so that `|` adds them. -/
theorem or_shifts_toNat (b₁ b₂ b₃ b₄ b₅ : Bool) :
    (bit b₁ <<< 4 ||| bit b₂ <<< 3 ||| bit b₃ <<< 2 ||| bit b₄ <<< 1 ||| bit b₅).toUInt64.toNat
      = (bit b₁ <<< 4).toNat + (bit b₂ <<< 3).toNat + (bit b₃ <<< 2).toNat + (bit b₄ <<< 1).toNat
        + (bit b₅).toNat := by
  revert b₁ b₂ b₃ b₄ b₅
  decide

/-- What is left at the end is less than 4. -/
theorem log_last {v : UInt32} (hv : v.toNat < 4) :
    v >>> 1 = bit (v > 1) ∧ Nat.log 2 v.toNat = (bit (v > 1)).toNat := by
  obtain ⟨n, hn, rfl⟩ : ∃ n, n < 4 ∧ v = UInt32.ofNat n := ⟨v.toNat, hv, (UInt32.ofNat_toNat).symm⟩
  have hall : ∀ n < 4, UInt32.ofNat n >>> 1 = bit (UInt32.ofNat n > 1) ∧
      Nat.log 2 (UInt32.ofNat n).toNat = (bit (UInt32.ofNat n > 1)).toNat := by
    decide
  exact hall n hn

theorem log2_eq (v : UInt32) : (log2 v).toNat = Nat.log 2 v.toNat := by
  obtain ⟨hlt₁, hlog₁⟩ := log_stage 0xFFFF 4 16 v.toNat_lt (by decide) rfl (by decide)
  obtain ⟨hlt₂, hlog₂⟩ := log_stage 0xFF 3 8 hlt₁ (by decide) rfl (by decide)
  obtain ⟨hlt₃, hlog₃⟩ := log_stage 0xF 2 4 hlt₂ (by decide) rfl (by decide)
  obtain ⟨hlt₄, hlog₄⟩ := log_stage 0x3 1 2 hlt₃ (by decide) rfl (by decide)
  obtain ⟨hbit, hlog₅⟩ := log_last hlt₄
  simp only [log2]
  rw [hbit, or_shifts_toNat, hlog₁, hlog₂, hlog₃, hlog₄, hlog₅]
  omega

theorem log2l_eq (v : UInt64) : (log2l v).toNat = Nat.log 2 v.toNat := by
  have hv := v.toNat_lt
  have hhi : (v >>> 32).toUInt32.toNat = v.toNat / 2 ^ 32 := by
    rw [UInt64.toNat_toUInt32, UInt64.toNat_shiftRight, Nat.shiftRight_eq_div_pow]
    show v.toNat / 2 ^ 32 % 2 ^ 32 = v.toNat / 2 ^ 32
    omega
  rw [log2l]
  split
  · rename_i hne
    have hle : 2 ^ 32 ≤ v.toNat := by
      by_contra hlt
      apply hne
      rw [← UInt32.toNat_inj, hhi]
      exact Nat.div_eq_of_lt (Nat.lt_of_not_le hlt)
    have hlog : 32 ≤ Nat.log 2 v.toNat := Nat.le_log_of_pow_le Nat.one_lt_two hle
    have hlt : Nat.log 2 v.toNat < 64 := Nat.log_lt_of_lt_pow (by omega) hv
    rw [UInt64.toNat_add, log2_eq, hhi, Nat.log_div_base_pow]
    show (Nat.log 2 v.toNat - 32 + 32) % 2 ^ 64 = Nat.log 2 v.toNat
    omega
  · rename_i hzero
    have hlt : v.toNat < 2 ^ 32 := by
      have hdiv : v.toNat / 2 ^ 32 = 0 := by
        rw [← hhi, not_not.mp hzero, UInt32.toNat_zero]
      omega
    rw [log2_eq, UInt64.toNat_toUInt32, Nat.mod_eq_of_lt hlt]

theorem slotOf_val (v : UInt32) : (slotOf v).val = bucket v.toNat := by
  have hlog : (log2l v.toUInt64).toNat = Nat.log 2 v.toNat := by
    rw [log2l_eq, UInt32.toNat_toUInt64]
  rw [slotOf, bucket]
  simp only [ge_iff_le, UInt64.le_iff_toNat_le, hlog]
  split
  · rename_i hle
    exact (Nat.min_eq_right (Nat.le_of_succ_le hle)).symm
  · rename_i hlt
    exact (Nat.min_eq_left (Nat.le_of_lt_succ (Nat.lt_of_not_le hlt))).symm

end NetProbes.TcpRtt
