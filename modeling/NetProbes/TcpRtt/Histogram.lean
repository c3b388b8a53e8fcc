/-
# `NetProbes.TcpRtt.Histogram` — the slots of a histogram and how they are printed

The probe puts a value into the slot `log2l` gives, `print_log2_hist` of
`trace_helpers.c` prints a range before each slot.  The two are computed apart:

    log2l           halves the width four times, `v > 0xFFFF` first, and
                    collects the shifts with `|`
    low, high       (1 << (i + 1)) >> 1 and (1 << (i + 1)) - 1, with 0 -> 1
                    for slot 0

`log2l` is the integer logarithm (`log2l_eq`), so both say the same, and the
round trip time of a segment is counted in the line of its range
(`slots_agree`).

A bar is scaled with a product in 32 bits, and is right exactly where no count
is too large for that (`bars_scaled_iff`).
-/
import NetProbes.TcpRtt.Sequential
import Mathlib.Data.Nat.Log

namespace NetProbes.TcpRtt

open NetProbes.Lib

/-! ## What is printed -/

/-- A bar: the stars, the spaces after them, and the `+`. -/
structure Bar where
  stars : Nat
  spaces : Nat
  plus : Bool
  deriving DecidableEq

/-- One line of a histogram. -/
structure HistRow where
  width : Nat
  low : UInt64
  high : UInt64
  val : UInt32
  bar : Bar
  deriving DecidableEq

/-- A histogram: the two widths in its first line, and the lines. -/
structure Log2Hist where
  indent : Nat
  typeWidth : Nat
  valType : Units
  rows : List HistRow
  deriving DecidableEq

/-- The turns of a loop from 0 to a bound. -/
def turns (bound : Int32) : Nat := bound.toInt.toNat

/-- `print_stars`; `none` where it divides by 0.  The product and the quotient
are unsigned. -/
def printStars (val valMax : UInt32) (width : Int32) : Option Bar :=
  if valMax = 0 then none
  else
    let numStars := ((if val < valMax then val else valMax) * width.toUInt32 / valMax).toInt32
    let numSpaces := width - numStars
    some { stars := turns numStars, spaces := turns numSpaces, plus := val > valMax }

/-- The first loop of `print_log2_hist`: `idx_max` and `val_max`. -/
def scanVals : List UInt32 → Nat → Int → UInt32 → Int × UInt32
  | [], _, idxMax, valMax => (idxMax, valMax)
  | val :: vals, i, idxMax, valMax =>
      scanVals vals (i + 1) (if val > 0 then (i : Int) else idxMax) (if val > valMax then val else valMax)

/-- The range before slot `i`. -/
def rangeOf (i : Nat) : UInt64 × UInt64 :=
  let low := ((1 : UInt64) <<< (i.toUInt64 + 1)) >>> 1
  let high := ((1 : UInt64) <<< (i.toUInt64 + 1)) - 1
  (if low = high then low - 1 else low, high)

/-- The second loop, for `n` rows from `i` on. -/
def printRows (vals : List UInt32) (idxMax : Int) (valMax : UInt32) (stars : Int32) :
    Nat → Nat → Option (List HistRow)
  | 0, _ => some []
  | n + 1, i => do
      let val ← vals[i]?
      let bar ← printStars val valMax stars
      let rows ← printRows vals idxMax valMax stars n (i + 1)
      some ({ width := if idxMax ≤ 32 then 10 else 20, low := (rangeOf i).1, high := (rangeOf i).2,
              val := val, bar := bar } :: rows)

/-- `print_log2_hist`; a histogram without a count has no text.  `none` where it
does not return. -/
def printLog2Hist (vals : List UInt32) (valType : Units) : Option (Option Log2Hist) :=
  let starsMax := 40
  let (idxMax, valMax) := scanVals vals 0 (-1) 0
  if idxMax < 0 then some none
  else
    let stars := if idxMax ≤ 32 then starsMax else starsMax / 2
    (printRows vals idxMax valMax stars (idxMax + 1).toNat 0).map fun rows => some {
      indent := if idxMax ≤ 32 then 5 else 15
      typeWidth := if idxMax ≤ 32 then 19 else 29
      valType := valType
      rows := rows }

/-! ## The ranges -/

/-- The value is in the range before slot `i`. -/
def InRange (i : Nat) (n : Nat) : Prop := (rangeOf i).1.toNat ≤ n ∧ n ≤ (rangeOf i).2.toNat

theorem rangeOf_toNat {i : Nat} (h : i < 63) :
    (rangeOf i).1.toNat = (if i = 0 then 0 else 2 ^ i) ∧ (rangeOf i).2.toNat = 2 ^ (i + 1) - 1 := by
  have hpow : 2 ^ (i + 1) ≤ 2 ^ 63 := Nat.pow_le_pow_right (by decide) h
  have hone : 1 < 2 ^ (i + 1) := Nat.one_lt_two_pow (Nat.succ_ne_zero i)
  have hdouble : 2 ^ (i + 1) = 2 ^ i * 2 := Nat.pow_succ 2 i
  have hindex : (i.toUInt64 + 1).toNat % 64 = i + 1 := by
    rw [UInt64.toNat_add, UInt64.toNat_ofNat', UInt64.toNat_one]
    omega
  have hshift : ((1 : UInt64) <<< (i.toUInt64 + 1)).toNat = 2 ^ (i + 1) := by
    rw [UInt64.toNat_shiftLeft, hindex, UInt64.toNat_one, Nat.one_shiftLeft]
    omega
  have hlow : (((1 : UInt64) <<< (i.toUInt64 + 1)) >>> 1).toNat = 2 ^ i := by
    rw [UInt64.toNat_shiftRight, hshift]
    show 2 ^ (i + 1) >>> 1 = 2 ^ i
    rw [Nat.shiftRight_eq_div_pow]
    omega
  have hhigh : (((1 : UInt64) <<< (i.toUInt64 + 1)) - 1).toNat = 2 ^ (i + 1) - 1 := by
    rw [UInt64.toNat_sub, hshift, UInt64.toNat_one]
    omega
  refine ⟨?_, hhigh⟩
  simp only [rangeOf, ← UInt64.toNat_inj, hlow, hhigh]
  cases i with
  | zero => rfl
  | succ i =>
      have htwo : 2 ≤ 2 ^ (i + 1) := Nat.one_lt_two_pow (Nat.succ_ne_zero i)
      rw [if_neg (by omega), if_neg (Nat.succ_ne_zero i), hlow]

/-- A slot has the values whose logarithm is its number. -/
theorem inRange_iff {i n : Nat} (h : i < 63) : InRange i n ↔ Nat.log 2 n = i := by
  obtain ⟨hlow, hhigh⟩ := rangeOf_toNat h
  have hpos : 0 < 2 ^ (i + 1) := Nat.two_pow_pos _
  rw [InRange, hlow, hhigh]
  cases i with
  | zero =>
      rw [Nat.log_eq_zero_iff]
      simp
  | succ i =>
      rw [if_neg (Nat.succ_ne_zero i), Nat.log_eq_iff (Or.inl (Nat.succ_ne_zero i))]
      omega

/-! ## The loops -/

/-- The first loop keeps the largest value. -/
theorem scanVals_valMax (vals : List UInt32) (i : Nat) (idxMax : Int) (valMax : UInt32) :
    (scanVals vals i idxMax valMax).2 ∈ valMax :: vals ∧
      ∀ val ∈ valMax :: vals, val ≤ (scanVals vals i idxMax valMax).2 := by
  induction vals generalizing i idxMax valMax with
  | nil => simp [scanVals]
  | cons val vals ih =>
      obtain ⟨hmem, hle⟩ := ih (i + 1) (if val > 0 then (i : Int) else idxMax)
        (if val > valMax then val else valMax)
      rw [scanVals]
      by_cases hgt : val > valMax
      · rw [if_pos hgt] at hmem hle ⊢
        refine ⟨List.mem_cons_of_mem _ hmem, List.forall_mem_cons.mpr ⟨?_, hle⟩⟩
        exact UInt32.le_trans (UInt32.le_of_lt hgt) (hle val List.mem_cons_self)
      · rw [if_neg hgt] at hmem hle ⊢
        obtain ⟨hmax, hrest⟩ := List.forall_mem_cons.mp hle
        refine ⟨?_, List.forall_mem_cons.mpr ⟨hmax, List.forall_mem_cons.mpr ⟨?_, hrest⟩⟩⟩
        · rw [List.mem_cons] at hmem ⊢
          exact hmem.imp_right (List.mem_cons_of_mem _)
        · exact UInt32.le_trans (UInt32.not_lt.mp hgt) hmax

/-- And the last index with a count: at least the index of every count, and
one of them or what it was. -/
theorem scanVals_idxMax (vals : List UInt32) (i : Nat) (idxMax : Int) (valMax : UInt32)
    (hidx : idxMax < i) :
    idxMax ≤ (scanVals vals i idxMax valMax).1 ∧
      (scanVals vals i idxMax valMax).1 < i + vals.length ∧
      ∀ (j : Nat) (val : UInt32), vals[j]? = some val → val ≠ 0 →
        (i : Int) + j ≤ (scanVals vals i idxMax valMax).1 := by
  induction vals generalizing i idxMax valMax with
  | nil => simpa [scanVals] using hidx
  | cons val vals ih =>
      have hstep : (if val > 0 then (i : Int) else idxMax) < (i + 1 : Nat) ∧
          idxMax ≤ (if val > 0 then (i : Int) else idxMax) := by
        split <;> omega
      obtain ⟨hge, hlt, hall⟩ := ih (i + 1) _ (if val > valMax then val else valMax) hstep.1
      rw [scanVals]
      refine ⟨Int.le_trans hstep.2 hge, ?_, ?_⟩
      · rw [List.length_cons]
        omega
      · intro j val' hj hne
        cases j with
        | zero =>
            have hval : val = val' := Option.some.inj hj
            have hpos : val > 0 := by
              rw [hval]
              exact UInt32.pos_iff_ne_zero.mpr hne
            rw [if_pos hpos] at hge ⊢
            omega
        | succ j =>
            have hnext := hall j val' hj hne
            omega

/-- The second loop, where the largest value is not 0. -/
theorem printRows_eq (vals : List UInt32) (idxMax : Int) (valMax : UInt32) (stars : Int32)
    (n i : Nat) (hlen : i + n ≤ vals.length) (hmax : valMax ≠ 0) :
    ∃ rows, printRows vals idxMax valMax stars n i = some rows ∧ rows.length = n ∧
      ∀ j < n, ∃ val bar, vals[i + j]? = some val ∧ printStars val valMax stars = some bar ∧
        rows[j]? = some { width := if idxMax ≤ 32 then 10 else 20, low := (rangeOf (i + j)).1,
                          high := (rangeOf (i + j)).2, val := val, bar := bar } := by
  induction n generalizing i with
  | zero => exact ⟨[], rfl, rfl, fun j hj => absurd hj (Nat.not_lt_zero j)⟩
  | succ n ih =>
      obtain ⟨rows, hrows, hrowsLen, hall⟩ := ih (i + 1) (by omega)
      have hval : vals[i]? = some vals[i] := List.getElem?_eq_getElem (by omega)
      obtain ⟨bar, hbar⟩ : ∃ bar, printStars vals[i] valMax stars = some bar := by
        rw [printStars, if_neg hmax]
        exact ⟨_, rfl⟩
      rw [printRows, hval, hrows]
      refine ⟨_, by rw [Option.bind_eq_bind, Option.bind_some, hbar]; rfl, ?_, ?_⟩
      · rw [List.length_cons, hrowsLen]
      · intro j hj
        cases j with
        | zero => exact ⟨_, bar, hval, hbar, rfl⟩
        | succ j =>
            obtain ⟨val, bar', hv, hb, hrow⟩ := hall j (by omega)
            rw [show i + 1 + j = i + (j + 1) by omega] at hv hrow
            exact ⟨val, bar', hv, hb, hrow⟩

/-- The lines of a histogram: line `i` is of slot `i`, and every slot with a
count has its line. -/
structure Shows (slots : Fin 27 → UInt32) (valMax : UInt32) (rows : List HistRow) : Prop where
  length_le : rows.length ≤ 27
  counted : ∀ i : Fin 27, slots i ≠ 0 → i.val < rows.length
  row : ∀ i : Fin 27, i.val < rows.length → ∃ bar, printStars (slots i) valMax 40 = some bar ∧
    rows[i.val]? = some {
      width := 10
      low := (rangeOf i).1
      high := (rangeOf i).2
      val := slots i
      bar := bar }

/-- The largest count. -/
structure IsMax (slots : Fin 27 → UInt32) (valMax : UInt32) : Prop where
  attained : ∃ i, slots i = valMax
  le : ∀ i, slots i ≤ valMax

/-- `print_log2_hist` on the slots of a histogram that has a count. -/
theorem printLog2Hist_slots {slots : Fin 27 → UInt32} (hne : ∃ i, slots i ≠ 0) (units : Units) :
    ∃ hist valMax, printLog2Hist (List.ofFn slots) units = some (some hist) ∧
      IsMax slots valMax ∧ valMax ≠ 0 ∧ Shows slots valMax hist.rows := by
  obtain ⟨i₀, hi₀⟩ := hne
  have hget : ∀ i : Fin 27, (List.ofFn slots)[i.val]? = some (slots i) := by
    intro i
    rw [List.getElem?_ofFn, dif_pos i.2]
  have hlen : (List.ofFn slots).length = 27 := List.length_ofFn
  obtain ⟨-, hlt, hcounted⟩ := scanVals_idxMax (List.ofFn slots) 0 (-1) 0 (by decide)
  obtain ⟨hmem, hmax⟩ := scanVals_valMax (List.ofFn slots) 0 (-1) 0
  obtain ⟨idxMax, valMax, hscan⟩ : ∃ idxMax valMax,
      scanVals (List.ofFn slots) 0 (-1) 0 = (idxMax, valMax) := ⟨_, _, rfl⟩
  rw [hscan] at hlt hcounted hmem hmax
  have hpos : ∀ i : Fin 27, slots i ≠ 0 → (i.val : Int) ≤ idxMax := by
    intro i hi
    have h := hcounted i.val (slots i) (hget i) hi
    omega
  have hle : ∀ i, slots i ≤ valMax :=
    fun i => hmax (slots i) (List.mem_cons_of_mem _ (List.mem_ofFn.mpr ⟨i, rfl⟩))
  have hvalMax : valMax ≠ 0 := by
    intro hzero
    have h := hle i₀
    rw [hzero] at h
    exact hi₀ (UInt32.le_zero_iff.mp h)
  have hidx := hpos i₀ hi₀
  have hbound : 0 + (idxMax + 1).toNat ≤ (List.ofFn slots).length := by omega
  obtain ⟨rows, hrows, hrowsLen, hall⟩ := printRows_eq (List.ofFn slots) idxMax valMax 40
    (idxMax + 1).toNat 0 hbound hvalMax
  have hshows : Shows slots valMax rows := by
    refine ⟨by omega, ?_, ?_⟩
    · intro i hi
      have h := hpos i hi
      omega
    · intro i hi
      obtain ⟨val, bar, hval, hbar, hrow⟩ := hall i.val (by omega)
      rw [Nat.zero_add] at hval hrow
      have hsame : slots i = val := Option.some.inj ((hget i).symm.trans hval)
      rw [if_pos (by omega)] at hrow
      rw [hsame]
      exact ⟨bar, hbar, hrow⟩
  have hattained : ∃ i, slots i = valMax :=
    List.mem_ofFn.mp ((List.mem_cons.mp hmem).resolve_left hvalMax)
  have hnonneg : ¬ idxMax < 0 := by omega
  have hsmall : idxMax ≤ 32 := by omega
  simp only [printLog2Hist, hscan, if_neg hnonneg, if_pos hsmall, hrows, Option.map_some]
  exact ⟨_, valMax, rfl, ⟨hattained, hle⟩, hvalMax, hshows⟩

/-! ## Slots and ranges -/

theorem slotOf_of_lt {v : UInt32} (h : v.toNat < 2 ^ 27) (i : Fin 27) :
    InRange i v.toNat ↔ i = slotOf v := by
  have hlog : Nat.log 2 v.toNat < 27 := Nat.log_lt_of_lt_pow' (by decide) h
  rw [inRange_iff (by omega), Fin.ext_iff, slotOf_val, bucket]
  omega

theorem slotOf_of_le {v : UInt32} (h : 2 ^ 27 ≤ v.toNat) : slotOf v = 26 := by
  have hlog : 27 ≤ Nat.log 2 v.toNat := Nat.le_log_of_pow_le Nat.one_lt_two h
  rw [Fin.ext_iff, slotOf_val]
  exact Nat.min_eq_right (by omega)

theorem inRange_cover (n : Nat) : (∃ i : Fin 27, InRange i n) ↔ n < 2 ^ 27 := by
  constructor
  · rintro ⟨i, hi⟩
    rw [inRange_iff (by omega)] at hi
    exact Nat.lt_pow_of_log_lt Nat.one_lt_two (hi ▸ i.2)
  · intro h
    have hlog : Nat.log 2 n < 27 := Nat.log_lt_of_lt_pow' (by decide) h
    exact ⟨⟨Nat.log 2 n, hlog⟩, (inRange_iff (by omega)).mpr rfl⟩

/-- For the key of the socket's address `tcp_rcv` adds one to the slot with the
round trip time in its range, or the last one for a time that is in none, and to
no other. -/
structure RecordsInRange [HashOrder UInt64] (cfg : Config) (sk : Sock) (hists : HistMap)
    (slot : Fin 27) : Prop where
  index : slot.val = min (Nat.log 2 (sk.rtt cfg)) 26
  counted : ∀ key, key.toNat = sk.group cfg → ∃ hist, (tcpRcv cfg sk hists).lookup key = some hist ∧
    ∀ i, hist.slots i
      = ((hists.lookup key).getD Hist.zero).slots i + if slot = i then 1 else 0
  inRange : sk.rtt cfg < 2 ^ 27 → ∀ i : Fin 27, InRange i (sk.rtt cfg) ↔ i = slot
  last : 2 ^ 27 ≤ sk.rtt cfg → slot = 26

theorem recordsInRange [HashOrder UInt64] {cfg : Config} {sk : Sock} {hists : HistMap}
    (hpass : sk.Passes cfg)
    (hroom : hists.entries.length < 10240 ∨
      ∃ key hist, key.toNat = sk.group cfg ∧ hists.lookup key = some hist) :
    RecordsInRange cfg sk hists (slotOf (srttOf cfg sk)) where
  index := by rw [slotOf_val, srttOf_toNat, bucket]
  counted key hkey := by
    obtain rfl := keyOf_eq_iff.mpr hkey.symm
    have hroom' : hists.entries.length < 10240 ∨
        ∃ hist, hists.lookup (keyOf cfg sk) = some hist := by
      refine hroom.imp_right ?_
      rintro ⟨key, hist, hkey', hlook⟩
      obtain rfl := keyOf_eq_iff.mpr hkey'.symm
      exact ⟨hist, hlook⟩
    rw [tcpRcv_lookup (accepts_iff_passes.mpr hpass) hroom', if_pos rfl]
    exact ⟨_, rfl, Hist.addSample_slots cfg _ _⟩
  inRange h := by
    rw [← srttOf_toNat] at h ⊢
    exact slotOf_of_lt h
  last h := by
    rw [← srttOf_toNat] at h
    exact slotOf_of_le h

/-- The slot of a value and the ranges that are printed say the same. -/
theorem slots_agree [HashOrder UInt64] :
    (∀ v : UInt64, (log2l v).toNat = Nat.log 2 v.toNat) ∧
    (∀ (i j : Fin 27) (n : Nat), InRange i n → InRange j n → i = j) ∧
    (∀ n, (∃ i : Fin 27, InRange i n) ↔ n < 2 ^ 27) ∧
    (∀ (slots : Fin 27 → UInt32) (units : Units), (∃ i, slots i ≠ 0) →
      ∃ hist valMax, printLog2Hist (List.ofFn slots) units = some (some hist) ∧
        Shows slots valMax hist.rows) ∧
    ∀ (cfg : Config) (sk : Sock) (hists : HistMap), sk.Passes cfg →
      (hists.entries.length < 10240 ∨
        ∃ key hist, key.toNat = sk.group cfg ∧ hists.lookup key = some hist) →
      ∃ slot, RecordsInRange cfg sk hists slot := by
  refine ⟨log2l_eq, ?_, inRange_cover, ?_, ?_⟩
  · intro i j n hi hj
    rw [inRange_iff (by omega)] at hi hj
    exact Fin.ext (hi.symm.trans hj)
  · intro slots units hne
    obtain ⟨hist, valMax, hprint, -, -, hshows⟩ := printLog2Hist_slots hne units
    exact ⟨hist, valMax, hprint, hshows⟩
  · intro cfg sk hists hpass hroom
    exact ⟨_, recordsInRange hpass hroom⟩

/-- 800 eighths of a microsecond are in the line from 64 to 127. -/
theorem slots_agree_sampleSock :
    ∃ slot, @RecordsInRange ⟨fun _ => 0⟩ sampleConfig (sampleSock 7 800) HashMap.empty slot ∧
      (sampleSock 7 800).rtt sampleConfig = 100 ∧ slot = 6 ∧ InRange 6 100 := by
  obtain ⟨slot, h⟩ := (@slots_agree ⟨fun _ => 0⟩).2.2.2.2 sampleConfig (sampleSock 7 800)
    HashMap.empty (by decide) (Or.inl (by decide))
  have hin : InRange 6 100 := by
    rw [inRange_iff (by decide)]
    decide +kernel
  have hslot : 6 = slot := by
    obtain ⟨-, -, hrange, -⟩ := h
    exact (hrange (by decide) 6).mp hin
  exact ⟨slot, h, rfl, hslot.symm, hin⟩

/-! ## The bars -/

/-- Up to 40 the signs do not matter. -/
theorem turns_of_le {q : UInt32} (hq : q.toNat ≤ 40) :
    turns q.toInt32 = q.toNat ∧ turns (40 - q.toInt32) = 40 - q.toNat := by
  obtain ⟨n, hn, rfl⟩ : ∃ n, n ≤ 40 ∧ q = UInt32.ofNat n := ⟨q.toNat, hq, UInt32.ofNat_toNat.symm⟩
  have hall : ∀ n ≤ 40, turns (UInt32.ofNat n).toInt32 = (UInt32.ofNat n).toNat ∧
      turns (40 - (UInt32.ofNat n).toInt32) = 40 - (UInt32.ofNat n).toNat := by
    decide
  exact hall n hn

/-- The bar of a count: the product is cut to 32 bits. -/
theorem printStars_eq {val valMax : UInt32} (hle : val ≤ valMax) (hne : valMax ≠ 0) :
    printStars val valMax 40 = some {
      stars := val.toNat * 40 % 2 ^ 32 / valMax.toNat
      spaces := 40 - val.toNat * 40 % 2 ^ 32 / valMax.toNat
      plus := false } := by
  have hmin : (if val < valMax then val else valMax) = val := by
    split
    · rfl
    · rename_i hlt
      exact UInt32.le_antisymm (UInt32.not_lt.mp hlt) hle
  have hq : (val * Int32.toUInt32 40 / valMax).toNat = val.toNat * 40 % 2 ^ 32 / valMax.toNat := by
    rw [UInt32.toNat_div, UInt32.toNat_mul]
    rfl
  have hpos : 0 < valMax.toNat := UInt32.lt_iff_toNat_lt.mp (UInt32.pos_iff_ne_zero.mpr hne)
  have hbound : val.toNat * 40 % 2 ^ 32 / valMax.toNat ≤ 40 := by
    rw [← Nat.lt_succ_iff, Nat.div_lt_iff_lt_mul hpos]
    have h := UInt32.le_iff_toNat_le.mp hle
    have hmod := Nat.mod_le (val.toNat * 40) (2 ^ 32)
    omega
  obtain ⟨hstars, hspaces⟩ := turns_of_le (hq ▸ hbound)
  simp only [printStars, if_neg hne, hmin, hstars, hspaces, hq]
  simp [UInt32.not_lt.mpr hle]

/-- The bars are as long as the largest count asks. -/
structure BarsScaled (valMax : UInt32) (rows : List HistRow) : Prop where
  stars : ∀ row ∈ rows, row.bar.stars = row.val.toNat * 40 / valMax.toNat
  full : ∀ row ∈ rows, row.val = valMax → row.bar.stars = 40
  mono : ∀ row₁ ∈ rows, ∀ row₂ ∈ rows, row₁.val ≤ row₂.val → row₁.bar.stars ≤ row₂.bar.stars
  total : ∀ row ∈ rows, row.bar.stars + row.bar.spaces = 40

theorem BarsScaled.of_stars {valMax : UInt32} {rows : List HistRow} (hmax : valMax ≠ 0)
    (hrows : ∀ row ∈ rows, row.bar.stars = row.val.toNat * 40 / valMax.toNat ∧
      row.bar.stars + row.bar.spaces = 40) : BarsScaled valMax rows where
  stars row hrow := (hrows row hrow).1
  full row hrow hval := by
    have hpos : 0 < valMax.toNat := UInt32.lt_iff_toNat_lt.mp (UInt32.pos_iff_ne_zero.mpr hmax)
    rw [(hrows row hrow).1, hval, Nat.mul_div_cancel_left 40 hpos]
  mono row₁ h₁ row₂ h₂ hle := by
    rw [(hrows row₁ h₁).1, (hrows row₂ h₂).1]
    exact Nat.div_le_div_right (Nat.mul_le_mul_right 40 (UInt32.le_iff_toNat_le.mp hle))
  total row hrow := (hrows row hrow).2

theorem Shows.mem {slots : Fin 27 → UInt32} {valMax : UInt32} {rows : List HistRow}
    (h : Shows slots valMax rows) {row : HistRow} (hrow : row ∈ rows) :
    ∃ i, row.val = slots i ∧ printStars (slots i) valMax 40 = some row.bar := by
  obtain ⟨j, hj, rfl⟩ := List.getElem_of_mem hrow
  obtain ⟨bar, hbar, hget⟩ := h.row ⟨j, Nat.lt_of_lt_of_le hj h.length_le⟩ hj
  rw [List.getElem?_eq_getElem hj, Option.some.injEq] at hget
  rw [hget]
  exact ⟨_, rfl, hbar⟩

theorem IsMax.unique {slots : Fin 27 → UInt32} {a b : UInt32} (ha : IsMax slots a)
    (hb : IsMax slots b) : a = b := by
  obtain ⟨i, hi⟩ := ha.attained
  obtain ⟨j, hj⟩ := hb.attained
  exact UInt32.le_antisymm (hi ▸ hb.le i) (hj ▸ ha.le j)

/-- The bars of a histogram with a count are right exactly where 40 times no
count overflows 32 bits. -/
theorem bars_scaled_iff (slots : Fin 27 → UInt32) (units : Units) (hne : ∃ i, slots i ≠ 0) :
    (∃ hist valMax, printLog2Hist (List.ofFn slots) units = some (some hist) ∧
      IsMax slots valMax ∧ BarsScaled valMax hist.rows) ↔
      ∀ i, (slots i).toNat ≤ 107374182 := by
  obtain ⟨hist, valMax, hprint, hmax, hzero, hshows⟩ := printLog2Hist_slots hne units
  have hpos : 0 < valMax.toNat := UInt32.lt_iff_toNat_lt.mp (UInt32.pos_iff_ne_zero.mpr hzero)
  constructor
  · rintro ⟨hist', valMax', hprint', hmax', hscaled⟩
    obtain rfl : hist = hist' := Option.some.inj (Option.some.inj (hprint.symm.trans hprint'))
    obtain rfl : valMax = valMax' := hmax.unique hmax'
    -- the bar of the largest count is full, so its product is not cut
    obtain ⟨i, hi⟩ := hmax.attained
    obtain ⟨bar, hbar, hrow⟩ := hshows.row i (hshows.counted i (hi ▸ hzero))
    have hfull : bar.stars = 40 := hscaled.full _ (List.mem_of_getElem? hrow) hi
    rw [hi, printStars_eq (UInt32.le_refl valMax) hzero, Option.some.injEq] at hbar
    rw [← hbar] at hfull
    have hwide : 40 * valMax.toNat ≤ valMax.toNat * 40 % 2 ^ 32 :=
      (Nat.le_div_iff_mul_le hpos).mp (Nat.le_of_eq hfull.symm)
    have hlt := Nat.mod_lt (valMax.toNat * 40) (Nat.two_pow_pos 32)
    intro j
    have hj := UInt32.le_iff_toNat_le.mp (hmax.le j)
    omega
  · intro hsmall
    refine ⟨hist, valMax, hprint, hmax, BarsScaled.of_stars hzero ?_⟩
    intro row hrow
    obtain ⟨i, hval, hbar⟩ := hshows.mem hrow
    have hlt : (slots i).toNat * 40 < 2 ^ 32 := by
      have h := hsmall i
      omega
    rw [printStars_eq (hmax.le i) hzero, Option.some.injEq, Nat.mod_eq_of_lt hlt] at hbar
    have hle : (slots i).toNat * 40 / valMax.toNat ≤ 40 := by
      rw [← Nat.lt_succ_iff, Nat.div_lt_iff_lt_mul hpos]
      have h := UInt32.le_iff_toNat_le.mp (hmax.le i)
      omega
    rw [← hbar, hval]
    exact ⟨rfl, Nat.add_sub_cancel' hle⟩

/-- Counts in four slots. -/
def fourSlots : Fin 27 → UInt32 := fun i =>
  if i = 3 then 9 else if i = 4 then 100000000 else if i = 5 then 107374182 else if i = 7 then 1 else 0

theorem bars_scaled_fourSlots : (∃ i, fourSlots i ≠ 0) ∧
    (∃ hist valMax, printLog2Hist (List.ofFn fourSlots) .usecs = some (some hist) ∧
      IsMax fourSlots valMax ∧ BarsScaled valMax hist.rows) ∧
    (printLog2Hist (List.ofFn fourSlots) .usecs).map (Option.map fun hist =>
      hist.rows.map fun row => (row.low, row.val, row.bar.stars))
      = some (some [(0, 0, 0), (2, 0, 0), (4, 0, 0), (8, 9, 0), (16, 100000000, 37),
          (32, 107374182, 40), (64, 0, 0), (128, 1, 0)]) :=
  ⟨⟨3, by decide⟩, (bars_scaled_iff fourSlots .usecs ⟨3, by decide⟩).mpr (by decide +kernel),
    by decide +kernel⟩

/-- One slot with a count. -/
def oneSlot (count : UInt32) : Fin 27 → UInt32 := fun i => if i = 0 then count else 0

/-- The only count of a histogram, with an empty bar. -/
theorem bars_empty_at_max : ¬ ∃ hist valMax,
    printLog2Hist (List.ofFn (oneSlot 107374183)) .usecs = some (some hist) ∧
      IsMax (oneSlot 107374183) valMax ∧ BarsScaled valMax hist.rows := by
  rintro ⟨hist, valMax, hprint, hmax, hscaled⟩
  have hrow : printLog2Hist (List.ofFn (oneSlot 107374183)) .usecs = some (some {
      indent := 5
      typeWidth := 19
      valType := .usecs
      rows := [{ width := 10, low := 0, high := 1, val := 107374183,
                 bar := { stars := 0, spaces := 40, plus := false } }] }) := by
    decide +kernel
  rw [hrow, Option.some.injEq, Option.some.injEq] at hprint
  have hval : (107374183 : UInt32) = valMax :=
    IsMax.unique ⟨⟨0, rfl⟩, by decide⟩ hmax
  rw [← hprint] at hscaled
  exact absurd (hscaled.full _ List.mem_cons_self hval) (by decide)

end NetProbes.TcpRtt
