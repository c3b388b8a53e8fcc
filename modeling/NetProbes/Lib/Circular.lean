/-
# `NetProbes.Lib.Circular` — memory that is walked around

Memory of `N` cells addressed by positions that never wrap: position `p` is
cell `p % N`.  Inside a window of `N` positions no two share a cell, so there a
write and a read behave as on a straight line.

    ringRead N mem p n     the `n` cells from position `p` on
    ringWrite N mem p bs   `bs` written from position `p` on

    read what was written            ringRead_ringWrite_self
    read next to it, in one window   ringRead_ringWrite_of_disjoint
    read all around it               ringRead_ringWrite_inside
    read across the end              ringRead_wrap

A stream that is written from position 0 on and read behind stays readable as
long as no more than `N` of it are not read (`HoldsStream`).

Counters of 64 bits that are masked address the same cells where `N` is a power
of two (`mask_toNat`), and their differences are those of the positions
(`pos_sub_toNat`).
-/
import Mathlib

namespace NetProbes.Lib

section Memory

variable {α : Type} {N : Nat} {mem : Nat → α} {p q n m : Nat} {bs : List α}

/-- The `n` cells from position `p` on. -/
def ringRead (N : Nat) (mem : Nat → α) (p n : Nat) : List α :=
  (List.range n).map fun i => mem ((p + i) % N)

/-- `bs` written from position `p` on: a cell is found by how far it is behind
`p`. -/
def ringWrite (N : Nat) (mem : Nat → α) (p : Nat) (bs : List α) : Nat → α :=
  fun j => (bs[(j + (N - p % N)) % N]?).getD (mem j)

/-- The `n` cells from cell `i` on, on a straight line. -/
def lineRead (mem : Nat → α) (i n : Nat) : List α := (List.range n).map fun j => mem (i + j)

@[simp] theorem ringRead_length : (ringRead N mem p n).length = n := by simp [ringRead]

@[simp] theorem lineRead_length : (lineRead mem p n).length = n := by simp [lineRead]

theorem ringRead_add : ringRead N mem p (n + m) = ringRead N mem p n ++ ringRead N mem (p + n) m := by
  simp only [ringRead, List.range_add, List.map_append, List.map_map, Function.comp_def, Nat.add_assoc]

theorem ringRead_mod : ringRead N mem (p % N) n = ringRead N mem p n := by
  simp only [ringRead, Nat.mod_add_mod]

theorem ringWrite_mod : ringWrite N mem (p % N) bs = ringWrite N mem p bs := by
  funext j
  simp only [ringWrite, Nat.mod_mod]

/-- Two memories with the same cells in a range read the same there. -/
theorem ringRead_congr {mem' : Nat → α} (h : ∀ i < n, mem ((p + i) % N) = mem' ((p + i) % N)) :
    ringRead N mem p n = ringRead N mem' p n := by
  refine List.map_congr_left fun i hi => ?_
  exact h i (List.mem_range.mp hi)

/-- How far behind `p` a cell of its window is. -/
theorem distance_eq {i : Nat} (hi : i < N) : ((p + i) % N + (N - p % N)) % N = i := by
  have hp := Nat.mod_lt p (by omega : 0 < N)
  rw [Nat.add_mod, Nat.mod_mod, ← Nat.add_mod]
  have hsum : p + i + (N - p % N) = i + N * (p / N + 1) := by
    have hdiv := Nat.div_add_mod p N
    rw [Nat.mul_add, Nat.mul_one]
    omega
  rw [hsum, Nat.add_mul_mod_self_left, Nat.mod_eq_of_lt hi]

theorem ringWrite_at {i : Nat} (hi : i < N) :
    ringWrite N mem p bs ((p + i) % N) = (bs[i]?).getD (mem ((p + i) % N)) := by
  rw [ringWrite, distance_eq hi]

theorem ringRead_ringWrite_self (h : bs.length ≤ N) :
    ringRead N (ringWrite N mem p bs) p bs.length = bs := by
  apply List.ext_getElem
  · simp
  · intro i hi hi'
    simp only [ringRead, List.getElem_map, List.getElem_range]
    rw [ringWrite_at (by omega), List.getElem?_eq_getElem hi', Option.getD_some]

/-- A read behind the written cells, or in front of them, that does not come
around to them. -/
theorem ringRead_ringWrite_of_disjoint
    (h : p + bs.length ≤ q ∧ q + n ≤ p + N ∨ q + n ≤ p ∧ p + bs.length ≤ q + N) :
    ringRead N (ringWrite N mem p bs) q n = ringRead N mem q n := by
  refine ringRead_congr fun i hi => ?_
  rcases h with ⟨hlow, hhigh⟩ | ⟨hlow, hhigh⟩
  · have hcell : q + i = p + (q + i - p) := by omega
    rw [hcell, ringWrite_at (by omega), List.getElem?_eq_none (by omega), Option.getD_none]
  · have hcell : (q + i) % N = (p + (q + i + N - p)) % N := by
      rw [show p + (q + i + N - p) = q + i + N by omega, Nat.add_mod_right]
    by_cases hempty : bs = []
    · simp [ringWrite, hempty]
    · have hpos := List.length_pos_iff.mpr hempty
      rw [hcell, ringWrite_at (by omega), List.getElem?_eq_none (by omega), Option.getD_none]

/-- A write inside what is read. -/
theorem ringRead_ringWrite_inside {i : Nat} (h : i + bs.length ≤ n) (hn : n ≤ N) :
    ringRead N (ringWrite N mem (p + i) bs) p n
      = (ringRead N mem p n).take i ++ bs ++ (ringRead N mem p n).drop (i + bs.length) := by
  obtain ⟨m, rfl⟩ := Nat.exists_eq_add_of_le h
  have hbefore : (ringRead N mem p (i + bs.length + m)).take i = ringRead N mem p i := by
    rw [Nat.add_assoc, ringRead_add]
    exact List.take_left' ringRead_length
  have hafter : (ringRead N mem p (i + bs.length + m)).drop (i + bs.length)
      = ringRead N mem (p + (i + bs.length)) m := by
    rw [ringRead_add]
    exact List.drop_left' ringRead_length
  rw [hbefore, hafter, ringRead_add, ringRead_add,
    ringRead_ringWrite_of_disjoint (Or.inr ⟨Nat.le_refl _, by omega⟩),
    ringRead_ringWrite_self (by omega),
    ringRead_ringWrite_of_disjoint (Or.inl ⟨by omega, by omega⟩)]

/-- A read that comes to the end of the memory goes on at its start. -/
theorem ringRead_wrap (hN : 0 < N) (hn : n ≤ N) : ringRead N mem p n =
    if p % N + n ≤ N then lineRead mem (p % N) n
    else lineRead mem (p % N) (N - p % N) ++ lineRead mem 0 (n - (N - p % N)) := by
  have hline : ∀ {i m}, i + m ≤ N → ringRead N mem i m = lineRead mem i m := by
    intro i m him
    refine List.map_congr_left fun j hj => ?_
    rw [Nat.mod_eq_of_lt (by have := List.mem_range.mp hj; omega)]
  rw [← ringRead_mod]
  split
  · rename_i h
    exact hline h
  · rename_i h
    have hp : p % N < N := Nat.mod_lt p hN
    rw [show n = (N - p % N) + (n - (N - p % N)) by omega, ringRead_add,
      hline (by omega), show p % N + (N - p % N) = N by omega, ← ringRead_mod (p := N), Nat.mod_self,
      hline (by omega)]
    congr 2
    omega

end Memory

/-! ## A stream through the memory -/

/-- What was written one behind the other, `stream`, is in the memory from
position `t` on. -/
structure HoldsStream {α : Type} (N : Nat) (mem : Nat → α) (stream : List α) (t : Nat) : Prop where
  le : t ≤ stream.length
  room : stream.length ≤ t + N
  held : ringRead N mem t (stream.length - t) = stream.drop t

section Stream

variable {α : Type} {N : Nat} {mem : Nat → α} {stream bs : List α} {t : Nat}

theorem holdsStream_nil : HoldsStream N mem ([] : List α) 0 := ⟨Nat.le_refl _, Nat.zero_le _, rfl⟩

theorem HoldsStream.append (h : HoldsStream N mem stream t)
    (hroom : stream.length + bs.length ≤ t + N) :
    HoldsStream N (ringWrite N mem stream.length bs) (stream ++ bs) t := by
  have hle := h.le
  refine ⟨?_, by rw [List.length_append]; exact hroom, ?_⟩
  · rw [List.length_append]
    exact Nat.le_add_right_of_le hle
  · have hlen : (stream ++ bs).length - t = (stream.length - t) + bs.length := by
      rw [List.length_append]
      omega
    rw [hlen, ringRead_add, ringRead_ringWrite_of_disjoint (Or.inr ⟨by omega, by omega⟩), h.held,
      Nat.add_sub_cancel' hle, ringRead_ringWrite_self (by omega),
      List.drop_append_of_le_length hle]

theorem HoldsStream.read (h : HoldsStream N mem stream t) {p n : Nat} (hp : t ≤ p)
    (hn : p + n ≤ stream.length) : ringRead N mem p n = (stream.drop p).take n := by
  have hsplit : stream.length - t = (p - t) + (n + (stream.length - (p + n))) := by omega
  have hheld := h.held
  rw [hsplit, ringRead_add, ringRead_add, Nat.add_sub_cancel' hp] at hheld
  have hdrop : stream.drop p = (stream.drop t).drop (p - t) := by
    rw [List.drop_drop, Nat.add_sub_cancel' hp]
  rw [hdrop, ← hheld, List.drop_left' ringRead_length, List.take_left' ringRead_length]

theorem HoldsStream.advance (h : HoldsStream N mem stream t) {p : Nat} (hp : t ≤ p)
    (hlen : p ≤ stream.length) : HoldsStream N mem stream p := by
  have hroom := h.room
  refine ⟨hlen, by omega, ?_⟩
  rw [h.read hp (by omega), List.take_of_length_le (by rw [List.length_drop])]

end Stream

/-! ## Counters of 64 bits -/

/-- A masked counter is the cell of its position. -/
theorem mask_toNat {k : Nat} (hk : k < 64) (p : Nat) :
    (UInt64.ofNat p &&& UInt64.ofNat (2 ^ k - 1)).toNat = p % 2 ^ k := by
  have hlt : 2 ^ k < 2 ^ 64 := Nat.pow_lt_pow_right (by decide) hk
  have hpos : 0 < 2 ^ k := Nat.two_pow_pos k
  rw [UInt64.toNat_and, UInt64.toNat_ofNat', UInt64.toNat_ofNat',
    Nat.mod_eq_of_lt (show 2 ^ k - 1 < 2 ^ 64 by omega), Nat.and_two_pow_sub_one_eq_mod,
    Nat.mod_mod_of_dvd p (Nat.pow_dvd_pow 2 (Nat.le_of_lt hk))]

/-- The difference of two counters less than 2^64 apart. -/
theorem pos_sub_toNat {p q : Nat} (hle : q ≤ p) (hlt : p - q < 2 ^ 64) :
    (UInt64.ofNat p - UInt64.ofNat q).toNat = p - q := by
  rw [UInt64.toNat_sub, UInt64.toNat_ofNat', UInt64.toNat_ofNat']
  omega

theorem pos_add (p q : Nat) : UInt64.ofNat p + UInt64.ofNat q = UInt64.ofNat (p + q) :=
  (UInt64.ofNat_add p q).symm

end NetProbes.Lib
