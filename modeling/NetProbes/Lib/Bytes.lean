/-
# `NetProbes.Lib.Bytes` — byte strings with checked loads and stores

A packet, a message or a buffer is a `List UInt8`.  A load or a store names an
offset and is checked against the length, so that `none` is an access outside
the string; a value of two or four bytes lies in memory little-endian, as on
the machines the programs run on, and `bswap16`/`bswap32` are the conversions
between host and network order there.

    store p i bs = some (overwrite p i bs)      iff   i + |bs| ≤ |p|
    bytes16 (le16 a b) = [a, b]                 (a load then a store moves the bytes)
    bytes16 (bswap16 v) = be16 v                (a swapped store writes big-endian)
-/
import Mathlib

namespace NetProbes.Lib

/-! ## Reading -/

/-- The byte at an offset, `0` past the end. -/
def byteAt (p : List UInt8) (i : Nat) : UInt8 := p.getD i 0

/-- A checked one-byte load. -/
def load8 (p : List UInt8) (i : Nat) : Option UInt8 := p[i]?

/-- The 16-bit value whose bytes in memory are `lo`, `hi`. -/
def le16 (lo hi : UInt8) : UInt16 := UInt16.ofNat (lo.toNat + 256 * hi.toNat)

/-- The 32-bit value whose bytes in memory are `a`, `b`, `c`, `d`. -/
def le32 (a b c d : UInt8) : UInt32 :=
  UInt32.ofNat (a.toNat + 256 * (b.toNat + 256 * (c.toNat + 256 * d.toNat)))

/-- A checked two-byte load. -/
def load16 (p : List UInt8) (i : Nat) : Option UInt16 :=
  match load8 p i, load8 p (i + 1) with
  | some a, some b => some (le16 a b)
  | _, _ => none

/-- A checked four-byte load. -/
def load32 (p : List UInt8) (i : Nat) : Option UInt32 :=
  match load8 p i, load8 p (i + 1), load8 p (i + 2), load8 p (i + 3) with
  | some a, some b, some c, some d => some (le32 a b c d)
  | _, _, _, _ => none

theorem load8_eq {p : List UInt8} {i : Nat} (h : i < p.length) :
    load8 p i = some (byteAt p i) := by
  simp [load8, byteAt, h]

theorem load16_eq {p : List UInt8} {i : Nat} (h : i + 2 ≤ p.length) :
    load16 p i = some (le16 (byteAt p i) (byteAt p (i + 1))) := by
  simp only [load16, load8_eq (show i < p.length by omega),
    load8_eq (show i + 1 < p.length by omega)]

theorem load32_eq {p : List UInt8} {i : Nat} (h : i + 4 ≤ p.length) :
    load32 p i = some (le32 (byteAt p i) (byteAt p (i + 1)) (byteAt p (i + 2))
      (byteAt p (i + 3))) := by
  simp only [load32, load8_eq (show i < p.length by omega),
    load8_eq (show i + 1 < p.length by omega), load8_eq (show i + 2 < p.length by omega),
    load8_eq (show i + 3 < p.length by omega)]

theorem le16_toNat (a b : UInt8) : (le16 a b).toNat = a.toNat + 256 * b.toNat := by
  have ha := a.toNat_lt
  have hb := b.toNat_lt
  simp only [le16, UInt16.toNat_ofNat']
  omega

theorem le32_toNat (a b c d : UInt8) :
    (le32 a b c d).toNat = a.toNat + 256 * (b.toNat + 256 * (c.toNat + 256 * d.toNat)) := by
  have ha := a.toNat_lt
  have hb := b.toNat_lt
  have hc := c.toNat_lt
  have hd := d.toNat_lt
  simp only [le32, UInt32.toNat_ofNat']
  omega

/-! ## Writing -/

/-- The string with `bs` laid over it at an offset. -/
def overwrite (p : List UInt8) (i : Nat) (bs : List UInt8) : List UInt8 :=
  p.take i ++ bs ++ p.drop (i + bs.length)

/-- A checked store of any number of bytes. -/
def store (p : List UInt8) (i : Nat) (bs : List UInt8) : Option (List UInt8) :=
  if i + bs.length ≤ p.length then some (overwrite p i bs) else none

/-- The two bytes of a 16-bit value as they lie in memory. -/
def bytes16 (v : UInt16) : List UInt8 :=
  [UInt8.ofNat v.toNat, UInt8.ofNat (v.toNat / 256)]

/-- The four bytes of a 32-bit value as they lie in memory. -/
def bytes32 (v : UInt32) : List UInt8 :=
  [UInt8.ofNat v.toNat, UInt8.ofNat (v.toNat / 256), UInt8.ofNat (v.toNat / 65536),
    UInt8.ofNat (v.toNat / 16777216)]

theorem store_eq {p : List UInt8} {i : Nat} {bs : List UInt8}
    (h : i + bs.length ≤ p.length) : store p i bs = some (overwrite p i bs) :=
  if_pos h

theorem overwrite_length {p : List UInt8} {i : Nat} {bs : List UInt8}
    (h : i + bs.length ≤ p.length) : (overwrite p i bs).length = p.length := by
  simp only [overwrite, List.length_append, List.length_take, List.length_drop]
  omega

theorem bytes16_le16 (a b : UInt8) : bytes16 (le16 a b) = [a, b] := by
  have ha := a.toNat_lt
  have hb := b.toNat_lt
  simp only [bytes16, le16_toNat, List.cons.injEq, and_true]
  constructor
  · apply UInt8.toNat_inj.mp
    simp only [UInt8.toNat_ofNat']
    omega
  · apply UInt8.toNat_inj.mp
    simp only [UInt8.toNat_ofNat']
    omega

theorem bytes32_le32 (a b c d : UInt8) : bytes32 (le32 a b c d) = [a, b, c, d] := by
  have ha := a.toNat_lt
  have hb := b.toNat_lt
  have hc := c.toNat_lt
  have hd := d.toNat_lt
  simp only [bytes32, le32_toNat, List.cons.injEq, and_true]
  refine ⟨?_, ?_, ?_, ?_⟩ <;> apply UInt8.toNat_inj.mp <;>
    simp only [UInt8.toNat_ofNat'] <;> omega

/-! ## Byte order -/

/-- Exchange of the two bytes of a 16-bit value (`htons` and `ntohs`). -/
def bswap16 (v : UInt16) : UInt16 :=
  le16 (UInt8.ofNat (v.toNat / 256)) (UInt8.ofNat v.toNat)

/-- Reversal of the four bytes of a 32-bit value (`htonl` and `ntohl`). -/
def bswap32 (v : UInt32) : UInt32 :=
  le32 (UInt8.ofNat (v.toNat / 16777216)) (UInt8.ofNat (v.toNat / 65536))
    (UInt8.ofNat (v.toNat / 256)) (UInt8.ofNat v.toNat)

/-- Two bytes, most significant first. -/
def be16 (n : Nat) : List UInt8 := [UInt8.ofNat (n / 256), UInt8.ofNat n]

/-- Four bytes, most significant first. -/
def be32 (n : Nat) : List UInt8 :=
  [UInt8.ofNat (n / 16777216), UInt8.ofNat (n / 65536), UInt8.ofNat (n / 256), UInt8.ofNat n]

theorem bytes16_bswap16 (v : UInt16) : bytes16 (bswap16 v) = be16 v.toNat :=
  bytes16_le16 _ _

theorem bytes32_bswap32 (v : UInt32) : bytes32 (bswap32 v) = be32 v.toNat :=
  bytes32_le32 _ _ _ _

/-- Only the low 16 bits of a number are in its two bytes. -/
theorem be16_ofNat (n : Nat) : be16 (UInt16.ofNat n).toNat = be16 n := by
  simp only [be16, UInt16.toNat_ofNat', List.cons.injEq, and_true]
  constructor
  · apply UInt8.toNat_inj.mp
    simp only [UInt8.toNat_ofNat']
    omega
  · apply UInt8.toNat_inj.mp
    simp only [UInt8.toNat_ofNat']
    omega

theorem bswap16_le16 (a b : UInt8) : bswap16 (le16 a b) = le16 b a := by
  have h := bytes16_le16 a b
  simp only [bytes16, List.cons.injEq, and_true] at h
  rw [bswap16, h.1, h.2]

theorem le16_inj {a b c d : UInt8} : le16 a b = le16 c d ↔ a = c ∧ b = d := by
  constructor
  · intro h
    have hb := congrArg bytes16 h
    simpa [bytes16_le16] using hb
  · rintro ⟨rfl, rfl⟩
    rfl

theorem bswap16_bswap16 (v : UInt16) : bswap16 (bswap16 v) = v := by
  have hv := v.toNat_lt
  have hbytes := bytes16_bswap16 v
  simp only [bytes16, be16, List.cons.injEq, and_true] at hbytes
  apply UInt16.toNat_inj.mp
  rw [bswap16, hbytes.1, hbytes.2, le16_toNat, UInt8.toNat_ofNat', UInt8.toNat_ofNat']
  omega

theorem bswap32_bswap32 (v : UInt32) : bswap32 (bswap32 v) = v := by
  have hv := v.toNat_lt
  have hbytes := bytes32_bswap32 v
  simp only [bytes32, be32, List.cons.injEq, and_true] at hbytes
  apply UInt32.toNat_inj.mp
  rw [bswap32, hbytes.1, hbytes.2.1, hbytes.2.2.1, hbytes.2.2.2, le32_toNat, UInt8.toNat_ofNat',
    UInt8.toNat_ofNat', UInt8.toNat_ofNat', UInt8.toNat_ofNat']
  omega

theorem bswap16_eq_zero_iff {v : UInt16} : bswap16 v = 0 ↔ v = 0 := by
  constructor
  · intro h
    have hv := bswap16_bswap16 v
    rw [h] at hv
    exact hv.symm
  · rintro rfl
    rfl

theorem bswap32_eq_zero_iff {v : UInt32} : bswap32 v = 0 ↔ v = 0 := by
  constructor
  · intro h
    have hv := bswap32_bswap32 v
    rw [h] at hv
    exact hv.symm
  · rintro rfl
    rfl

/-! ## Arrays of a fixed size -/

/-- A byte array of `n` bytes. -/
abbrev Buf (n : Nat) := { l : List UInt8 // l.length = n }

/-- The array of zero bytes. -/
def Buf.zero (n : Nat) : Buf n := ⟨List.replicate n 0, List.length_replicate⟩

/-- A checked store into an array. -/
def Buf.store {n : Nat} (b : Buf n) (i : Nat) (bs : List UInt8) : Option (Buf n) :=
  if h : i + bs.length ≤ n then
    some ⟨overwrite b.1 i bs, by rw [overwrite_length (by rw [b.2]; exact h), b.2]⟩
  else none

theorem Buf.store_eq {n : Nat} {b : Buf n} {i : Nat} {bs : List UInt8} (h : i + bs.length ≤ n) :
    b.store i bs = some ⟨overwrite b.1 i bs, by rw [overwrite_length (by rw [b.2]; exact h), b.2]⟩ :=
  dif_pos h

/-- A string padded with zero bytes to the size of an array. -/
def padded (n : Nat) (bs : List UInt8) : Buf n :=
  ⟨(bs ++ List.replicate n 0).take n, by simp⟩

theorem padded_val {n : Nat} {bs : List UInt8} (h : bs.length ≤ n) :
    (padded n bs).1 = bs ++ List.replicate (n - bs.length) 0 := by
  simp [padded, List.take_append, List.take_of_length_le h]

theorem padded_nil (n : Nat) : padded n [] = Buf.zero n := by
  apply Subtype.ext
  rw [padded_val (Nat.zero_le n)]
  rfl

/-- Storing the next byte of a padded string extends the string. -/
theorem padded_store {n : Nat} {bs : List UInt8} (h : bs.length + 1 ≤ n) (b : UInt8) :
    (padded n bs).store bs.length [b] = some (padded n (bs ++ [b])) := by
  have hrep : n - bs.length = (n - (bs.length + 1)) + 1 := by omega
  have hle : (bs ++ [b]).length ≤ n := by simpa using h
  simp only [Buf.store, List.length_singleton, h, dif_pos, Option.some.injEq]
  apply Subtype.ext
  rw [padded_val hle]
  show overwrite (padded n bs).1 bs.length [b] = _
  rw [padded_val (by omega), overwrite, hrep]
  simp [List.replicate_succ, List.drop_append]

/-- A padded string without zero bytes is found again in front of the padding. -/
theorem takeWhile_padded {n : Nat} {bs : List UInt8} (h : bs.length ≤ n)
    (hnz : ∀ b ∈ bs, b ≠ 0) : (padded n bs).1.takeWhile (· ≠ 0) = bs := by
  have htail : (List.replicate (n - bs.length) (0 : UInt8)).takeWhile (· ≠ 0) = [] := by
    cases n - bs.length with
    | zero => rfl
    | succ m => simp [List.replicate_succ]
  rw [padded_val h, List.takeWhile_append_of_pos (by simpa using hnz), htail, List.append_nil]

theorem padded_inj {n : Nat} {bs bs' : List UInt8} (h : bs.length ≤ n) (h' : bs'.length ≤ n)
    (hnz : ∀ b ∈ bs, b ≠ 0) (hnz' : ∀ b ∈ bs', b ≠ 0)
    (heq : padded n bs = padded n bs') : bs = bs' := by
  rw [← takeWhile_padded h hnz, ← takeWhile_padded h' hnz', heq]

/-! ## A string by its bytes

Equality of byte strings is decided byte by byte (`ext_byteAt`); a slice is a
run of bytes, and an overwritten string is read through `byteAt_overwrite`. -/

/-- The `n` bytes from an offset on. -/
def slice (p : List UInt8) (i n : Nat) : List UInt8 := (p.drop i).take n

theorem slice_length {p : List UInt8} {i n : Nat} (h : i + n ≤ p.length) :
    (slice p i n).length = n := by
  simp only [slice, List.length_take, List.length_drop]
  omega

theorem byteAt_slice {p : List UInt8} {i n j : Nat} (h : j < n) :
    byteAt (slice p i n) j = byteAt p (i + j) := by
  simp [byteAt, slice, List.getD_eq_getElem?_getD, h]

theorem byteAt_append {p q : List UInt8} {i : Nat} :
    byteAt (p ++ q) i = if i < p.length then byteAt p i else byteAt q (i - p.length) := by
  simp only [byteAt, List.getD_eq_getElem?_getD, List.getElem?_append]
  split <;> rfl

theorem byteAt_drop {p : List UInt8} {n i : Nat} : byteAt (p.drop n) i = byteAt p (n + i) := by
  simp [byteAt, List.getD_eq_getElem?_getD]

theorem byteAt_mem {p : List UInt8} {i : Nat} (h : i < p.length) : byteAt p i ∈ p := by
  simp [byteAt, List.getD_eq_getElem?_getD, h]

theorem exists_byteAt_of_mem {p : List UInt8} {b : UInt8} (h : b ∈ p) :
    ∃ i, i < p.length ∧ byteAt p i = b := by
  obtain ⟨i, hi, rfl⟩ := List.mem_iff_getElem.mp h
  exact ⟨i, hi, by simp [byteAt, List.getD_eq_getElem?_getD, hi]⟩

theorem ext_byteAt {p q : List UInt8} (hlen : p.length = q.length)
    (h : ∀ i, i < p.length → byteAt p i = byteAt q i) : p = q := by
  apply List.ext_getElem hlen
  intro i h₁ h₂
  have hi := h i h₁
  simpa [byteAt, h₁, h₂] using hi

theorem slice_succ {p : List UInt8} {i n : Nat} (h : i + n < p.length) :
    slice p i (n + 1) = slice p i n ++ [byteAt p (i + n)] := by
  simp [slice, List.take_add_one, byteAt, h]

theorem slice_cons {p : List UInt8} {i n : Nat} (h : i < p.length) :
    slice p i (n + 1) = byteAt p i :: slice p (i + 1) n := by
  simp only [slice, byteAt]
  rw [List.drop_eq_getElem_cons h, List.take_succ_cons]
  simp [h]

theorem slice_congr {p q : List UInt8} {i n : Nat} (hp : i + n ≤ p.length)
    (hq : i + n ≤ q.length) (h : ∀ j, i ≤ j → j < i + n → byteAt p j = byteAt q j) :
    slice p i n = slice q i n := by
  apply ext_byteAt
  · rw [slice_length hp, slice_length hq]
  · intro j hj
    rw [slice_length hp] at hj
    rw [byteAt_slice hj, byteAt_slice hj]
    exact h (i + j) (by omega) (by omega)

theorem byteAt_overwrite {p bs : List UInt8} {i j : Nat} (h : i + bs.length ≤ p.length) :
    byteAt (overwrite p i bs) j
      = if i ≤ j ∧ j < i + bs.length then byteAt bs (j - i) else byteAt p j := by
  have htake : (p.take i).length = i := by simp only [List.length_take]; omega
  simp only [overwrite, byteAt_append, byteAt_drop, List.length_append, htake]
  by_cases h₁ : j < i
  · have : ¬ (i ≤ j ∧ j < i + bs.length) := by omega
    rw [if_pos (by omega), if_pos h₁, if_neg this]
    simp [byteAt, List.getD_eq_getElem?_getD, h₁]
  · by_cases h₂ : j < i + bs.length
    · rw [if_pos h₂, if_neg h₁, if_pos ⟨by omega, h₂⟩]
    · rw [if_neg h₂, if_neg (by omega)]
      congr 1
      omega

/-! ## Strings made of parts

A string that is a concatenation of parts of known length is read and written
part by part; with `List.append_assoc` these rules compute any access at a
fixed offset. -/

@[simp] theorem Buf.length_val {n : Nat} (b : Buf n) : b.1.length = n := b.2

@[simp] theorem bytes16_length (v : UInt16) : (bytes16 v).length = 2 := rfl

@[simp] theorem bytes32_length (v : UInt32) : (bytes32 v).length = 4 := rfl

@[simp] theorem be16_length (n : Nat) : (be16 n).length = 2 := rfl

@[simp] theorem be32_length (n : Nat) : (be32 n).length = 4 := rfl

theorem overwrite_append_right {a r bs : List UInt8} {i : Nat} (h : a.length ≤ i) :
    overwrite (a ++ r) i bs = a ++ overwrite r (i - a.length) bs := by
  have hdrop : i + bs.length - a.length = i - a.length + bs.length := by omega
  simp only [overwrite, List.take_append, List.drop_append, List.take_of_length_le h,
    List.drop_of_length_le (show a.length ≤ i + bs.length by omega), hdrop, List.nil_append,
    List.append_assoc]

theorem overwrite_append_left {b r bs : List UInt8} (h : b.length = bs.length) :
    overwrite (b ++ r) 0 bs = bs ++ r := by
  simp [overwrite, ← h]

theorem overwrite_cons_zero (b c : UInt8) (r : List UInt8) :
    overwrite (b :: r) 0 [c] = c :: r := rfl

theorem overwrite_cons_succ (b : UInt8) (r bs : List UInt8) (i : Nat) :
    overwrite (b :: r) (i + 1) bs = b :: overwrite r i bs := by
  simp [overwrite, Nat.add_right_comm]

/-- Two stores next to each other are one. -/
theorem overwrite_overwrite {p x y : List UInt8} {i j : Nat} (hj : j = i + x.length)
    (h : i + x.length ≤ p.length) : overwrite (overwrite p i x) j y = overwrite p i (x ++ y) := by
  have htake : (p.take i).length = i := by simp only [List.length_take]; omega
  have hpre : (p.take i ++ x).length = j := by rw [List.length_append, htake, hj]
  have hdrop : j + y.length = (p.take i ++ x).length + y.length := by rw [hpre]
  simp only [overwrite]
  rw [List.take_append_of_le_length hpre.ge, List.take_of_length_le hpre.le, hdrop,
    List.drop_length_add_append, List.drop_drop, List.length_append]
  simp only [List.append_assoc, Nat.add_assoc]

theorem Buf.store_bind {α : Type} {n : Nat} {b : Buf n} {i j : Nat} {x y : List UInt8}
    (hj : j = i + x.length) (h : j + y.length ≤ n) (k : Buf n → Option α) :
    ((b.store i x).bind fun c => (c.store j y).bind k) = (b.store i (x ++ y)).bind k := by
  have hx : i + x.length ≤ n := by omega
  have hxy : i + (x ++ y).length ≤ n := by rw [List.length_append]; omega
  rw [Buf.store_eq hx, Option.bind_some, Buf.store_eq h, Option.bind_some, Buf.store_eq hxy,
    Option.bind_some]
  exact congrArg k (Subtype.ext (overwrite_overwrite hj (by rw [b.2]; exact hx)))

theorem slice_append_right {a r : List UInt8} {i n : Nat} (h : a.length ≤ i) :
    slice (a ++ r) i n = slice r (i - a.length) n := by
  simp [slice, List.drop_append, List.drop_of_length_le h]

theorem slice_append_left {b r : List UInt8} {n : Nat} (h : b.length = n) :
    slice (b ++ r) 0 n = b := by
  simp [slice, ← h]

theorem slice_cons_succ (b : UInt8) (r : List UInt8) (i n : Nat) :
    slice (b :: r) (i + 1) n = slice r i n := rfl

theorem byteAt_append_right {a r : List UInt8} {i : Nat} (h : a.length ≤ i) :
    byteAt (a ++ r) i = byteAt r (i - a.length) := by
  rw [byteAt_append, if_neg (by omega)]

theorem byteAt_cons_zero (b : UInt8) (r : List UInt8) : byteAt (b :: r) 0 = b := rfl

theorem byteAt_cons_succ (b : UInt8) (r : List UInt8) (i : Nat) :
    byteAt (b :: r) (i + 1) = byteAt r i := rfl

/-- The 16-bit value two bytes hold. -/
def Buf.word16 (b : Buf 2) : UInt16 := le16 (byteAt b.1 0) (byteAt b.1 1)

/-- The 32-bit value four bytes hold. -/
def Buf.word32 (b : Buf 4) : UInt32 :=
  le32 (byteAt b.1 0) (byteAt b.1 1) (byteAt b.1 2) (byteAt b.1 3)

theorem bytes16_word16 : ∀ b : Buf 2, bytes16 b.word16 = b.1
  | ⟨[_, _], _⟩ => bytes16_le16 _ _

theorem bytes32_word32 : ∀ b : Buf 4, bytes32 b.word32 = b.1
  | ⟨[_, _, _, _], _⟩ => bytes32_le32 _ _ _ _

theorem load16_of_slice {p : List UInt8} {i : Nat} {b : Buf 2} (hin : i + 2 ≤ p.length)
    (h : slice p i 2 = b.1) : load16 p i = some b.word16 := by
  rw [load16_eq hin, Buf.word16, ← h, byteAt_slice (by omega), byteAt_slice (by omega)]
  rfl

theorem load32_of_slice {p : List UInt8} {i : Nat} {b : Buf 4} (hin : i + 4 ≤ p.length)
    (h : slice p i 4 = b.1) : load32 p i = some b.word32 := by
  rw [load32_eq hin, Buf.word32, ← h, byteAt_slice (by omega), byteAt_slice (by omega),
    byteAt_slice (by omega), byteAt_slice (by omega)]
  rfl

theorem load8_at {a r : List UInt8} {b : UInt8} {i : Nat} (h : i = a.length) :
    load8 (a ++ b :: r) i = some b := by
  simp [load8, h]

theorem store_at {a r : List UInt8} {b c : UInt8} {i : Nat} (h : i = a.length) :
    store (a ++ b :: r) i [c] = some (a ++ c :: r) := by
  have hroom : i + [c].length ≤ (a ++ b :: r).length := by simp [h]
  rw [store_eq hroom, overwrite_append_right h.ge, h, Nat.sub_self, overwrite_cons_zero]

theorem slice_append_slice {p : List UInt8} {i m n : Nat} :
    slice p i m ++ slice p (i + m) n = slice p i (m + n) := by
  simp only [slice, ← List.drop_drop, List.take_add]

theorem slice_overwrite {p bs : List UInt8} {i k n : Nat} (hk : k + bs.length ≤ n)
    (hn : i + n ≤ p.length) :
    slice (overwrite p (i + k) bs) i n = overwrite (slice p i n) k bs := by
  have hslice : (slice p i n).length = n := slice_length hn
  have hlen : (overwrite p (i + k) bs).length = p.length := overwrite_length (by omega)
  have hlen' : (overwrite (slice p i n) k bs).length = n := by
    rw [overwrite_length (by omega), hslice]
  apply ext_byteAt
  · rw [slice_length (by omega), hlen']
  · intro j hj
    rw [slice_length (by omega)] at hj
    rw [byteAt_slice hj, byteAt_overwrite (by omega), byteAt_overwrite (by omega), byteAt_slice hj]
    have hsub : i + j - (i + k) = j - k := by omega
    rw [hsub]
    exact if_congr (by omega) rfl rfl

/-- A second write over the first one's bytes leaves nothing of it. -/
theorem overwrite_same {p x y : List UInt8} {i : Nat} (hxy : x.length = y.length)
    (h : i + x.length ≤ p.length) : overwrite (overwrite p i x) i y = overwrite p i y := by
  have hlen : (overwrite p i x).length = p.length := overwrite_length h
  have hy : i + y.length ≤ p.length := by omega
  apply ext_byteAt
  · rw [overwrite_length (by omega), hlen, overwrite_length hy]
  · intro j _
    rw [byteAt_overwrite (by omega), byteAt_overwrite hy, byteAt_overwrite h, hxy]
    split
    · rfl
    · rfl

/-- The number in two bytes, most significant first. -/
def net16 (p : List UInt8) (i : Nat) : Nat :=
  (byteAt p i).toNat * 256 + (byteAt p (i + 1)).toNat

theorem net16_congr {p q : List UInt8} {i j : Nat} (h : slice p i 2 = slice q j 2) :
    net16 p i = net16 q j := by
  have hread : ∀ (r : List UInt8) (x : Nat), net16 r x
      = (byteAt (slice r x 2) 0).toNat * 256 + (byteAt (slice r x 2) 1).toNat := by
    intro r x
    rw [byteAt_slice (by omega), byteAt_slice (by omega)]
    rfl
  rw [hread p, h, ← hread q]

theorem net16_of_slice {p : List UInt8} {i n : Nat} (h : slice p i 2 = be16 n) (hn : n < 65536) :
    net16 p i = n := by
  have h₀ : byteAt p i = UInt8.ofNat (n / 256) := by
    have hb := byteAt_slice (p := p) (i := i) (n := 2) (j := 0) (by omega)
    rw [h] at hb
    exact hb.symm
  have h₁ : byteAt p (i + 1) = UInt8.ofNat n := by
    have hb := byteAt_slice (p := p) (i := i) (n := 2) (j := 1) (by omega)
    rw [h] at hb
    exact hb.symm
  rw [net16, h₀, h₁, UInt8.toNat_ofNat', UInt8.toNat_ofNat']
  omega

/-! ## Numbers at an offset -/

/-- The 16-bit value at an offset. -/
def u16At (p : List UInt8) (i : Nat) : UInt16 := le16 (byteAt p i) (byteAt p (i + 1))

/-- The 32-bit value at an offset. -/
def u32At (p : List UInt8) (i : Nat) : UInt32 :=
  le32 (byteAt p i) (byteAt p (i + 1)) (byteAt p (i + 2)) (byteAt p (i + 3))

/-- The 64-bit value at an offset. -/
def u64At (p : List UInt8) (i : Nat) : UInt64 :=
  UInt64.ofNat ((u32At p i).toNat + 4294967296 * (u32At p (i + 4)).toNat)

/-- The eight bytes of a 64-bit value as they lie in memory. -/
def bytes64 (v : UInt64) : List UInt8 :=
  bytes32 (UInt32.ofNat v.toNat) ++ bytes32 (UInt32.ofNat (v.toNat / 4294967296))

@[simp] theorem bytes64_length (v : UInt64) : (bytes64 v).length = 8 := rfl

theorem u16At_bytes16 {a r : List UInt8} {i : Nat} (v : UInt16) (h : i = a.length) :
    u16At (a ++ (bytes16 v ++ r)) i = v := by
  have hv := v.toNat_lt
  have h₀ : byteAt (a ++ (bytes16 v ++ r)) i = UInt8.ofNat v.toNat := by
    rw [byteAt_append_right h.ge, h, Nat.sub_self]
    rfl
  have h₁ : byteAt (a ++ (bytes16 v ++ r)) (i + 1) = UInt8.ofNat (v.toNat / 256) := by
    rw [byteAt_append_right (h.ge.trans (Nat.le_add_right i 1)), h, Nat.add_sub_cancel_left]
    rfl
  apply UInt16.toNat_inj.mp
  rw [u16At, h₀, h₁, le16_toNat, UInt8.toNat_ofNat', UInt8.toNat_ofNat']
  omega

theorem u32At_bytes32 {a r : List UInt8} {i : Nat} (v : UInt32) (h : i = a.length) :
    u32At (a ++ (bytes32 v ++ r)) i = v := by
  have hv := v.toNat_lt
  have hbyte : ∀ j, byteAt (a ++ (bytes32 v ++ r)) (i + j) = byteAt (bytes32 v ++ r) j := by
    intro j
    rw [byteAt_append_right (h.ge.trans (Nat.le_add_right i j)), h, Nat.add_sub_cancel_left]
  have h₀ : byteAt (a ++ (bytes32 v ++ r)) i = UInt8.ofNat v.toNat := hbyte 0
  have h₁ : byteAt (a ++ (bytes32 v ++ r)) (i + 1) = UInt8.ofNat (v.toNat / 256) := hbyte 1
  have h₂ : byteAt (a ++ (bytes32 v ++ r)) (i + 2) = UInt8.ofNat (v.toNat / 65536) := hbyte 2
  have h₃ : byteAt (a ++ (bytes32 v ++ r)) (i + 3) = UInt8.ofNat (v.toNat / 16777216) := hbyte 3
  apply UInt32.toNat_inj.mp
  rw [u32At, h₀, h₁, h₂, h₃, le32_toNat, UInt8.toNat_ofNat', UInt8.toNat_ofNat',
    UInt8.toNat_ofNat', UInt8.toNat_ofNat']
  omega

theorem u64At_bytes64 {a r : List UInt8} {i : Nat} (v : UInt64) (h : i = a.length) :
    u64At (a ++ (bytes64 v ++ r)) i = v := by
  have hv := v.toNat_lt
  have hlow : u32At (a ++ (bytes64 v ++ r)) i = UInt32.ofNat v.toNat := by
    rw [bytes64, List.append_assoc]
    exact u32At_bytes32 _ h
  have hhigh : u32At (a ++ (bytes64 v ++ r)) (i + 4)
      = UInt32.ofNat (v.toNat / 4294967296) := by
    rw [bytes64, List.append_assoc, ← List.append_assoc a]
    exact u32At_bytes32 _ (by rw [List.length_append, bytes32_length, h])
  apply UInt64.toNat_inj.mp
  rw [u64At, hlow, hhigh, UInt64.toNat_ofNat', UInt32.toNat_ofNat', UInt32.toNat_ofNat']
  omega

end NetProbes.Lib
