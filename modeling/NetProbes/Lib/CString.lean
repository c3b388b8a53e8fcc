/-
# `NetProbes.Lib.CString` — numbers and addresses in C strings

A C string is the list of its bytes before the terminator, and a pointer into
it is the rest of the string from there on.  The functions below are those of
the C library the command lines go through:

    strtol s        value and rest, base 10; the rest is `s` itself when no
                    digit was found
    atoi s          the value of `strtol` as an `int`
    strtoul s       value, base 10, and whether `errno` says `ERANGE`
    inetAton s      `a.b.c.d`, `a.b.c`, `a.b` or `a`, each part decimal, octal
                    (`0…`) or hexadecimal (`0x…`); `none` where it returns 0

A numeral that is digits and nothing else (`decimal`) has the value it shows.
In front of any text `strtol` reads a `Numeral` or nothing (`strtol_cases`), and
it reads the same numeral whatever follows its digits (`strtol_numeral`).
-/
import NetProbes.Lib.Bytes

namespace NetProbes.Lib

/-! ## Characters -/

/-- The bytes of a string of ASCII characters. -/
def cstr (s : List Char) : List UInt8 := s.map Char.toUInt8

/-- `isspace` in the C locale. -/
def isSpace (c : UInt8) : Bool := c == 32 || (9 ≤ c && c ≤ 13)

/-- `isdigit`. -/
def isDigit (c : UInt8) : Bool := 48 ≤ c && c ≤ 57

/-- The value of a digit or letter as a digit of some base. -/
def digitVal (c : UInt8) : Option Nat :=
  if 48 ≤ c ∧ c ≤ 57 then some (c.toNat - 48)
  else if 97 ≤ c ∧ c ≤ 122 then some (c.toNat - 97 + 10)
  else if 65 ≤ c ∧ c ≤ 90 then some (c.toNat - 65 + 10)
  else none

/-! ## Numbers -/

/-- The digits of a base in front of a string: their value added to `acc`, and
the rest. -/
def scanDigits (base : Nat) : Nat → List UInt8 → Nat × List UInt8
  | acc, [] => (acc, [])
  | acc, c :: cs =>
      match digitVal c with
      | some d => if d < base then scanDigits base (acc * base + d) cs else (acc, c :: cs)
      | none => (acc, c :: cs)

/-- An optional sign. -/
def scanSign : List UInt8 → Bool × List UInt8
  | 45 :: cs => (true, cs)
  | 43 :: cs => (false, cs)
  | cs => (false, cs)

/-- `strtol` in base 10: spaces, a sign, digits; clamped to a 64-bit `long`. -/
def strtol (s : List UInt8) : Int × List UInt8 :=
  let (negative, cs) := scanSign (s.dropWhile isSpace)
  if (cs.head?.map isDigit).getD false then
    let (n, rest) := scanDigits 10 0 cs
    if negative then (max (-(n : Int)) (-9223372036854775808), rest)
    else (min (n : Int) 9223372036854775807, rest)
  else (0, s)

/-- `strtol` sets `errno` to `ERANGE`. -/
def strtolErange (s : List UInt8) : Bool :=
  let (negative, cs) := scanSign (s.dropWhile isSpace)
  let (n, _) := scanDigits 10 0 cs
  if negative then 9223372036854775808 < n else 9223372036854775807 < n

/-- `atoi`: `strtol` cut down to 32 bits. -/
def atoi (s : List UInt8) : Int := Int.bmod (strtol s).1 4294967296

/-- The conversion of an integer to `uint32_t`. -/
def toUint32 (z : Int) : UInt32 := UInt32.ofNat (z % 4294967296).toNat

/-- `strtoul` in base 10: spaces, a sign, digits.  A value that does not fit in
64 bits is `ULONG_MAX` with `ERANGE`, a negative one is negated in 64 bits, and
no digits at all are 0 without an error. -/
def strtoul (s : List UInt8) : Nat × Bool :=
  let (negative, cs) := scanSign (s.dropWhile isSpace)
  let (n, _) := scanDigits 10 0 cs
  if n > 18446744073709551615 then (18446744073709551615, true)
  else if negative then ((18446744073709551616 - n) % 18446744073709551616, false)
  else (n, false)

/-- `strtoul` with base 0 on a string that starts with a digit. -/
def strtoul0 : List UInt8 → Nat × List UInt8
  | 48 :: x :: c :: cs =>
      if (x = 120 ∨ x = 88) ∧ ((digitVal c).map (decide <| · < 16)).getD false then
        scanDigits 16 0 (c :: cs)
      else scanDigits 8 0 (48 :: x :: c :: cs)
  | 48 :: cs => scanDigits 8 0 (48 :: cs)
  | cs => scanDigits 10 0 cs

/-! ## Digits in front of a text -/

theorem digitVal_of_isDigit {c : UInt8} (h : isDigit c) :
    digitVal c = some (c.toNat - 48) ∧ c.toNat - 48 < 10 := by
  simp only [isDigit, Bool.and_eq_true, decide_eq_true_eq, UInt8.le_iff_toNat_le] at h
  have hle : 48 ≤ c ∧ c ≤ 57 := by
    simp only [UInt8.le_iff_toNat_le]
    exact h
  refine ⟨if_pos hle, ?_⟩
  have h₅₇ : (57 : UInt8).toNat = 57 := rfl
  omega

theorem isDigit_of_digitVal {c : UInt8} {d : Nat} (h : digitVal c = some d) (hd : d < 10) :
    isDigit c := by
  unfold digitVal at h
  split at h
  · rename_i hc
    simpa [isDigit] using hc
  · split at h
    · cases h
      omega
    · split at h
      · cases h
        omega
      · cases h

theorem isSpace_of_isDigit {c : UInt8} (h : isDigit c) : isSpace c = false := by
  simp only [isDigit, Bool.and_eq_true, decide_eq_true_eq, UInt8.le_iff_toNat_le,
    UInt8.reduceToNat] at h
  simp only [isSpace, Bool.or_eq_false_iff, beq_eq_false_iff_ne, ne_eq, Bool.and_eq_false_iff,
    decide_eq_false_iff_not, UInt8.le_iff_toNat_le, UInt8.reduceToNat, ← UInt8.toNat_inj]
  omega

theorem scanSign_of_isDigit {c : UInt8} (h : isDigit c) (s : List UInt8) :
    scanSign (c :: s) = (false, c :: s) := by
  unfold scanSign
  split
  · rename_i heq
    cases heq
    exact absurd h (by decide)
  · rename_i heq
    cases heq
    exact absurd h (by decide)
  · rfl

/-- No digit is in front. -/
def NoDigit (s : List UInt8) : Prop := ∀ c ∈ s.head?, isDigit c = false

theorem noDigit_nil : NoDigit [] := fun _ h => by cases h

theorem noDigit_cons {c : UInt8} {s : List UInt8} : NoDigit (c :: s) ↔ isDigit c = false := by
  simp [NoDigit]

/-- The scan stops where the digits do. -/
theorem scanDigits_of_noDigit {s : List UInt8} (h : NoDigit s) (acc : Nat) :
    scanDigits 10 acc s = (acc, s) := by
  cases s with
  | nil => rfl
  | cons c s =>
      have hc := noDigit_cons.mp h
      cases hv : digitVal c with
      | none => simp only [scanDigits, hv]
      | some d =>
          have hd : ¬ d < 10 := by
            intro hlt
            rw [isDigit_of_digitVal hv hlt] at hc
            cases hc
          simp only [scanDigits, hv, if_neg hd]

theorem scanDigits_append {ds rest : List UInt8} (hds : ∀ c ∈ ds, isDigit c) (hrest : NoDigit rest)
    (acc : Nat) : scanDigits 10 acc (ds ++ rest)
      = (ds.foldl (fun m c => m * 10 + (c.toNat - 48)) acc, rest) := by
  induction ds generalizing acc with
  | nil => exact scanDigits_of_noDigit hrest acc
  | cons c ds ih =>
      obtain ⟨hval, hlt⟩ := digitVal_of_isDigit (hds c List.mem_cons_self)
      simp only [List.cons_append, scanDigits, hval, if_pos hlt, List.foldl_cons]
      exact ih (fun x hx => hds x (List.mem_cons_of_mem _ hx)) _

/-! ## Decimal numerals -/

/-- The number a string of digits shows. -/
def decimal (s : List UInt8) : Option Nat :=
  if s ≠ [] ∧ ∀ c ∈ s, isDigit c then some (s.foldl (fun n c => n * 10 + (c.toNat - 48)) 0)
  else none

/-- A numeral has no space and no sign in front, and is read to its end. -/
theorem scan_decimal {s : List UInt8} {n : Nat} (h : decimal s = some n) :
    scanSign (s.dropWhile isSpace) = (false, s) ∧ (s.head?.map isDigit).getD false ∧
      scanDigits 10 0 s = (n, []) := by
  unfold decimal at h
  split at h
  · rename_i hs
    cases h
    obtain ⟨hne, hdig⟩ := hs
    have hscan := scanDigits_append hdig noDigit_nil 0
    rw [List.append_nil] at hscan
    obtain ⟨c, cs, rfl⟩ := List.exists_cons_of_ne_nil hne
    have hc := hdig c List.mem_cons_self
    refine ⟨?_, hc, hscan⟩
    rw [List.dropWhile_cons_of_neg (by rw [isSpace_of_isDigit hc]; exact Bool.false_ne_true),
      scanSign_of_isDigit hc]
  · cases h

theorem strtol_decimal {s : List UInt8} {n : Nat} (h : decimal s = some n)
    (hn : n ≤ 9223372036854775807) : (strtol s).1 = n := by
  obtain ⟨hsign, hhead, hdigits⟩ := scan_decimal h
  simp only [strtol, hsign, hhead, if_true, hdigits, Bool.false_eq_true, if_false]
  omega

theorem strtoul_decimal {s : List UInt8} {n : Nat} (h : decimal s = some n)
    (hn : n ≤ 18446744073709551615) : strtoul s = (n, false) := by
  obtain ⟨hsign, -, hdigits⟩ := scan_decimal h
  have hfit : ¬ n > 18446744073709551615 := by omega
  simp only [strtoul, hsign, hdigits, if_neg hfit, Bool.false_eq_true, if_false]

/-- `atoi` and the conversion to `uint32_t` keep every 32-bit numeral. -/
theorem toUint32_atoi_decimal {s : List UInt8} {n : Nat} (h : decimal s = some n)
    (hn : n < 4294967296) : toUint32 (atoi s) = UInt32.ofNat n := by
  have hmod : Int.bmod (n : Int) 4294967296 % 4294967296 = (n : Int) % 4294967296 :=
    Int.bmod_emod
  have hnat : ((n : Int) % 4294967296).toNat = n := by omega
  rw [toUint32, atoi, strtol_decimal h (by omega), hmod, hnat]

/-! ## Numerals in front of a text -/

/-- What `strtol` reads as a number. -/
structure Numeral where
  spaces : List UInt8
  sign : List UInt8
  digits : List UInt8
  spaces_space : ∀ c ∈ spaces, isSpace c
  sign_cases : sign = [] ∨ sign = [45] ∨ sign = [43]
  digits_ne : digits ≠ []
  digits_digit : ∀ c ∈ digits, isDigit c

namespace Numeral

/-- The numeral as it stands in a string. -/
def text (n : Numeral) : List UInt8 := n.spaces ++ (n.sign ++ n.digits)

/-- The number without its sign. -/
def magnitude (n : Numeral) : Nat := n.digits.foldl (fun m c => m * 10 + (c.toNat - 48)) 0

/-- The value as a 64-bit `long`, clamped. -/
def value (n : Numeral) : Int :=
  if n.sign = [45] then max (-(n.magnitude : Int)) (-9223372036854775808)
  else min (n.magnitude : Int) 9223372036854775807

/-- The number is not a `long`. -/
def erange (n : Numeral) : Bool :=
  decide ((if n.sign = [45] then 9223372036854775808 else 9223372036854775807) < n.magnitude)

theorem text_ne_nil (n : Numeral) : n.text ≠ [] := by
  intro h
  exact n.digits_ne (List.append_eq_nil_iff.mp (List.append_eq_nil_iff.mp h).2).2

theorem mem_text {n : Numeral} {c : UInt8} (h : c ∈ n.text) :
    isSpace c ∨ c = 45 ∨ c = 43 ∨ isDigit c := by
  rcases List.mem_append.mp h with h | h
  · exact Or.inl (n.spaces_space c h)
  · rcases List.mem_append.mp h with h | h
    · rcases n.sign_cases with hs | hs | hs <;> rw [hs] at h
      · cases h
      · exact Or.inr (Or.inl (List.mem_singleton.mp h))
      · exact Or.inr (Or.inr (Or.inl (List.mem_singleton.mp h)))
    · exact Or.inr (Or.inr (Or.inr (n.digits_digit c h)))

end Numeral

/-- Spaces and sign of a numeral. -/
theorem Numeral.scanSign_text (n : Numeral) (rest : List UInt8) :
    scanSign ((n.text ++ rest).dropWhile isSpace) = (decide (n.sign = [45]), n.digits ++ rest) := by
  obtain ⟨d, ds, hds⟩ := List.exists_cons_of_ne_nil n.digits_ne
  have hd : isDigit d := n.digits_digit d (by rw [hds]; exact List.mem_cons_self)
  have htext : n.text ++ rest = n.spaces ++ (n.sign ++ (n.digits ++ rest)) := by
    simp [Numeral.text]
  rw [htext, List.dropWhile_append_of_pos n.spaces_space]
  rcases n.sign_cases with hs | hs | hs
  · rw [hs, hds, List.nil_append, List.cons_append,
      List.dropWhile_cons_of_neg (by rw [isSpace_of_isDigit hd]; exact Bool.false_ne_true),
      scanSign_of_isDigit hd]
    rfl
  · rw [hs, List.singleton_append, List.dropWhile_cons_of_neg (by decide)]
    rfl
  · rw [hs, List.singleton_append, List.dropWhile_cons_of_neg (by decide)]
    rfl

theorem Numeral.head_digits (n : Numeral) (rest : List UInt8) :
    ((n.digits ++ rest).head?.map isDigit).getD false = true := by
  obtain ⟨d, ds, hds⟩ := List.exists_cons_of_ne_nil n.digits_ne
  rw [hds]
  exact n.digits_digit d (by rw [hds]; exact List.mem_cons_self)

/-- `strtol` reads a numeral to the end of its digits. -/
theorem strtol_numeral (n : Numeral) {rest : List UInt8} (hrest : NoDigit rest) :
    strtol (n.text ++ rest) = (n.value, rest) ∧ strtolErange (n.text ++ rest) = n.erange := by
  have hscan := n.scanSign_text rest
  have hdigits := scanDigits_append n.digits_digit hrest 0
  by_cases hsign : n.sign = [45]
  · constructor
    · simp only [strtol, hscan, n.head_digits rest, if_true, hdigits, hsign, decide_true,
        Numeral.value, Numeral.magnitude]
    · rw [Bool.eq_iff_iff]
      simp only [strtolErange, hscan, if_true, hdigits, hsign, decide_true, Numeral.erange,
        Numeral.magnitude, decide_eq_true_eq]
  · constructor
    · simp only [strtol, hscan, n.head_digits rest, if_true, hdigits, hsign, decide_false,
        Bool.false_eq_true, if_false, Numeral.value, Numeral.magnitude]
    · rw [Bool.eq_iff_iff]
      simp only [strtolErange, hscan, hdigits, hsign, decide_false, Bool.false_eq_true, if_false,
        Numeral.erange, Numeral.magnitude, decide_eq_true_eq]

/-- What `scanSign` has taken off. -/
theorem scanSign_split (s : List UInt8) : ∃ sign, s = sign ++ (scanSign s).2 ∧
    (sign = [] ∨ sign = [45] ∨ sign = [43]) := by
  unfold scanSign
  split
  · exact ⟨[45], rfl, Or.inr (Or.inl rfl)⟩
  · exact ⟨[43], rfl, Or.inr (Or.inr rfl)⟩
  · exact ⟨[], rfl, Or.inl rfl⟩

/-- A numeral is in front, or `strtol` reads nothing. -/
theorem strtol_cases (s : List UInt8) :
    (∃ (n : Numeral) (rest : List UInt8), s = n.text ++ rest ∧ NoDigit rest) ∨
      (strtol s = (0, s) ∧ strtolErange s = false) := by
  obtain ⟨sign, hsplit, hsign⟩ := scanSign_split (s.dropWhile isSpace)
  generalize hcs : (scanSign (s.dropWhile isSpace)).2 = cs at hsplit
  by_cases hhead : (cs.head?.map isDigit).getD false
  · left
    have hne : cs.takeWhile isDigit ≠ [] := by
      cases cs with
      | nil => cases hhead
      | cons c cs =>
          have hc : isDigit c := hhead
          rw [List.takeWhile_cons_of_pos hc]
          exact List.cons_ne_nil _ _
    refine ⟨⟨s.takeWhile isSpace, sign, cs.takeWhile isDigit, fun c hc => List.mem_takeWhile_imp hc,
      hsign, hne, fun c hc => List.mem_takeWhile_imp hc⟩, cs.dropWhile isDigit, ?_, ?_⟩
    · simp only [Numeral.text, List.append_assoc, List.takeWhile_append_dropWhile]
      rw [← hsplit, List.takeWhile_append_dropWhile]
    · intro c hc
      have hdrop := List.head?_dropWhile_not isDigit cs
      rw [Option.mem_def.mp hc] at hdrop
      exact hdrop
  · right
    have hno : NoDigit cs := by
      intro c hc
      rw [Option.mem_def.mp hc] at hhead
      exact eq_false_of_ne_true hhead
    constructor
    · simp only [strtol, hcs, if_neg hhead]
    · simp only [strtolErange, hcs, scanDigits_of_noDigit hno]
      split <;> rfl

/-- The value of a number that is not a `long` is an end of the range. -/
theorem Numeral.value_of_erange {n : Numeral} (h : n.erange = true) :
    n.value = -9223372036854775808 ∨ n.value = 9223372036854775807 := by
  simp only [Numeral.erange, decide_eq_true_eq] at h
  simp only [Numeral.value]
  split
  · rename_i hsign
    rw [if_pos hsign] at h
    omega
  · rename_i hsign
    rw [if_neg hsign] at h
    omega

/-- `errno` is set only for a value at an end of the range. -/
theorem value_of_strtolErange {s : List UInt8} (h : strtolErange s = true) :
    (strtol s).1 = -9223372036854775808 ∨ (strtol s).1 = 9223372036854775807 := by
  rcases strtol_cases s with ⟨n, rest, rfl, hrest⟩ | ⟨-, herr⟩
  · obtain ⟨hval, herr⟩ := strtol_numeral n hrest
    rw [herr] at h
    rw [hval]
    exact n.value_of_erange h
  · rw [herr] at h
    cases h

theorem strtol_suffix (s : List UInt8) : ∃ pre, s = pre ++ (strtol s).2 := by
  rcases strtol_cases s with ⟨n, rest, rfl, hrest⟩ | ⟨hnone, -⟩
  · rw [(strtol_numeral n hrest).1]
    exact ⟨n.text, rfl⟩
  · rw [hnone]
    exact ⟨[], rfl⟩

/-! ## Pointers into a string -/

/-- A C string: its bytes before the terminator. -/
abbrev CStr := { s : List UInt8 // ∀ b ∈ s, b ≠ 0 }

namespace CStr

/-- The bytes in memory, with the terminator. -/
def mem (s : CStr) : List UInt8 := s.1 ++ [0]

/-- `strtol` from a pointer `p` into the string: the value, whether `errno` is
set, and `end`.  Pointers are offsets, and `none` is a pointer behind the
terminator. -/
def strtolFrom (s : CStr) (p : Nat) : Option (Int × Bool × Nat) :=
  if p ≤ s.1.length then
    some ((strtol (s.1.drop p)).1, strtolErange (s.1.drop p),
      s.1.length - (strtol (s.1.drop p)).2.length)
  else none

/-- The character `strtol` stops at is the next one, or the terminator. -/
theorem load8_strtol (s : CStr) (p : Nat) :
    load8 s.mem (s.1.length - (strtol (s.1.drop p)).2.length)
      = some ((strtol (s.1.drop p)).2.head?.getD 0) := by
  obtain ⟨pre, hpre⟩ := strtol_suffix (s.1.drop p)
  generalize (strtol (s.1.drop p)).2 = rest at hpre
  obtain ⟨front, hsplit⟩ : ∃ front, s.1 = front ++ rest :=
    ⟨s.1.take p ++ pre, by rw [List.append_assoc, ← hpre, List.take_append_drop]⟩
  rw [load8, mem, hsplit, List.length_append, Nat.add_sub_cancel, List.append_assoc,
    List.getElem?_append_right (Nat.le_refl _), Nat.sub_self]
  cases rest with
  | nil => rfl
  | cons c rest => rfl

end CStr

/-! ## Fields of a text -/

/-- The first field of a text ends at the first separator. -/
theorem splitOn_eq_cons (a : UInt8) (s : List UInt8) :
    s.splitOn a = s.takeWhile (· != a) :: (match s.dropWhile (· != a) with
      | [] => []
      | _ :: t => t.splitOn a) := by
  induction s with
  | nil => rfl
  | cons c s ih =>
      rw [List.splitOn_eq_splitOnP, List.splitOnP_cons_eq_if_modifyHead,
        ← List.splitOn_eq_splitOnP]
      by_cases hc : c = a
      · subst hc
        simp
      · rw [ih]
        simp [hc]

/-! ## Strings in memory -/

/-- The string at the start of some memory; `none` where it does not end there. -/
def stringAt (mem : List UInt8) : Option (List UInt8) :=
  if (0 : UInt8) ∈ mem then some (mem.takeWhile (· != 0)) else none

/-- `strstr`: the string from the first place on where the other one starts. -/
def strstr (sub : List UInt8) : List UInt8 → Option (List UInt8)
  | [] => if sub = [] then some [] else none
  | c :: s => if sub <+: c :: s then some (c :: s) else strstr sub s

theorem strstr_isSome_iff (sub s : List UInt8) : (strstr sub s).isSome = true ↔ sub <:+: s := by
  induction s with
  | nil =>
      rw [strstr, List.infix_nil]
      split
      · rename_i h
        exact iff_of_true rfl h
      · rename_i h
        exact iff_of_false Bool.false_ne_true h
  | cons c s ih =>
      rw [strstr, List.infix_cons_iff]
      split
      · rename_i h
        exact iff_of_true rfl (Or.inl h)
      · rename_i h
        rw [ih, or_iff_right h]

/-! ## Addresses -/

/-- An address as it is written, from its bytes in network order. -/
def dottedQuad (addr : Buf 4) : List UInt8 :=
  [46].intercalate (addr.1.map fun b => cstr (Nat.toDigits 10 b.toNat))

/-- The loop of `inet_aton` with `dots` more dots allowed; `parts` are the
bytes read so far.  The last part fills the bytes that are left. -/
def inetAtonLoop : Nat → List UInt8 → List UInt8 → Option (List UInt8)
  | dots, parts, s =>
      if (s.head?.map isDigit).getD false then
        let (val, rest) := strtoul0 s
        if val > 0xffffffff then none
        else
          match rest, dots with
          | 46 :: _, 0 => none
          | 46 :: rest, dots + 1 =>
              if val > 0xff then none
              else inetAtonLoop dots (parts ++ [UInt8.ofNat val]) rest
          | rest, _ =>
              if (rest.head?.map isSpace).getD true ∧ val < 256 ^ (4 - parts.length) then
                some (parts ++ (be32 val).drop parts.length)
              else none
      else none

/-- `inet_aton`: the address as it lies in memory, in network order. -/
def inetAton (s : List UInt8) : Option UInt32 :=
  (inetAtonLoop 3 [] s).map fun bs => le32 (byteAt bs 0) (byteAt bs 1) (byteAt bs 2) (byteAt bs 3)

example : inetAton (cstr ['1', '9', '2', '.', '0', '.', '2', '.', '1']) = some (le32 192 0 2 1) := by
  decide

example : inetAton (cstr ['1', '0', '.', '0', 'x', '1', '0', '0']) = some (le32 10 0 1 0) := by
  decide

example : dottedQuad ⟨[10, 0, 2, 101], rfl⟩
    = cstr ['1', '0', '.', '0', '.', '2', '.', '1', '0', '1'] := by decide

example : atoi (cstr [' ', '-', '7', 'x']) = -7 := by decide

end NetProbes.Lib
