/-
# `NetProbes.Lib.Scanf` — formatted input

`fscanf` as far as formats of the kernel's tables need it.  A format is a list
of directives; the input is what is left of the file.

    space        any amount of white space, also none
    lit c        this character
    num base     `%lx`, `%lu`: white space, a sign, digits
    char         `%c`
    string w     `%s`, `%4s`: white space, and a word
    line         `%[^\n]`: the rest of the line, which is not empty

A directive that does not match ends the call, and so does the end of the
input; `ret` counts what was assigned, and is `EOF` if the input ended before
the first of it.

What a conversion makes of a text that starts with a numeral or a word
(`scanConv_num`, `scanConv_string`) is all that reading back a table needs.
-/
import NetProbes.Lib.CString

namespace NetProbes.Lib

inductive Conv where
  | num (base : Nat)
  | char
  | string (width : Option Nat)
  | line

inductive Directive where
  | space
  | lit (c : UInt8)
  | conv (c : Conv)
  | skip (c : Conv)

inductive Value where
  | num (n : UInt64)
  | char (c : UInt8)
  | text (s : List UInt8)
  deriving DecidableEq

/-- Why a call ended early. -/
inductive Stop where
  | mismatch
  | inputEnd
  deriving DecidableEq

/-- What was assigned, and what is left of the input. -/
structure Scanned where
  vals : List Value
  rest : List UInt8
  stop : Option Stop
  deriving DecidableEq

/-- What the call returns; `none` is `EOF`. -/
def Scanned.ret (r : Scanned) : Option Nat :=
  if r.vals = [] ∧ r.stop = some .inputEnd then none else some r.vals.length

/-- A value was assigned first. -/
def Scanned.cons (v : Value) (r : Scanned) : Scanned := { r with vals := v :: r.vals }

/-- `0x` in front of hexadecimal digits. -/
def dropHexPrefix : List UInt8 → List UInt8
  | 48 :: x :: s => if x = 120 ∨ x = 88 then s else 48 :: x :: s
  | s => s

/-- A number as an `unsigned long`: too large a one is the largest. -/
def toULong (negative : Bool) (n : Nat) : UInt64 :=
  if n > 18446744073709551615 then 18446744073709551615
  else if negative then -UInt64.ofNat n
  else UInt64.ofNat n

def isDigitOf (base : Nat) (c : UInt8) : Bool := ((digitVal c).map (decide <| · < base)).getD false

/-- A single conversion. -/
def scanConv : Conv → List UInt8 → Except (Stop × List UInt8) (Value × List UInt8)
  | .num base, s =>
      match s.dropWhile isSpace with
      | [] => .error (.inputEnd, [])
      | c :: s =>
          let (negative, digits) := scanSign (c :: s)
          let digits := if base = 16 then dropHexPrefix digits else digits
          if (digits.head?.map (isDigitOf base)).getD false then
            let (n, rest) := scanDigits base 0 digits
            .ok (.num (toULong negative n), rest)
          else .error (.mismatch, digits)
  | .char, [] => .error (.inputEnd, [])
  | .char, c :: s => .ok (.char c, s)
  | .string width, s =>
      match s.dropWhile isSpace with
      | [] => .error (.inputEnd, [])
      | c :: s =>
          let word := (c :: s).takeWhile (!isSpace ·)
          let word := match width with
            | some w => word.take w
            | none => word
          .ok (.text word, (c :: s).drop word.length)
  | .line, [] => .error (.inputEnd, [])
  | .line, c :: s =>
      if c = 10 then .error (.mismatch, c :: s)
      else .ok (.text ((c :: s).takeWhile (· != 10)), (c :: s).dropWhile (· != 10))

def scanf : List Directive → List UInt8 → Scanned
  | [], s => ⟨[], s, none⟩
  | .space :: fmt, s => scanf fmt (s.dropWhile isSpace)
  | .lit _ :: _, [] => ⟨[], [], some .inputEnd⟩
  | .lit c :: fmt, b :: s => if b = c then scanf fmt s else ⟨[], b :: s, some .mismatch⟩
  | .conv c :: fmt, s =>
      match scanConv c s with
      | .ok (v, rest) => (scanf fmt rest).cons v
      | .error (stop, rest) => ⟨[], rest, some stop⟩
  | .skip c :: fmt, s =>
      match scanConv c s with
      | .ok (_, rest) => scanf fmt rest
      | .error (stop, rest) => ⟨[], rest, some stop⟩

section Directives

variable {fmt : List Directive} {s rest : List UInt8} {c : Conv} {v : Value} {stop : Stop}

theorem scanf_space : scanf (.space :: fmt) s = scanf fmt (s.dropWhile isSpace) := rfl

theorem scanf_lit {b : UInt8} : scanf (.lit b :: fmt) (b :: s) = scanf fmt s := if_pos rfl

theorem scanf_conv (h : scanConv c s = .ok (v, rest)) :
    scanf (.conv c :: fmt) s = (scanf fmt rest).cons v := by
  rw [scanf, h]

theorem scanf_skip (h : scanConv c s = .ok (v, rest)) :
    scanf (.skip c :: fmt) s = scanf fmt rest := by
  rw [scanf, h]

theorem scanf_skip_error (h : scanConv c s = .error (stop, rest)) :
    scanf (.skip c :: fmt) s = ⟨[], rest, some stop⟩ := by
  rw [scanf, h]

/-- White space in front of a number or a word does not matter. -/
theorem scanConv_num_dropWhile (base : Nat) (s : List UInt8) :
    scanConv (.num base) (s.dropWhile isSpace) = scanConv (.num base) s := by
  simp only [scanConv, List.dropWhile_idempotent]

/-- Two texts that are the same up to white space in front. -/
def AtText (s t : List UInt8) : Prop := s.dropWhile isSpace = t.dropWhile isSpace

theorem scanf_num_at {base : Nat} {t : List UInt8} (h : AtText s t) :
    scanf (.conv (.num base) :: fmt) s = scanf (.conv (.num base) :: fmt) t := by
  rw [scanf, scanf, ← scanConv_num_dropWhile, h, scanConv_num_dropWhile]

/-- At the end there is no number. -/
theorem scanf_num_end {base : Nat} (h : AtText s []) :
    scanf (.conv (.num base) :: fmt) s = ⟨[], [], some .inputEnd⟩ := by
  rw [scanf_num_at h]
  rfl

end Directives

/-! ## Numerals and words in front of a text -/

/-- A string of digits of a base, at least one. -/
@[mk_iff] structure IsNumeral (base : Nat) (ds : List UInt8) : Prop where
  ne_nil : ds ≠ []
  digits : ∀ c ∈ ds, isDigitOf base c = true

instance (base : Nat) (ds : List UInt8) : Decidable (IsNumeral base ds) :=
  decidable_of_iff _ (isNumeral_iff base ds).symm

def numeralValue (base : Nat) (ds : List UInt8) : Nat :=
  ds.foldl (fun m c => m * base + (digitVal c).getD 0) 0

/-- No digit or letter is in front. -/
def NoWord (s : List UInt8) : Prop := ∀ c ∈ s.head?, digitVal c = none

/-- White space is in front, or nothing. -/
def SpaceOrEnd (s : List UInt8) : Prop := ∀ c ∈ s.head?, isSpace c = true

instance (s : List UInt8) : Decidable (SpaceOrEnd s) :=
  inferInstanceAs (Decidable (∀ c ∈ s.head?, isSpace c = true))

section Scan

variable {base : Nat} {ds rest : List UInt8}

theorem digitVal_of_isSpace {c : UInt8} (h : isSpace c = true) : digitVal c = none := by
  simp only [isSpace, Bool.or_eq_true, beq_iff_eq, Bool.and_eq_true, decide_eq_true_eq,
    UInt8.le_iff_toNat_le, ← UInt8.toNat_inj, UInt8.reduceToNat] at h
  simp only [digitVal, UInt8.le_iff_toNat_le, UInt8.reduceToNat]
  rw [if_neg (by omega), if_neg (by omega), if_neg (by omega)]

theorem SpaceOrEnd.noWord (h : SpaceOrEnd rest) : NoWord rest :=
  fun c hc => digitVal_of_isSpace (h c hc)

theorem digitVal_of_isDigitOf {c : UInt8} (h : isDigitOf base c = true) :
    ∃ d, digitVal c = some d ∧ d < base := by
  simp only [isDigitOf] at h
  cases hval : digitVal c with
  | none =>
      rw [hval] at h
      cases h
  | some d =>
      rw [hval] at h
      exact ⟨d, rfl, of_decide_eq_true h⟩

theorem scanDigits_numeral_append (hds : ∀ c ∈ ds, isDigitOf base c = true)
    (hrest : NoWord rest) (acc : Nat) :
    scanDigits base acc (ds ++ rest)
      = (ds.foldl (fun m c => m * base + (digitVal c).getD 0) acc, rest) := by
  induction ds generalizing acc with
  | nil =>
      cases rest with
      | nil => rfl
      | cons c rest =>
          have hnone : digitVal c = none := hrest c rfl
          simp only [List.nil_append, scanDigits, hnone, List.foldl_nil]
  | cons c ds ih =>
      obtain ⟨d, hval, hlt⟩ := digitVal_of_isDigitOf (hds c List.mem_cons_self)
      simp only [List.cons_append, scanDigits, hval, if_pos hlt, List.foldl_cons, Option.getD_some]
      exact ih (fun x hx => hds x (List.mem_cons_of_mem _ hx)) _

theorem isSpace_of_digitVal {c : UInt8} {d : Nat} (h : digitVal c = some d) : isSpace c = false := by
  by_contra hspace
  rw [digitVal_of_isSpace (Bool.not_eq_false _ ▸ hspace)] at h
  cases h

theorem scanSign_of_digitVal {c : UInt8} {d : Nat} (h : digitVal c = some d) (s : List UInt8) :
    scanSign (c :: s) = (false, c :: s) := by
  unfold scanSign
  split
  · rename_i heq
    obtain ⟨rfl, -⟩ := List.cons.inj heq
    exact absurd h (by decide +revert)
  · rename_i heq
    obtain ⟨rfl, -⟩ := List.cons.inj heq
    exact absurd h (by decide +revert)
  · rfl

/-- A space in front of a word is all that is skipped. -/
theorem dropWhile_space_word {word : List UInt8} (hne : word ≠ [])
    (hword : ∀ c ∈ word, isSpace c = false) :
    (32 :: (word ++ rest)).dropWhile isSpace = word ++ rest := by
  obtain ⟨c, word', rfl⟩ := List.exists_cons_of_ne_nil hne
  rw [List.dropWhile_cons_of_pos rfl, List.cons_append,
    List.dropWhile_cons_of_neg (by rw [hword c List.mem_cons_self]; decide)]

theorem IsNumeral.isSpace (h : IsNumeral base ds) : ∀ c ∈ ds, isSpace c = false := by
  intro c hc
  obtain ⟨d, hd, -⟩ := digitVal_of_isDigitOf (h.digits c hc)
  exact isSpace_of_digitVal hd

/-- Digits below 16 do not look like a prefix. -/
theorem dropHexPrefix_numeral (hds : IsNumeral 16 ds) (hrest : NoWord rest) :
    dropHexPrefix (ds ++ rest) = ds ++ rest := by
  have hsecond : ∀ x s, ds ++ rest = 48 :: x :: s → ¬ (x = 120 ∨ x = 88) := by
    intro x s heq hx
    have hlarge : ∃ d, digitVal x = some d ∧ ¬ d < 16 := by
      rcases hx with rfl | rfl
      · exact ⟨33, rfl, by decide⟩
      · exact ⟨33, rfl, by decide⟩
    obtain ⟨d, hd, hge⟩ := hlarge
    cases ds with
    | nil => exact hds.ne_nil rfl
    | cons c ds =>
        cases ds with
        | nil =>
            obtain ⟨-, hrest'⟩ := List.cons.inj heq
            have hnone := hrest x (by rw [show rest = x :: s from hrest']; rfl)
            rw [hnone] at hd
            cases hd
        | cons c' ds =>
            obtain ⟨-, htail⟩ := List.cons.inj heq
            obtain ⟨rfl, -⟩ := List.cons.inj htail
            obtain ⟨d', hd', hlt⟩ := digitVal_of_isDigitOf (hds.digits c' (by simp))
            rw [hd] at hd'
            obtain rfl := Option.some.inj hd'
            exact hge hlt
  unfold dropHexPrefix
  split
  · rename_i x s heq
    rw [if_neg (hsecond x s heq), heq]
  · rfl

/-- A numeral in front of a text is read, whatever follows that is no digit and
no letter. -/
theorem scanConv_num (hbase : base = 10 ∨ base = 16) (hds : IsNumeral base ds) (hrest : NoWord rest)
    (hlt : numeralValue base ds < 18446744073709551616) :
    scanConv (.num base) (ds ++ rest) = .ok (.num (UInt64.ofNat (numeralValue base ds)), rest) := by
  obtain ⟨c, ds', rfl⟩ := List.exists_cons_of_ne_nil hds.ne_nil
  obtain ⟨d, hd, hdlt⟩ := digitVal_of_isDigitOf (hds.digits c List.mem_cons_self)
  have hspace : (c :: ds' ++ rest).dropWhile isSpace = c :: (ds' ++ rest) := by
    rw [List.cons_append, List.dropWhile_cons_of_neg (by rw [isSpace_of_digitVal hd]; decide)]
  have hprefix : (if base = 16 then dropHexPrefix (c :: (ds' ++ rest)) else c :: (ds' ++ rest))
      = c :: (ds' ++ rest) := by
    split
    · rename_i h16
      subst h16
      exact dropHexPrefix_numeral hds hrest
    · rfl
  have hdigits : scanDigits base 0 (c :: (ds' ++ rest)) = (numeralValue base (c :: ds'), rest) :=
    scanDigits_numeral_append hds.digits hrest 0
  have hhead : ((c :: (ds' ++ rest)).head?.map (isDigitOf base)).getD false = true := by
    simp [isDigitOf, hd, hdlt]
  have hvalue : toULong false (numeralValue base (c :: ds'))
      = UInt64.ofNat (numeralValue base (c :: ds')) := by
    rw [toULong, if_neg (by omega)]
    rfl
  simp only [scanConv, hspace, scanSign_of_digitVal hd, hprefix, hhead, if_true, hdigits, hvalue]

/-- A word in front of a text is read as far as the field is wide. -/
theorem scanConv_string {word : List UInt8} {width : Option Nat} (hne : word ≠ [])
    (hword : ∀ c ∈ word, isSpace c = false) (hrest : SpaceOrEnd rest)
    (hwidth : ∀ w ∈ width, word.length ≤ w) :
    scanConv (.string width) (word ++ rest) = .ok (.text word, rest) := by
  obtain ⟨c, word', rfl⟩ := List.exists_cons_of_ne_nil hne
  have hspace : (c :: word' ++ rest).dropWhile isSpace = c :: (word' ++ rest) := by
    rw [List.cons_append, List.dropWhile_cons_of_neg (by rw [hword c List.mem_cons_self]; decide)]
  have htake : (c :: (word' ++ rest)).takeWhile (!isSpace ·) = c :: word' := by
    rw [← List.cons_append, List.takeWhile_append_of_pos (fun x hx => by simp [hword x hx])]
    have hnil : rest.takeWhile (!isSpace ·) = [] := by
      cases rest with
      | nil => rfl
      | cons b rest =>
          have hb : isSpace b = true := hrest b rfl
          rw [List.takeWhile_cons_of_neg (by simp [hb])]
    rw [hnil, List.append_nil]
  have hdrop : (c :: (word' ++ rest)).drop (c :: word').length = rest :=
    List.drop_left' rfl
  cases width with
  | none => simp only [scanConv, hspace, htake, hdrop]
  | some w =>
      have hall : (c :: word').take w = c :: word' := List.take_of_length_le (hwidth w rfl)
      simp only [scanConv, hspace, htake, hall, hdrop]

/-- The rest of a line. -/
theorem scanConv_line {line : List UInt8} (hne : line ≠ []) (hline : ∀ c ∈ line, c ≠ 10) :
    scanConv .line (line ++ 10 :: rest) = .ok (.text line, 10 :: rest) := by
  obtain ⟨c, line', rfl⟩ := List.exists_cons_of_ne_nil hne
  have hc : c ≠ 10 := hline c List.mem_cons_self
  have htake : (c :: line' ++ 10 :: rest).takeWhile (· != 10) = c :: line' := by
    rw [List.takeWhile_append_of_pos (fun x hx => by simp [hline x hx]),
      List.takeWhile_cons_of_neg (by simp), List.append_nil]
  have hdrop : (c :: line' ++ 10 :: rest).dropWhile (· != 10) = 10 :: rest := by
    rw [List.dropWhile_append_of_pos (fun x hx => by simp [hline x hx]),
      List.dropWhile_cons_of_neg (by simp)]
  rw [List.cons_append] at htake hdrop ⊢
  simp only [scanConv, if_neg hc, htake, hdrop]

theorem scanConv_line_empty : scanConv .line (10 :: rest) = .error (.mismatch, 10 :: rest) := rfl

end Scan

end NetProbes.Lib
