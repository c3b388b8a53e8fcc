/-
# `NetProbes.TcpConnect.GetInts` — which port lists `tcpconnect` accepts

`get_ints` of `tcpconnect.c` reads a number with `strtol`, skips the character
`strtol` stopped at and goes on, until the string or the array ends.  So it
cuts the string into pieces (`pieces`), and accepts it when every piece that
fits is in range and the first has digits (`getInts_spec`):

    end == arg     compares with the start of the string, not of the piece: a
                   later piece without digits is a 0
    end + 1        skips any character, not just a comma
    sz < max_size  ends the loop without a look at what is left

The documentation has "Comma-separated list" (`Listed`).  The two agree exactly
where a string that is not refused is cut at commas only, into numbers only,
and used up (`getInts_agrees_iff`).
-/
import NetProbes.Lib.CString

namespace NetProbes.TcpConnect

open NetProbes.Lib

/-! ## The loop -/

/-- An `int` array. -/
abbrev Ints (n : Nat) := { l : List Int32 // l.length = n }

/-- The array of zeros. -/
def Ints.zero (n : Nat) : Ints n := ⟨List.replicate n 0, List.length_replicate⟩

/-- A checked store into an array. -/
def Ints.store {n : Nat} (ret : Ints n) (i : Nat) (v : Int32) : Option (Ints n) :=
  if i < n then some ⟨ret.1.set i v, by rw [List.length_set, ret.2]⟩ else none

/-- The loop of `get_ints` with room for `n` more: the number of values, or
`none` where -1 is returned, and the array.  The `none` around both is an access
outside the string or the array. -/
def getIntsLoop {cap : Nat} (arg : CStr) (min max : Int32) :
    Nat → Nat → Nat → Ints cap → Option (Option Nat × Ints cap)
  | 0, _, sz, ret => some (some sz, ret)
  | n + 1, argp, sz, ret => do
      let (val, errno, stop) ← arg.strtolFrom argp
      if errno then some (none, ret)
      else if stop = 0 ∨ val < min.toInt ∨ val > max.toInt then some (none, ret)
      else
        let ret ← ret.store sz (Int32.ofInt val)
        let c ← load8 arg.mem stop
        if c = 0 then some (some (sz + 1), ret)
        else getIntsLoop arg min max n (stop + 1) (sz + 1) ret

/-- What `get_ints` returns and leaves in `*size` and `ret`. -/
structure IntsResult (cap : Nat) where
  ret : Int
  size : Nat
  array : Ints cap

/-- `get_ints`, with room for `cap` values. -/
def getInts {cap : Nat} (arg : CStr) (ret : Ints cap) (min max : Int32) :
    Option (IntsResult cap) :=
  (getIntsLoop arg min max cap 0 0 ret).map fun
    | (some sz, ret) => ⟨0, sz, ret⟩
    | (none, ret) => ⟨-1, cap, ret⟩

/-- The values that were stored. -/
def IntsResult.values {cap : Nat} (r : IntsResult cap) : List Int :=
  (r.array.1.take r.size).map Int32.toInt

/-! ## The pieces -/

/-- One turn of the loop: the value, whether there were digits, and the
character `strtol` stopped at, if it was not the terminator. -/
structure Piece where
  value : Int
  digits : Bool
  stop : Option UInt8
  deriving DecidableEq

/-- The piece in front of a text. -/
def pieceOf (s : List UInt8) : Piece where
  value := (strtol s).1
  digits := (strtol s).2 ≠ s
  stop := (strtol s).2.head?

/-- The first `n` pieces, one character apart. -/
def pieces : Nat → List UInt8 → List Piece
  | 0, _ => []
  | n + 1, s =>
      match (strtol s).2 with
      | [] => [pieceOf s]
      | _ :: rest => pieceOf s :: pieces n rest

/-- The value is in range. -/
def Piece.InRange (min max : Int32) (p : Piece) : Prop :=
  min.toInt ≤ p.value ∧ p.value ≤ max.toInt

instance decInRange (min max : Int32) (p : Piece) : Decidable (p.InRange min max) :=
  inferInstanceAs (Decidable (_ ∧ _))

/-- No piece is refused. -/
def Unrefused (min max : Int32) (ps : List Piece) : Prop :=
  (∀ p ∈ ps, p.InRange min max) ∧ ∀ p ∈ ps.head?, p.digits

/-- Numbers only, cut at commas only, and the text used up. -/
def Clean (ps : List Piece) : Prop :=
  (∀ p ∈ ps, p.digits ∧ (p.stop = none ∨ p.stop = some 44)) ∧ ∃ p ∈ ps, p.stop = none

instance decClean (ps : List Piece) : Decidable (Clean ps) :=
  inferInstanceAs (Decidable (_ ∧ _))

/-! ## What the loop does -/

section Loop
variable {cap : Nat} {arg : CStr} {min max : Int32} {argp : Nat}

/-- Where `strtol` stops, as an offset. -/
theorem stop_eq (hargp : argp ≤ arg.1.length) :
    ∃ pre, arg.1.drop argp = pre ++ (strtol (arg.1.drop argp)).2 ∧
      arg.1.length - (strtol (arg.1.drop argp)).2.length = argp + pre.length := by
  obtain ⟨pre, hpre⟩ := strtol_suffix (arg.1.drop argp)
  refine ⟨pre, hpre, ?_⟩
  have hlen := congrArg List.length hpre
  rw [List.length_append, List.length_drop] at hlen
  omega

/-- `end == arg` holds in the first turn without digits, and never later. -/
theorem stop_eq_zero_iff (hargp : argp ≤ arg.1.length) :
    arg.1.length - (strtol (arg.1.drop argp)).2.length = 0 ↔
      ¬ (argp = 0 → (pieceOf (arg.1.drop argp)).digits) := by
  obtain ⟨pre, hpre, hstop⟩ := stop_eq hargp
  have hdigits : (pieceOf (arg.1.drop argp)).digits = true ↔ pre ≠ [] := by
    simp only [pieceOf, decide_eq_true_eq]
    refine not_congr ⟨fun h => ?_, fun h => ?_⟩
    · have hself : arg.1.drop argp = pre ++ arg.1.drop argp := by rw [h] at hpre; exact hpre
      exact List.self_eq_append_left.mp hself
    · rw [h, List.nil_append] at hpre
      exact hpre.symm
  rw [hstop, Classical.not_imp, hdigits, Nat.add_eq_zero_iff, List.length_eq_zero_iff, not_not]

/-- The checks of a turn: the value in range, and digits in the first turn. -/
theorem checks_iff (hargp : argp ≤ arg.1.length) :
    (strtolErange (arg.1.drop argp) = true ∨
      (arg.1.length - (strtol (arg.1.drop argp)).2.length = 0 ∨
        (strtol (arg.1.drop argp)).1 < min.toInt ∨ (strtol (arg.1.drop argp)).1 > max.toInt)) ↔
      ¬ ((pieceOf (arg.1.drop argp)).InRange min max ∧
        (argp = 0 → (pieceOf (arg.1.drop argp)).digits)) := by
  rw [stop_eq_zero_iff hargp, not_and_or]
  have hlow := min.le_toInt
  have hhigh := max.toInt_lt
  constructor
  · rintro (herr | hdigits | hval)
    · left
      rintro ⟨h₁, h₂⟩
      simp only [pieceOf] at h₁ h₂
      rcases value_of_strtolErange herr with hval | hval <;> rw [hval] at h₁ h₂ <;> omega
    · exact Or.inr hdigits
    · left
      rintro ⟨h₁, h₂⟩
      simp only [pieceOf] at h₁ h₂
      omega
  · rintro (hrange | hdigits)
    · right
      right
      simp only [Piece.InRange, pieceOf] at hrange
      omega
    · exact Or.inr (Or.inl hdigits)

theorem getIntsLoop_refuse {n sz : Nat} {ret : Ints cap} (hargp : argp ≤ arg.1.length)
    (h : ¬ ((pieceOf (arg.1.drop argp)).InRange min max ∧
      (argp = 0 → (pieceOf (arg.1.drop argp)).digits))) :
    getIntsLoop arg min max (n + 1) argp sz ret = some (none, ret) := by
  simp only [getIntsLoop, CStr.strtolFrom, if_pos hargp, Option.bind_eq_bind, Option.bind_some]
  rcases (checks_iff hargp).mpr h with herr | hval
  · rw [if_pos herr]
  · rw [if_pos hval]
    split <;> rfl

theorem getIntsLoop_accept (n : Nat) {sz : Nat} (ret : Ints cap) (hargp : argp ≤ arg.1.length)
    (hsz : sz < cap) (h : (pieceOf (arg.1.drop argp)).InRange min max ∧
      (argp = 0 → (pieceOf (arg.1.drop argp)).digits)) :
    ∃ ret' : Ints cap, ret'.1 = ret.1.set sz (Int32.ofInt (pieceOf (arg.1.drop argp)).value) ∧
      getIntsLoop arg min max (n + 1) argp sz ret = match (strtol (arg.1.drop argp)).2 with
        | [] => some (some (sz + 1), ret')
        | _ :: rest => getIntsLoop arg min max n (arg.1.length - rest.length) (sz + 1) ret' := by
  refine ⟨⟨ret.1.set sz (Int32.ofInt (pieceOf (arg.1.drop argp)).value), by
    rw [List.length_set, ret.2]⟩, rfl, ?_⟩
  obtain ⟨herr, hval⟩ := not_or.mp ((not_congr (checks_iff hargp)).mpr (not_not.mpr h))
  have hstop := CStr.load8_strtol arg argp
  simp only [getIntsLoop, CStr.strtolFrom, if_pos hargp, Option.bind_eq_bind, Option.bind_some,
    if_neg herr, if_neg hval, Ints.store, if_pos hsz, hstop]
  obtain ⟨pre, hpre, hlen⟩ := stop_eq hargp
  cases hrest : (strtol (arg.1.drop argp)).2 with
  | nil => rfl
  | cons c rest =>
      have hc : c ≠ 0 := by
        refine arg.2 c (List.mem_of_mem_drop (i := argp) ?_)
        rw [hpre, hrest]
        simp
      have hnext : arg.1.length - (c :: rest).length + 1 = arg.1.length - rest.length := by
        have hl := congrArg List.length hpre
        rw [hrest, List.length_append, List.length_drop, List.length_cons] at hl
        rw [List.length_cons]
        omega
      simp only [List.head?_cons, Option.getD_some, if_neg hc, hnext, pieceOf]

/-- The next turn starts behind the character `strtol` stopped at. -/
theorem drop_next {c : UInt8} {rest : List UInt8} (hargp : argp ≤ arg.1.length)
    (hrest : (strtol (arg.1.drop argp)).2 = c :: rest) :
    arg.1.drop (arg.1.length - rest.length) = rest ∧ arg.1.length - rest.length ≠ 0 := by
  obtain ⟨pre, hpre, -⟩ := stop_eq hargp
  rw [hrest] at hpre
  obtain ⟨front, hsplit⟩ : ∃ front, arg.1 = front ++ c :: rest :=
    ⟨arg.1.take argp ++ pre, by rw [List.append_assoc, ← hpre, List.take_append_drop]⟩
  have hlen : arg.1.length - rest.length = front.length + 1 := by
    rw [hsplit, List.length_append, List.length_cons]
    omega
  rw [hlen]
  refine ⟨?_, Nat.succ_ne_zero _⟩
  rw [hsplit, ← List.drop_drop, List.drop_left]
  rfl

/-- The outcome of the loop with the pieces `ps` before it: all are stored, or
one is refused. -/
def Outcome (min max : Int32) (argp sz : Nat) (ret : Ints cap) (ps : List Piece)
    (out : Option Nat × Ints cap) : Prop :=
  ((∀ p ∈ ps, p.InRange min max) ∧ (argp = 0 → ∀ p ∈ ps.head?, p.digits) →
    out.1 = some (sz + ps.length) ∧
      out.2.1.take (sz + ps.length) = ret.1.take sz ++ ps.map fun p => Int32.ofInt p.value) ∧
  (¬ ((∀ p ∈ ps, p.InRange min max) ∧ (argp = 0 → ∀ p ∈ ps.head?, p.digits)) → out.1 = none)

theorem take_set_succ {ret ret' : Ints cap} {sz : Nat} {v : Int32} (hsz : sz < cap)
    (h : ret'.1 = ret.1.set sz v) : ret'.1.take (sz + 1) = ret.1.take sz ++ [v] := by
  have hlen : sz < (ret.1.set sz v).length := by rw [List.length_set, ret.2]; exact hsz
  rw [h, List.take_succ_eq_append_getElem hlen, List.take_set_of_le (Nat.le_refl _),
    List.getElem_set_self]

theorem Outcome.nil {ret : Ints cap} {sz : Nat} : Outcome min max argp sz ret [] (some sz, ret) := by
  refine ⟨fun _ => ⟨rfl, (List.append_nil _).symm⟩, fun hno => absurd ⟨?_, ?_⟩ hno⟩
  · intro p hp
    cases hp
  · intro _ p hp
    cases hp

/-- A piece is stored, and the rest goes on behind it. -/
theorem Outcome.cons {ret ret' : Ints cap} {sz argp' : Nat} {p : Piece} {ps : List Piece}
    {out : Option Nat × Ints cap} (hsz : sz < cap)
    (hp : p.InRange min max ∧ (argp = 0 → p.digits))
    (hret : ret'.1 = ret.1.set sz (Int32.ofInt p.value)) (hpos : argp' ≠ 0)
    (h : Outcome min max argp' (sz + 1) ret' ps out) :
    Outcome min max argp sz ret (p :: ps) out := by
  obtain ⟨hacc, href⟩ := h
  constructor
  · rintro ⟨hrange, -⟩
    obtain ⟨hnum, hvals⟩ := hacc ⟨fun q hq => hrange q (List.mem_cons_of_mem _ hq),
      fun hzero => absurd hzero hpos⟩
    refine ⟨by rw [hnum, List.length_cons, Nat.add_right_comm, Nat.add_assoc], ?_⟩
    rw [List.length_cons, ← Nat.add_assoc, Nat.add_right_comm, hvals, take_set_succ hsz hret,
      List.map_cons, List.append_assoc]
    rfl
  · intro hno
    refine href fun hall => hno ⟨?_, ?_⟩
    · intro q hq
      rcases List.mem_cons.mp hq with rfl | hq
      · exact hp.1
      · exact hall.1 q hq
    · intro hzero q hq
      cases hq
      exact hp.2 hzero

theorem Outcome.refused {ret ret' : Ints cap} {sz : Nat} {p : Piece} {ps : List Piece}
    (hp : ¬ (p.InRange min max ∧ (argp = 0 → p.digits))) (hhead : p ∈ ps.head?) :
    Outcome min max argp sz ret ps (none, ret') := by
  refine ⟨fun hacc => absurd ⟨?_, ?_⟩ hp, fun _ => rfl⟩
  · exact hacc.1 p (List.mem_of_mem_head? hhead)
  · exact fun hzero => hacc.2 hzero p hhead

/-- The loop never leaves the string or the array. -/
theorem getIntsLoop_spec (arg : CStr) (min max : Int32) (n argp sz : Nat) (ret : Ints cap)
    (hargp : argp ≤ arg.1.length) (hsz : sz + n = cap) :
    ∃ out, getIntsLoop arg min max n argp sz ret = some out ∧
      Outcome min max argp sz ret (pieces n (arg.1.drop argp)) out := by
  induction n generalizing argp sz ret with
  | zero => exact ⟨_, rfl, Outcome.nil⟩
  | succ n ih =>
      have hlt : sz < cap := by omega
      by_cases h : (pieceOf (arg.1.drop argp)).InRange min max ∧
          (argp = 0 → (pieceOf (arg.1.drop argp)).digits)
      · obtain ⟨ret', hret', hloop⟩ := getIntsLoop_accept n ret hargp hlt h
        cases hrest : (strtol (arg.1.drop argp)).2 with
        | nil =>
            have hps : pieces (n + 1) (arg.1.drop argp) = [pieceOf (arg.1.drop argp)] := by
              simp only [pieces, hrest]
            rw [hrest] at hloop
            rw [hps]
            exact ⟨_, hloop, Outcome.nil.cons hlt h hret' Nat.one_ne_zero⟩
        | cons c rest =>
            have hps : pieces (n + 1) (arg.1.drop argp)
                = pieceOf (arg.1.drop argp) :: pieces n rest := by
              simp only [pieces, hrest]
            obtain ⟨hdrop, hpos⟩ := drop_next hargp hrest
            obtain ⟨out, hout, hnext⟩ := ih (arg.1.length - rest.length) (sz + 1) ret'
              (Nat.sub_le _ _) (by omega)
            rw [hdrop] at hnext
            rw [hrest] at hloop
            rw [hps]
            exact ⟨out, hloop.trans hout, hnext.cons hlt h hret' hpos⟩
      · have hhead : pieceOf (arg.1.drop argp) ∈ (pieces (n + 1) (arg.1.drop argp)).head? := by
          unfold pieces
          split <;> rfl
        exact ⟨_, getIntsLoop_refuse hargp h, Outcome.refused h hhead⟩

end Loop

/-- `get_ints` by the pieces of its string. -/
theorem getInts_spec {cap : Nat} (arg : CStr) (ret : Ints cap) (min max : Int32) :
    ∃ r, getInts arg ret min max = some r ∧
      (Unrefused min max (pieces cap arg.1) → r.ret = 0 ∧ r.size = (pieces cap arg.1).length ∧
        r.values = (pieces cap arg.1).map Piece.value) ∧
      (¬ Unrefused min max (pieces cap arg.1) → r.ret = -1 ∧ r.size = cap) := by
  obtain ⟨⟨o, ret'⟩, hloop, hacc, href⟩ := getIntsLoop_spec arg min max cap 0 0 ret
    (Nat.zero_le _) (Nat.zero_add _)
  rw [List.drop_zero] at hacc href
  by_cases h : Unrefused min max (pieces cap arg.1)
  · obtain ⟨hnum, hvals⟩ := hacc ⟨h.1, fun _ => h.2⟩
    simp only [Nat.zero_add, List.take_zero, List.nil_append] at hnum hvals
    subst hnum
    refine ⟨⟨0, (pieces cap arg.1).length, ret'⟩, ?_, fun _ => ⟨rfl, rfl, ?_⟩,
      fun hno => absurd h hno⟩
    · simp only [getInts, hloop, Option.map_some]
    · simp only [IntsResult.values, hvals, List.map_map]
      refine List.map_congr_left fun p hp => ?_
      obtain ⟨hlow, hhigh⟩ := h.1 p hp
      have := min.le_toInt
      have := max.toInt_lt
      exact Int32.toInt_ofInt_of_le (by omega) (by omega)
  · have hnone := href fun hall => h ⟨hall.1, hall.2 rfl⟩
    simp only at hnone
    subst hnone
    refine ⟨⟨-1, cap, ret'⟩, ?_, fun hyes => absurd hyes h, fun _ => ⟨rfl, rfl⟩⟩
    simp only [getInts, hloop, Option.map_some]

theorem pieces_length_le (n : Nat) (s : List UInt8) : (pieces n s).length ≤ n := by
  induction n generalizing s with
  | zero => exact Nat.le_refl 0
  | succ n ih =>
      unfold pieces
      split
      · exact Nat.le_add_left 1 n
      · exact Nat.succ_le_succ (ih _)

theorem pieces_ne_nil (n : Nat) (s : List UInt8) : pieces (n + 1) s ≠ [] := by
  unfold pieces
  split <;> exact List.cons_ne_nil _ _

theorem getInts_size_le {cap : Nat} {arg : CStr} {ret : Ints cap} {min max : Int32}
    {r : IntsResult cap} (h : getInts arg ret min max = some r) : r.size ≤ cap := by
  obtain ⟨r', hr', hacc, href⟩ := getInts_spec arg ret min max
  obtain rfl : r' = r := Option.some.inj (hr'.symm.trans h)
  by_cases hun : Unrefused min max (pieces cap arg.1)
  · rw [(hacc hun).2.1]
    exact pieces_length_le cap arg.1
  · rw [(href hun).2]

/-! ## The documented grammar -/

/-- The item is a decimal integer to its end, as `strtol` reads it, in range. -/
def Item (min max : Int32) (item : List UInt8) (v : Int) : Prop :=
  item ≠ [] ∧ strtol item = (v, []) ∧ min.toInt ≤ v ∧ v ≤ max.toInt

/-- A comma-separated list of at least one and at most `cap` integers. -/
def Listed (min max : Int32) (cap : Nat) (s : List UInt8) (vs : List Int) : Prop :=
  1 ≤ (s.splitOn 44).length ∧ (s.splitOn 44).length ≤ cap ∧
    List.Forall₂ (Item min max) (s.splitOn 44) vs

theorem comma_not_mem_text (n : Numeral) : 44 ∉ n.text := by
  intro h
  rcases Numeral.mem_text h with h | h | h | h <;> exact absurd h (by decide)

/-- The first item of a text that starts with a numeral. -/
theorem takeWhile_text (n : Numeral) (rest : List UInt8) :
    (n.text ++ rest).takeWhile (· != 44) = n.text ++ rest.takeWhile (· != 44) := by
  refine List.takeWhile_append_of_pos fun c hc => ?_
  simp only [bne_iff_ne, ne_eq]
  rintro rfl
  exact comma_not_mem_text n hc

theorem dropWhile_text (n : Numeral) (rest : List UInt8) :
    (n.text ++ rest).dropWhile (· != 44) = rest.dropWhile (· != 44) := by
  refine List.dropWhile_append_of_pos fun c hc => ?_
  simp only [bne_iff_ne, ne_eq]
  rintro rfl
  exact comma_not_mem_text n hc

theorem noDigit_takeWhile {rest : List UInt8} (h : NoDigit rest) (q : UInt8 → Bool) :
    NoDigit (rest.takeWhile q) := by
  cases rest with
  | nil => exact h
  | cons c rest =>
      rw [List.takeWhile_cons]
      split
      · exact noDigit_cons.mpr (noDigit_cons.mp h)
      · exact noDigit_nil

theorem noDigit_dropWhile (s : List UInt8) : NoDigit (s.dropWhile (· != 44)) := by
  intro c hc
  have hdrop := List.head?_dropWhile_not (· != 44) s
  rw [Option.mem_def.mp hc] at hdrop
  have hc : c = 44 := by simpa using hdrop
  rw [hc]
  rfl

/-- The first item is an integer exactly where the first piece is a number that
a comma or the end of the text follows. -/
theorem item_iff {min max : Int32} {s : List UInt8} {v : Int} :
    Item min max (s.takeWhile (· != 44)) v ↔ (pieceOf s).digits ∧
      ((pieceOf s).stop = none ∨ (pieceOf s).stop = some 44) ∧ (pieceOf s).InRange min max ∧
        v = (pieceOf s).value := by
  rcases strtol_cases s with ⟨n, rest, rfl, hrest⟩ | ⟨hnone, -⟩
  · have hread := (strtol_numeral n hrest).1
    have hitem := (strtol_numeral n (noDigit_takeWhile hrest (· != 44))).1
    have hdigits : rest ≠ n.text ++ rest := by
      intro h
      exact n.text_ne_nil (List.self_eq_append_left.mp h)
    have hstop : rest.takeWhile (· != 44) = [] ↔ rest.head? = none ∨ rest.head? = some 44 := by
      cases rest with
      | nil => simp
      | cons c rest =>
          by_cases hc : c = 44
          · simp [hc]
          · simp [hc]
    simp only [Item, takeWhile_text, hitem, pieceOf, hread, Piece.InRange, Prod.mk.injEq, hstop,
      decide_eq_true_eq]
    constructor
    · rintro ⟨-, ⟨rfl, hcut⟩, hrange⟩
      exact ⟨hdigits, hcut, hrange, rfl⟩
    · rintro ⟨-, hcut, hrange, rfl⟩
      refine ⟨?_, ⟨rfl, hcut⟩, hrange⟩
      intro h
      exact n.text_ne_nil (List.append_eq_nil_iff.mp h).1
  · refine iff_of_false ?_ ?_
    · rintro ⟨hne, hread, -⟩
      have hsplit : s = s.takeWhile (· != 44) ++ s.dropWhile (· != 44) :=
        List.takeWhile_append_dropWhile.symm
      rcases strtol_cases (s.takeWhile (· != 44)) with ⟨n, rest, hitem, hrest⟩ | ⟨hempty, -⟩
      · -- the numeral of the item is in front of the whole text too
        rw [hitem, (strtol_numeral n hrest).1] at hread
        obtain rfl : rest = [] := congrArg Prod.snd hread
        rw [List.append_nil] at hitem
        rw [hitem] at hsplit
        rw [hsplit, (strtol_numeral n (noDigit_dropWhile s)).1] at hnone
        have hrest : s.dropWhile (· != 44) = n.text ++ s.dropWhile (· != 44) :=
          congrArg Prod.snd hnone
        exact n.text_ne_nil (List.self_eq_append_left.mp hrest)
      · rw [hempty] at hread
        exact hne (congrArg Prod.snd hread)
    · rintro ⟨hdigits, -⟩
      simp [pieceOf, hnone] at hdigits

/-- Behind a number that a comma or the end follows, the items go on where the
pieces do. -/
theorem dropWhile_eq_rest {s : List UInt8} (hdigits : (pieceOf s).digits)
    (hstop : (pieceOf s).stop = none ∨ (pieceOf s).stop = some 44) :
    s.dropWhile (· != 44) = (strtol s).2 := by
  rcases strtol_cases s with ⟨n, rest, rfl, hrest⟩ | ⟨hnone, -⟩
  · have hread := (strtol_numeral n hrest).1
    simp only [pieceOf, hread] at hstop
    rw [dropWhile_text, hread]
    cases rest with
    | nil => rfl
    | cons c rest =>
        have hc : c = 44 := by simpa using hstop
        simp [hc]
  · simp [pieceOf, hnone] at hdigits

/-- The items and the pieces of a text, by the first. -/
theorem listed_succ_iff {min max : Int32} {cap : Nat} {s : List UInt8} {vs : List Int} :
    Listed min max (cap + 1) s vs ↔ (pieceOf s).digits ∧ (pieceOf s).InRange min max ∧
      match (strtol s).2 with
      | [] => vs = [(pieceOf s).value]
      | c :: rest => c = 44 ∧ ∃ vs', Listed min max cap rest vs' ∧ vs = (pieceOf s).value :: vs' := by
  have hlen : ∀ t : List UInt8, 1 ≤ (t.splitOn 44).length := by
    intro t
    rw [splitOn_eq_cons, List.length_cons]
    omega
  rw [Listed, splitOn_eq_cons]
  constructor
  · rintro ⟨-, hle, hall⟩
    obtain ⟨v, vs', hitem, htail, rfl⟩ := List.forall₂_cons_left_iff.mp hall
    obtain ⟨hdigits, hstop, hrange, rfl⟩ := item_iff.mp hitem
    refine ⟨hdigits, hrange, ?_⟩
    rw [dropWhile_eq_rest hdigits hstop] at hle htail
    simp only [pieceOf] at hstop
    cases hrest : (strtol s).2 with
    | nil =>
        rw [hrest] at htail
        rw [List.forall₂_nil_left_iff.mp htail]
    | cons c rest =>
        rw [hrest] at htail hle hstop
        have hc : c = 44 := by simpa using hstop
        exact ⟨hc, vs', ⟨hlen rest, Nat.le_of_succ_le_succ hle, htail⟩, rfl⟩
  · rintro ⟨hdigits, hrange, hmatch⟩
    refine ⟨by rw [List.length_cons]; omega, ?_⟩
    cases hrest : (strtol s).2 with
    | nil =>
        rw [hrest] at hmatch
        subst hmatch
        have hstop : (pieceOf s).stop = none ∨ (pieceOf s).stop = some 44 := by
          simp [pieceOf, hrest]
        rw [dropWhile_eq_rest hdigits hstop, hrest]
        refine ⟨Nat.le_add_left _ _, List.Forall₂.cons ?_ List.Forall₂.nil⟩
        exact item_iff.mpr ⟨hdigits, hstop, hrange, rfl⟩
    | cons c rest =>
        rw [hrest] at hmatch
        obtain ⟨rfl, vs', ⟨-, hle, hall⟩, rfl⟩ := hmatch
        have hstop : (pieceOf s).stop = none ∨ (pieceOf s).stop = some 44 := by
          simp [pieceOf, hrest]
        rw [dropWhile_eq_rest hdigits hstop, hrest]
        refine ⟨Nat.succ_le_succ hle, List.Forall₂.cons ?_ hall⟩
        exact item_iff.mpr ⟨hdigits, hstop, hrange, rfl⟩

/-- A text is a list of the grammar exactly where its pieces are all in range,
numbers only, cut at commas only, and use it up.  Induction on the room; the
first item is the first piece. -/
theorem listed_iff {min max : Int32} {cap : Nat} {s : List UInt8} {vs : List Int} :
    Listed min max cap s vs ↔ (∀ p ∈ pieces cap s, p.InRange min max) ∧ Clean (pieces cap s) ∧
      vs = (pieces cap s).map Piece.value := by
  induction cap generalizing s vs with
  | zero =>
      refine iff_of_false ?_ ?_
      · rintro ⟨hone, hzero, -⟩
        omega
      · rintro ⟨-, ⟨-, p, hp, -⟩, -⟩
        cases hp
  | succ cap ih =>
      rw [listed_succ_iff]
      cases hrest : (strtol s).2 with
      | nil =>
          have hstop : (pieceOf s).stop = none := by simp only [pieceOf, hrest, List.head?_nil]
          simp only [pieces, hrest, Clean, List.mem_singleton, forall_eq, exists_eq_left, hstop,
            true_or, and_true, List.map_cons, List.map_nil]
          tauto
      | cons c rest =>
          have hstop : (pieceOf s).stop = some c := by simp only [pieceOf, hrest, List.head?_cons]
          simp only [pieces, hrest, Clean, List.mem_cons, forall_eq_or_imp, exists_eq_or_imp, hstop,
            reduceCtorEq, false_or, Option.some.injEq, List.map_cons, ih]
          constructor
          · rintro ⟨hdigits, hrange, rfl, vs', ⟨hall, hclean, rfl⟩, rfl⟩
            exact ⟨⟨hrange, hall⟩, ⟨⟨⟨hdigits, rfl⟩, hclean.1⟩, hclean.2⟩, rfl⟩
          · rintro ⟨⟨hrange, hall⟩, ⟨⟨⟨hdigits, rfl⟩, hcuts⟩, hend⟩, rfl⟩
            exact ⟨hdigits, hrange, rfl, _, ⟨hall, ⟨hcuts, hend⟩, rfl⟩, rfl⟩

/-- A list of the grammar is accepted and its integers are stored in order, and
everything else is rejected. -/
structure GrammarAgrees (min max : Int32) {cap : Nat} (arg : CStr) (r : IntsResult cap) : Prop where
  accepted : ∀ vs, Listed min max cap arg.1 vs → r.ret = 0 ∧ r.size = vs.length ∧ r.values = vs
  rejected : (∀ vs, ¬ Listed min max cap arg.1 vs) → r.ret = -1

/-- `get_ints` accepts what is documented, except where it refuses none of the
pieces and one of them is no number, is not followed by a comma, or there are
more than fit. -/
theorem getInts_agrees_iff {cap : Nat} (arg : CStr) (ret : Ints cap) (min max : Int32) :
    ∃ r, getInts arg ret min max = some r ∧ (GrammarAgrees min max arg r ↔
      (Unrefused min max (pieces cap arg.1) → Clean (pieces cap arg.1))) := by
  obtain ⟨r, hr, hacc, href⟩ := getInts_spec arg ret min max
  refine ⟨r, hr, ?_⟩
  constructor
  · intro h hun
    by_contra hclean
    have hnot : ∀ vs, ¬ Listed min max cap arg.1 vs :=
      fun vs hvs => hclean (listed_iff.mp hvs).2.1
    have hret := h.rejected hnot
    rw [(hacc hun).1] at hret
    exact absurd hret (by decide)
  · intro h
    refine ⟨?_, ?_⟩
    · intro vs hvs
      obtain ⟨hrange, hclean, rfl⟩ := listed_iff.mp hvs
      have hun : Unrefused min max (pieces cap arg.1) :=
        ⟨hrange, fun p hp => (hclean.1 p (List.mem_of_mem_head? hp)).1⟩
      obtain ⟨hret, hsize, hvals⟩ := hacc hun
      exact ⟨hret, by rw [hsize, List.length_map], hvals⟩
    · intro hnot
      exact (href fun hun => hnot _ (listed_iff.mpr ⟨hun.1, h hun, rfl⟩)).1

/-- `80;81`. -/
def semicolonList : CStr := ⟨cstr ['8', '0', ';', '8', '1'], by decide +kernel⟩

/-- It is accepted. -/
theorem getInts_semicolon :
    ¬ ∀ (cap : Nat) (arg : CStr) (ret : Ints cap) (min max : Int32) (r : IntsResult cap),
      getInts arg ret min max = some r → GrammarAgrees min max arg r := by
  intro hall
  have hret : (getInts semicolonList (Ints.zero 64) 1 65535).map IntsResult.ret = some 0 := by
    decide +kernel
  obtain ⟨r, hr, hzero⟩ := Option.map_eq_some_iff.mp hret
  have hnot : ∀ vs, ¬ Listed 1 65535 64 semicolonList.1 vs := by
    intro vs hvs
    have hclean := (listed_iff.mp hvs).2.1
    exact absurd hclean (by decide +kernel)
  have hminus := (hall 64 _ _ 1 65535 r hr).rejected hnot
  rw [hzero] at hminus
  exact absurd hminus (by decide)

end NetProbes.TcpConnect
