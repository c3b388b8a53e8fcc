/-
# `NetProbes.Netfilter.Demo` — the packet filter of `demo.c`

A write to the proc file `incoming` goes into a buffer of 100 bytes that is
neither cleared before nor ended after, and flips the switch `incoming`:

    write_proc1   copy the bytes to the start of the buffer, then `strim`
    hook_funcIN   block      drop
                  incoming   drop if the text of the source address is in the
                             string in the buffer, accept if not
                  neither    end of the function, with no value

The text is printed with `%p4`, which is `%p`: the pointer to the address and
not the address, whose text the line below it prints with `%pI4`.  What the
kernel prints for the pointer is a parameter here (`pointer`), with nothing
assumed of it.  `verdict_right_iff` says when the verdict is right all the same.

The bytes come from user space without a fault, and the buffer starts with
anything.  `len1` and `temp1`, which nothing reads, are left out.
-/
import NetProbes.Lib.CString
import NetProbes.Lib.Run
import Mathlib.Data.List.DropRight

namespace NetProbes.Netfilter

open NetProbes.Lib

/-! ## The proc file -/

/-- The bytes of one write. -/
abbrev Written := { bytes : List UInt8 // bytes.length ≤ 99 }

/-- `msg1` and the two switches. -/
structure State where
  msg1 : Buf 100
  block : Bool
  incoming : Bool
  deriving DecidableEq

/-- `isspace` of the kernel, where the no-break space is one. -/
def isspace (c : UInt8) : Bool := isSpace c || c == 160

/-- `copy_from_user(msg1, buf, count)`. -/
def copyFromUser (msg1 : Buf 100) (buf : Written) : Buf 100 :=
  ⟨buf.1 ++ msg1.1.drop buf.1.length, by
    have hbuf := buf.2
    have hmsg := msg1.2
    rw [List.length_append, List.length_drop]
    omega⟩

/-- `strim`: a NUL after the last character that is no space.  `none` where the
string does not end in the buffer. -/
def strim (msg1 : Buf 100) : Option (Buf 100) :=
  match stringAt msg1.1 with
  | none => none
  | some s =>
      if s.length = 0 then some msg1
      else some ⟨msg1.1.set (s.rdropWhile isspace).length 0, by rw [List.length_set, msg1.2]⟩

/-- `write_proc1`. -/
def writeProc1 (s : State) (buf : Written) : Option State :=
  match strim (copyFromUser s.msg1 buf) with
  | none => none
  | some msg1 =>
      some { s with msg1 := msg1, incoming := if buf.1.length > 0 then !s.incoming else s.incoming }

/-! ## The hook -/

/-- What a hook returns. -/
inductive Verdict where
  | drop
  | accept
  deriving DecidableEq

/-- The addresses of a packet, in network order. -/
structure Packet where
  saddr : Buf 4
  daddr : Buf 4

/-- The lines of the log. -/
inductive Log where
  | dropped
  | sourceDropped (source : List UInt8)
  | sourceAccepted (source : List UInt8)
  | destAccepted (dest : List UInt8)
  deriving DecidableEq

/-- How a call of the hook ends: with a verdict and lines in the log, at the end
of the function with no value, or outside the buffer. -/
inductive Outcome where
  | returned (verdict : Verdict) (log : List Log)
  | noValue
  | outside
  deriving DecidableEq

/-- The string `snprintf` leaves in `size` bytes. -/
def snprintf (size : Nat) (text : List UInt8) : List UInt8 := text.take (size - 1)

/-- `hook_funcIN`; `pointer` is the text of `&src_ip`. -/
def hookFuncIn (pointer : List UInt8) (s : State) (skb : Packet) : Outcome :=
  if s.block then .returned .drop [.dropped]
  else if s.incoming then
    let source := snprintf 16 pointer
    let dest := snprintf 16 (dottedQuad skb.daddr)
    match stringAt s.msg1.1 with
    | none => .outside
    | some msg1 =>
        if (strstr source msg1).isSome then .returned .drop [.sourceDropped source]
        else .returned .accept [.sourceAccepted source, .destAccepted dest]
  else .noValue

/-! ## The verdict that is wanted -/

/-- The words of a text. -/
def words (text : List UInt8) : List (List UInt8) :=
  (text.splitOnP isspace).filter fun w => w ≠ []

/-- The text that was written last. -/
def lastText (writes : List Written) : List UInt8 :=
  ((writes.map Subtype.val).reverse.find? fun text => text ≠ []).getD []

/-- Filtering is on: every write with a text flips it. -/
def filtering (writes : List Written) : Bool := writes.countP (fun w => w.1 ≠ []) % 2 = 1

/-- The address is one of the words of the last text. -/
def Listed (writes : List Written) (addr : Buf 4) : Prop := dottedQuad addr ∈ words (lastText writes)

instance decListed (writes : List Written) (addr : Buf 4) : Decidable (Listed writes addr) :=
  inferInstanceAs (Decidable (_ ∈ _))

/-- The verdict a packet should get. -/
def expected (block : Bool) (writes : List Written) (skb : Packet) : Verdict :=
  if block = true ∨ filtering writes = true ∧ Listed writes skb.saddr then .drop else .accept

/-- After the writes the hook returns that verdict. -/
def VerdictRight (pointer : List UInt8) (fresh : Buf 100) (block : Bool) (writes : List Written)
    (skb : Packet) : Prop :=
  ∃ s log, exec writeProc1 ⟨fresh, block, false⟩ writes = some s ∧
    hookFuncIn pointer s skb = .returned (expected block writes skb) log

/-! ## What the buffer holds -/

/-- The buffer after one write that finds the end of a string. -/
def kept (msg1 : Buf 100) (buf : Written) : Buf 100 :=
  (strim (copyFromUser msg1 buf)).getD (copyFromUser msg1 buf)

/-- The buffer after all of them. -/
def held (fresh : Buf 100) (writes : List Written) : Buf 100 := writes.foldl kept fresh

/-- Each write finds the end of a string, in its own bytes or behind them. -/
def Ended : Buf 100 → List Written → Prop
  | _, [] => True
  | msg1, buf :: writes => (0 : UInt8) ∈ (copyFromUser msg1 buf).1 ∧ Ended (kept msg1 buf) writes

/-! ## One write -/

theorem strim_none {msg1 : Buf 100} (h : (0 : UInt8) ∉ msg1.1) : strim msg1 = none := by
  rw [strim, stringAt, if_neg h]

/-- The NUL that `strim` writes is in the buffer. -/
theorem strim_some {msg1 : Buf 100} (h : (0 : UInt8) ∈ msg1.1) :
    ∃ trimmed, strim msg1 = some trimmed ∧ (0 : UInt8) ∈ trimmed.1 := by
  rw [strim, stringAt, if_pos h]
  split
  · rename_i hnone
    exact absurd hnone (Option.some_ne_none _)
  · rename_i s hs
    obtain rfl : msg1.1.takeWhile (· != 0) = s := Option.some.inj hs
    split
    · exact ⟨msg1, rfl, h⟩
    · have hlen : ((msg1.1.takeWhile (· != 0)).rdropWhile isspace).length < msg1.1.length := by
        have htrim : (msg1.1.takeWhile (· != 0)).rdropWhile isspace <+: msg1.1.takeWhile (· != 0) :=
          List.rdropWhile_prefix isspace _
        have htrimLen := htrim.length_le
        have hwhile : (msg1.1.takeWhile (· != 0)).length < msg1.1.length := by
          by_contra hge
          have hbegins : msg1.1.takeWhile (· != 0) <+: msg1.1 := List.takeWhile_prefix _
          have hall := hbegins.eq_of_length_le (Nat.le_of_not_lt hge)
          rw [List.takeWhile_eq_self_iff] at hall
          exact absurd (hall 0 h) (by decide)
        omega
      exact ⟨_, rfl, List.mem_set hlen 0⟩

/-- A write finds the end of a string and keeps one in the buffer, or does not
return. -/
theorem writeProc1_eq_some_iff {s s' : State} {buf : Written} :
    writeProc1 s buf = some s' ↔ (0 : UInt8) ∈ (copyFromUser s.msg1 buf).1 ∧
      s' = { s with
        msg1 := kept s.msg1 buf
        incoming := s.incoming ^^ decide (buf.1 ≠ []) } := by
  by_cases h : (0 : UInt8) ∈ (copyFromUser s.msg1 buf).1
  · obtain ⟨trimmed, htrim, -⟩ := strim_some h
    rw [writeProc1, kept, htrim]
    have hflip : (if buf.1.length > 0 then !s.incoming else s.incoming)
        = (s.incoming ^^ decide (buf.1 ≠ [])) := by
      cases hbuf : buf.1 with
      | nil => simp
      | cons c bytes => simp
    simp only [hflip, Option.some.injEq, Option.getD_some]
    exact ⟨fun h' => ⟨h, h'.symm⟩, fun h' => h'.2.symm⟩
  · rw [writeProc1, strim_none h]
    exact iff_of_false (Option.some_ne_none _).symm fun h' => h h'.1

/-! ## All writes -/

theorem exec_writeProc1_iff {writes : List Written} {s s' : State} :
    exec writeProc1 s writes = some s' ↔ Ended s.msg1 writes ∧
      s' = { s with
        msg1 := held s.msg1 writes
        incoming := s.incoming ^^ filtering writes } := by
  induction writes generalizing s with
  | nil => simp [exec, Ended, held, filtering, eq_comm]
  | cons buf writes ih =>
      have hflip : (s.incoming ^^ decide (buf.1 ≠ []) ^^ filtering writes)
          = (s.incoming ^^ filtering (buf :: writes)) := by
        rw [Bool.xor_assoc]
        congr 1
        simp only [filtering, List.countP_cons]
        by_cases hbuf : buf.1 = []
        · simp [hbuf]
        · simp only [ne_eq, hbuf, not_false_eq_true, decide_true, if_true, Bool.true_xor]
          rw [← decide_not, decide_eq_decide]
          omega
      rw [exec_cons]
      simp only [writeProc1_eq_some_iff, ih, Ended, held, List.foldl_cons]
      constructor
      · rintro ⟨s₁, ⟨hnul, rfl⟩, hended, rfl⟩
        exact ⟨⟨hnul, hended⟩, by simp only [hflip]⟩
      · rintro ⟨⟨hnul, hended⟩, rfl⟩
        exact ⟨_, ⟨hnul, rfl⟩, hended, by simp only [hflip]⟩

/-- After a write there is a string in the buffer. -/
theorem mem_held {writes : List Written} {fresh : Buf 100} (h : Ended fresh writes)
    (hne : writes ≠ []) : (0 : UInt8) ∈ (held fresh writes).1 := by
  induction writes generalizing fresh with
  | nil => exact absurd rfl hne
  | cons buf writes ih =>
      obtain ⟨hnul, hended⟩ := h
      cases writes with
      | nil =>
          obtain ⟨trimmed, htrim, hmem⟩ := strim_some hnul
          simp only [held, List.foldl_cons, List.foldl_nil, kept, htrim, Option.getD_some]
          exact hmem
      | cons buf' writes => exact ih hended (List.cons_ne_nil _ _)

theorem copyFromUser_last (msg1 : Buf 100) (buf : Written) :
    (copyFromUser msg1 buf).1[99]? = msg1.1[99]? := by
  have hbuf := buf.2
  rw [copyFromUser, List.getElem?_append_right hbuf, List.getElem?_drop, Nat.add_sub_cancel' hbuf]

theorem strim_last {msg1 trimmed : Buf 100} (h : strim msg1 = some trimmed)
    (hlast : msg1.1[99]? = some 0) : trimmed.1[99]? = some 0 := by
  rw [strim] at h
  split at h
  · cases h
  · split at h
    · obtain rfl : msg1 = trimmed := Option.some.inj h
      exact hlast
    · rw [← Option.some.inj h, List.getElem?_set]
      split
      · rw [if_pos (by rw [msg1.2]; omega)]
      · exact hlast

/-- Where the last byte of the fresh buffer is a NUL, it stays one, and every
write finds the end of a string. -/
theorem ended_of_last {fresh : Buf 100} (hlast : fresh.1[99]? = some 0) (writes : List Written) :
    Ended fresh writes := by
  induction writes generalizing fresh with
  | nil => exact trivial
  | cons buf writes ih =>
      have hcopy : (copyFromUser fresh buf).1[99]? = some 0 := (copyFromUser_last fresh buf).trans hlast
      have hnul : (0 : UInt8) ∈ (copyFromUser fresh buf).1 := List.mem_of_getElem? hcopy
      obtain ⟨trimmed, htrim, -⟩ := strim_some hnul
      refine ⟨hnul, ih ?_⟩
      rw [kept, htrim, Option.getD_some]
      exact strim_last htrim hcopy

theorem ne_nil_of_filtering {writes : List Written} (h : filtering writes = true) : writes ≠ [] := by
  rintro rfl
  exact absurd h (by decide)

/-! ## The verdict -/

theorem exists_log_iff {v w : Verdict} {log : List Log} :
    (∃ log', Outcome.returned w log = .returned v log') ↔ v = w := by
  simp only [Outcome.returned.injEq, exists_and_left, exists_eq', and_true]
  exact eq_comm

/-- The hook returns a value where all is blocked or filtering is on. -/
theorem hookFuncIn_returned_iff (pointer : List UInt8) {s : State} (skb : Packet) (v : Verdict)
    (hstring : s.incoming = true → (0 : UInt8) ∈ s.msg1.1) :
    (∃ log, hookFuncIn pointer s skb = .returned v log) ↔ s.block = true ∧ v = .drop ∨
      s.block = false ∧ s.incoming = true ∧
        v = if snprintf 16 pointer <:+: s.msg1.1.takeWhile (· != 0) then .drop else .accept := by
  cases hblock : s.block with
  | true =>
      simp only [hookFuncIn, hblock, if_true, true_and, Bool.true_eq_false, false_and, or_false]
      exact exists_log_iff
  | false =>
      cases hon : s.incoming with
      | false => simp [hookFuncIn, hblock, hon]
      | true =>
          simp only [hookFuncIn, hblock, hon, stringAt, if_pos (hstring hon), strstr_isSome_iff,
            Bool.false_eq_true, if_false, if_true, false_and, false_or, true_and]
          split
          · exact exists_log_iff
          · exact exists_log_iff

theorem ite_verdict_iff {p q : Prop} [Decidable p] [Decidable q] :
    (if p then Verdict.drop else .accept) = (if q then .drop else .accept) ↔ (q ↔ p) := by
  by_cases hp : p
  · by_cases hq : q
    · simp [hp, hq]
    · simp [hp, hq]
  · by_cases hq : q
    · simp [hp, hq]
    · simp [hp, hq]

/-- The verdict is right exactly where each write finds the end of a string
and either all is blocked, or filtering is on and the text of the pointer is in
the buffer just where the source address is listed. -/
theorem verdict_right_iff (pointer : List UInt8) (fresh : Buf 100) (block : Bool)
    (writes : List Written) (skb : Packet) :
    VerdictRight pointer fresh block writes skb ↔ Ended fresh writes ∧
      (block = true ∨ filtering writes = true ∧
        (snprintf 16 pointer <:+: (held fresh writes).1.takeWhile (· != 0) ↔
          Listed writes skb.saddr)) := by
  have hreturned : VerdictRight pointer fresh block writes skb ↔ Ended fresh writes ∧
      ∃ log, hookFuncIn pointer ⟨held fresh writes, block, filtering writes⟩ skb
        = .returned (expected block writes skb) log := by
    simp only [VerdictRight, exec_writeProc1_iff, Bool.false_xor]
    constructor
    · rintro ⟨s, log, ⟨hended, rfl⟩, hhook⟩
      exact ⟨hended, log, hhook⟩
    · rintro ⟨hended, log, hhook⟩
      exact ⟨_, log, ⟨hended, rfl⟩, hhook⟩
  rw [hreturned]
  refine and_congr_right fun hended => ?_
  rw [hookFuncIn_returned_iff pointer skb _ fun hon => mem_held hended (ne_nil_of_filtering hon)]
  cases block with
  | true => simp [expected]
  | false =>
      simp only [expected, Bool.false_eq_true, false_and, false_or, true_and]
      refine and_congr_right fun hon => ?_
      rw [ite_verdict_iff]
      simp only [hon, true_and]

/-- A pointer into a kernel stack, as `%p` prints it. -/
def stackPointer : List UInt8 :=
  cstr ['f', 'f', 'f', 'f', 'c', '9', '0', '0', '0', '0', '0', '0', '3', 'b', '7', 'c']

/-- The text `10.0.0.7` with a newline. -/
def listOfOne : Written :=
  ⟨cstr ['1', '0', '.', '0', '.', '0', '.', '7', '\n'], by decide⟩

/-- A packet from `10.0.0.7` to `10.0.0.1`. -/
def fromListed : Packet := ⟨⟨[10, 0, 0, 7], rfl⟩, ⟨[10, 0, 0, 1], rfl⟩⟩

/-- A listed address that is not dropped. -/
theorem verdict_listed_accepted :
    ¬ VerdictRight stackPointer (Buf.zero 100) false [listOfOne] fromListed := by
  rintro ⟨s, log, hexec, hhook⟩
  have hs : exec writeProc1 ⟨Buf.zero 100, false, false⟩ [listOfOne]
      = some ⟨padded 100 (dottedQuad ⟨[10, 0, 0, 7], rfl⟩), false, true⟩ := by
    decide +kernel
  rw [hs, Option.some.injEq] at hexec
  have hwant : expected false [listOfOne] fromListed = .drop := by decide +kernel
  have hgot : hookFuncIn stackPointer ⟨padded 100 (dottedQuad ⟨[10, 0, 0, 7], rfl⟩), false, true⟩ fromListed
      = .returned .accept [.sourceAccepted (snprintf 16 stackPointer),
        .destAccepted (dottedQuad ⟨[10, 0, 0, 1], rfl⟩)] := by
    decide +kernel
  rw [← hexec, hgot, hwant, Outcome.returned.injEq] at hhook
  exact absurd hhook.1 (by decide)

end NetProbes.Netfilter
