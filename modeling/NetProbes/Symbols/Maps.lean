/-
# `NetProbes.Symbols.Maps` — the files that a process maps

`syms__load_file` reads `/proc/<pid>/maps`, one mapping a line:

    7f01c2a00000-7f01c2b00000 r-xp 00028000 08:01 1835073      /usr/lib/libc.so.6

and collects the executable ones that a file is behind by the file's name
(`struct dso`): an object for each name, with a range for each line.  Memory is
asked for with every line.  `realloc` that fails ends the load, and so does a
library without `.text`; that `strdup` fails is seen only where the missing name
is compared with the next one, and that is beyond the language.

    load_maps    what is loaded are the kept lines, grouped by name

What libelf says of a file is an input, `Elf`; the memory that it, `fopen` and
`btf__new_empty` take is not the program's.
-/
import NetProbes.Symbols.Ksyms

namespace NetProbes.Symbols

open NetProbes.Lib

/-! ## Objects -/

/-- `struct map`, as far as `syms__add_dso` uses it; `struct load_range` has the
same fields. -/
structure LoadRange where
  start : UInt64
  stop : UInt64
  fileOff : UInt64
  deriving DecidableEq

inductive ElfType where
  | exec
  | dyn
  | perfMap
  | vdso
  | unknown
  deriving DecidableEq

/-- `struct sym`. -/
structure Sym where
  name : List UInt8
  start : UInt64
  size : UInt64

/-- `struct dso`; `name` is `NULL` where `strdup` failed, and `syms` is as long as
there are no symbols in it. -/
structure Dso where
  name : Option (List UInt8)
  ranges : List LoadRange
  shAddr : UInt64
  shOffset : UInt64
  type : ElfType
  syms : List Sym

/-- What becomes of reading the symbols of a file: it is not opened, or what is
in it cannot be taken, or there are its entries. -/
inductive SymTab where
  | unread
  | broken
  | entries (syms : List Sym)

/-- What libelf reads: `e_type`, the address and the offset of `.text`, nothing
where it fails, and the symbol tables.  For `[vdso]` these are those of the
image in memory. -/
structure Elf where
  fileType : List UInt8 → Option Nat
  textScn : List UInt8 → Option (UInt64 × UInt64)
  symtab : List UInt8 → SymTab

def vdsoName : List UInt8 := cstr ['[', 'v', 'd', 's', 'o', ']']

/-- `is_vdso`. -/
def isVdso (path : List UInt8) : Bool := path == vdsoName

/-- `get_elf_type`. -/
def getElfType (elf : Elf) (path : List UInt8) : Option Nat :=
  if isVdso path then none else elf.fileType path

/-- The prefixes of names that no file is behind. -/
def unbacked : List (List UInt8) :=
  [cstr ['/', '/', 'a', 'n', 'o', 'n'],
    cstr ['/', 'd', 'e', 'v', '/', 'z', 'e', 'r', 'o'],
    cstr ['/', 'a', 'n', 'o', 'n', '_', 'h', 'u', 'g', 'e', 'p', 'a', 'g', 'e'],
    cstr ['[', 's', 't', 'a', 'c', 'k'],
    cstr ['/', 'S', 'Y', 'S', 'V'],
    cstr ['[', 'h', 'e', 'a', 'p', ']'],
    cstr ['[', 'v', 's', 'y', 's', 'c', 'a', 'l', 'l', ']']]

/-- `is_file_backed`. -/
def isFileBacked (name : List UInt8) : Bool := !name.isEmpty && !unbacked.any (·.isPrefixOf name)

section Add

variable (alloc : Allocator) (elf : Elf)

/-- `strdup`. -/
def strdup (s : List UInt8) : Mem (Option (List UInt8)) := do
  let granted ← tryAsk alloc (s.length + 1)
  pure (if granted then some s else none)

/-- A new object behind the `n` there are; `sizeof(struct dso)` is 72. -/
def newDso (n : Nat) (name : List UInt8) : Mem Dso :=
  if intMax < n + 1 then throw .undefined
  else do
    ask alloc (72 * (n + 1))
    let copy ← strdup alloc name
    pure ⟨copy, [], 0, 0, .exec, []⟩

/-- What the file is, and where its `.text` is. -/
def Dso.classify (d : Dso) (name : List UInt8) : Mem Dso :=
  if getElfType elf name = some 2 then pure { d with type := .exec }
  else if getElfType elf name = some 3 then
    match elf.textScn name with
    | some (addr, off) => pure { d with type := .dyn, shAddr := addr, shOffset := off }
    | none => throw .failed
  else if isVdso name then pure { d with type := .vdso }
  else pure { d with type := .unknown }

/-- The new range; `sizeof(struct load_range)` is 24. -/
def Dso.addRange (d : Dso) (range : LoadRange) (name : List UInt8) : Mem Dso :=
  if intMax < d.ranges.length + 1 then throw .undefined
  else do
    ask alloc (24 * (d.ranges.length + 1))
    Dso.classify elf { d with ranges := d.ranges ++ [range] } name

/-- `syms__add_dso`: the object of that name gets the range, or a new one.  `n`
objects are in front. -/
def addDso (range : LoadRange) (name : List UInt8) : Nat → List Dso → Mem (List Dso)
  | n, [] => do
      let d ← newDso alloc n name
      let d ← d.addRange alloc elf range name
      pure [d]
  | n, d :: dsos =>
      match d.name with
      | none => throw .undefined
      | some own =>
          if own = name then do
            let d ← d.addRange alloc elf range name
            pure (d :: dsos)
          else do
            let dsos ← addDso range name (n + 1) dsos
            pure (d :: dsos)

end Add

/-! ## Loading -/

/-- `"%lx-%lx %4s %lx %lx:%lx %lu%[^\n]"`. -/
def mapsFormat : List Directive :=
  [.conv (.num 16), .lit 45, .conv (.num 16), .space, .conv (.string (some 4)), .space,
    .conv (.num 16), .space, .conv (.num 16), .lit 58, .conv (.num 16), .space, .conv (.num 10),
    .conv .line]

/-- The loop of `syms__load_file`, whose buffer for names has 4096 bytes. -/
def symsLoop (alloc : Allocator) (elf : Elf) : Nat → List Dso → List UInt8 → Mem (List Dso)
  | 0, _, _ => throw .running
  | fuel + 1, dsos, file =>
      let r := scanf mapsFormat file
      match r.ret with
      | none => pure dsos
      | some ret =>
          if ret ≠ 8 then throw .failed
          else
            match r.vals with
            | [.num start, .num stop, .text perm, .num fileOff, .num _, .num _, .num _, .text buf] =>
                if 4096 ≤ buf.length then throw .undefined
                else if byteAt perm 2 ≠ 120 then symsLoop alloc elf fuel dsos r.rest
                else
                  let name := (buf.takeWhile (· ≠ 0)).dropWhile isSpace
                  if isFileBacked name then do
                    let dsos ← addDso alloc elf ⟨start, stop, fileOff⟩ name 0 dsos
                    symsLoop alloc elf fuel dsos r.rest
                  else symsLoop alloc elf fuel dsos r.rest
            | _ => throw .failed

/-- `syms__load_file`; `sizeof(struct syms)` is 16. -/
def symsLoad (alloc : Allocator) (elf : Elf) (file : List UInt8) : Mem (List Dso) := do
  ask alloc 16
  symsLoop alloc elf (file.length + 1) [] file

/-! ## The file -/

/-- A line; `tail` is what follows the inode. -/
structure MapsLine where
  start : List UInt8
  stop : List UInt8
  perm : List UInt8
  fileOff : List UInt8
  major : List UInt8
  minor : List UInt8
  inode : List UInt8
  tail : List UInt8

namespace MapsLine

def text (l : MapsLine) : List UInt8 :=
  l.start ++ 45 :: (l.stop ++ 32 :: (l.perm ++ 32 :: (l.fileOff ++ 32 :: (l.major ++ 58 ::
    (l.minor ++ 32 :: (l.inode ++ (l.tail ++ [10])))))))

def range (l : MapsLine) : LoadRange :=
  ⟨UInt64.ofNat (numeralValue 16 l.start), UInt64.ofNat (numeralValue 16 l.stop),
    UInt64.ofNat (numeralValue 16 l.fileOff)⟩

/-- The name, without the spaces in front. -/
def name (l : MapsLine) : List UInt8 := l.tail.dropWhile isSpace

/-- An executable mapping with a file behind it. -/
def kept (l : MapsLine) : Bool := byteAt l.perm 2 == 120 && isFileBacked l.name

/-- A numeral that fits into 64 bits. -/
@[mk_iff] structure IsLong (base : Nat) (ds : List UInt8) : Prop where
  numeral : IsNumeral base ds
  lt : numeralValue base ds < 18446744073709551616

instance (base : Nat) (ds : List UInt8) : Decidable (IsLong base ds) :=
  decidable_of_iff _ (isLong_iff base ds).symm

/-- What the kernel prints: behind the inode there is a space at least. -/
@[mk_iff] structure WellFormed (l : MapsLine) : Prop where
  start : IsLong 16 l.start
  stop : IsLong 16 l.stop
  perm_length : l.perm.length = 4
  perm : ∀ c ∈ l.perm, isSpace c = false
  fileOff : IsLong 16 l.fileOff
  major : IsLong 16 l.major
  minor : IsLong 16 l.minor
  inode : IsLong 10 l.inode
  tail_ne_nil : l.tail ≠ []
  tail_space : SpaceOrEnd l.tail
  tail : ∀ c ∈ l.tail, c ≠ 10 ∧ c ≠ 0
  tail_lt : l.tail.length < 4096

instance (l : MapsLine) : Decidable l.WellFormed := decidable_of_iff _ (wellFormed_iff l).symm

/-- The line is read as it was printed. -/
theorem scanf_text {l : MapsLine} (h : l.WellFormed) (more : List UInt8) :
    ∃ r, scanf mapsFormat (l.text ++ more) = r ∧ r.ret = some 8 ∧
      (∃ major minor inode, r.vals = [.num l.range.start, .num l.range.stop, .text l.perm,
        .num l.range.fileOff, .num major, .num minor, .num inode, .text l.tail]) ∧
      AtText r.rest more := by
  have hlong : ∀ {base : Nat} {ds rest : List UInt8}, base = 10 ∨ base = 16 → IsLong base ds →
      NoWord rest → scanConv (.num base) (ds ++ rest)
        = .ok (.num (UInt64.ofNat (numeralValue base ds)), rest) :=
    fun hbase hds hrest => scanConv_num hbase hds.numeral hrest hds.lt
  have hspace : ∀ {base : Nat} {ds rest : List UInt8}, IsLong base ds →
      (32 :: (ds ++ rest)).dropWhile isSpace = ds ++ rest :=
    fun hds => dropWhile_space_word hds.numeral.ne_nil hds.numeral.isSpace
  have hdash : ∀ {rest : List UInt8}, NoWord (45 :: rest) := fun c hc => by cases hc; rfl
  have hcolon : ∀ {rest : List UInt8}, NoWord (58 :: rest) := fun c hc => by cases hc; rfl
  have hblank : ∀ {rest : List UInt8}, SpaceOrEnd (32 :: rest) := fun c hc => by cases hc; rfl
  have hperm : l.perm ≠ [] := by
    intro hnil
    have hlen := h.perm_length
    rw [hnil] at hlen
    cases hlen
  have hstring : ∀ {rest : List UInt8}, SpaceOrEnd rest →
      scanConv (.string (some 4)) (l.perm ++ rest) = .ok (.text l.perm, rest) :=
    fun hrest => scanConv_string hperm h.perm hrest
      (fun w hw => by cases hw; exact Nat.le_of_eq h.perm_length)
  have htail : NoWord (l.tail ++ 10 :: more) := by
    obtain ⟨c, tail, heq⟩ := List.exists_cons_of_ne_nil h.tail_ne_nil
    intro b hb
    exact digitVal_of_isSpace (h.tail_space b (by rw [heq] at hb ⊢; exact hb))
  have hline : scanConv .line (l.tail ++ 10 :: more) = .ok (.text l.tail, 10 :: more) :=
    scanConv_line h.tail_ne_nil fun c hc => (h.tail c hc).1
  have htext : l.text ++ more = l.start ++ 45 :: (l.stop ++ 32 :: (l.perm ++ 32 :: (l.fileOff
      ++ 32 :: (l.major ++ 58 :: (l.minor ++ 32 :: (l.inode ++ (l.tail ++ 10 :: more))))))) := by
    simp [text]
  refine ⟨_, rfl, ?_⟩
  rw [htext, mapsFormat, scanf_conv (hlong (Or.inr rfl) h.start hdash), scanf_lit,
    scanf_conv (hlong (Or.inr rfl) h.stop hblank.noWord), scanf_space,
    dropWhile_space_word hperm h.perm, scanf_conv (hstring hblank), scanf_space, hspace h.fileOff,
    scanf_conv (hlong (Or.inr rfl) h.fileOff hblank.noWord), scanf_space, hspace h.major,
    scanf_conv (hlong (Or.inr rfl) h.major hcolon), scanf_lit,
    scanf_conv (hlong (Or.inr rfl) h.minor hblank.noWord), scanf_space, hspace h.inode,
    scanf_conv (hlong (Or.inl rfl) h.inode htail), scanf_conv hline]
  exact ⟨rfl, ⟨_, _, _, rfl⟩, List.dropWhile_cons_of_pos rfl⟩

end MapsLine

theorem length_lt_of_maps {lines : List MapsLine} :
    lines.length < (lines.flatMap MapsLine.text).length + 1 := by
  induction lines with
  | nil => exact Nat.zero_lt_one
  | cons l lines ih =>
      have htext : 1 ≤ l.text.length := by
        simp only [MapsLine.text, List.length_append, List.length_cons]
        omega
      rw [List.flatMap_cons, List.length_append, List.length_cons]
      omega

/-! ## What is loaded -/

/-- What the file is taken for. -/
def typeOf (elf : Elf) (name : List UInt8) : ElfType :=
  if getElfType elf name = some 2 then .exec
  else if getElfType elf name = some 3 then .dyn
  else if isVdso name then .vdso
  else .unknown

/-- The address and the offset of `.text`, which only a library is asked for. -/
def textOf (elf : Elf) (name : List UInt8) : Option (UInt64 × UInt64) :=
  if typeOf elf name = .dyn then elf.textScn name else some (0, 0)

/-- The `.text` of every kept library is found. -/
def Readable (elf : Elf) (lines : List MapsLine) : Prop :=
  ∀ l ∈ lines, l.kept = true → textOf elf l.name ≠ none

/-- The names of the kept lines, each once. -/
def namesOf (lines : List MapsLine) : List (List UInt8) :=
  ((lines.filter MapsLine.kept).map MapsLine.name).eraseDups

/-- The ranges of the kept lines of that name. -/
def rangesOf (lines : List MapsLine) (name : List UInt8) : List LoadRange :=
  (lines.filter fun l => l.kept && l.name == name).map MapsLine.range

/-- The object of that name; `strdup` may have failed. -/
structure OfName (elf : Elf) (lines : List MapsLine) (name : List UInt8) (d : Dso) : Prop where
  known : d.name = some name ∨ d.name = none
  ranges : d.ranges = rangesOf lines name
  type : d.type = typeOf elf name
  text : textOf elf name = some (d.shAddr, d.shOffset)
  syms : d.syms = []

/-- There is one object for each name, with all its ranges, and no other. -/
def Built (elf : Elf) (lines : List MapsLine) (dsos : List Dso) : Prop :=
  List.Forall₂ (OfName elf lines) (namesOf lines) dsos

/-- No request is larger than a name, or than the lines need. -/
def Sized (lines : List MapsLine) (asked : List Nat) : Prop :=
  ∀ size ∈ asked, size ≤ max 4096 (72 * lines.length)

/-- Every object has a name. -/
def Known (dsos : List Dso) : Prop := ∀ d ∈ dsos, d.name ≠ none

/-- What was asked for while the objects were built. -/
structure Logged (alloc : Allocator) (lines : List MapsLine) (dsos : List Dso) (asked : List Nat) :
    Prop where
  sized : Sized lines asked
  not_refused : ¬ Refused alloc asked
  granted_iff : Granted alloc asked ↔ Known dsos

/-- Why nothing is loaded: `realloc` failed or a library has no `.text`; or
`strdup` failed before, or a number of objects or ranges outgrew an `int`. -/
def NotMapped (alloc : Allocator) (elf : Elf) (lines : List MapsLine) :
    Halt → List Nat → Prop
  | .failed, asked => Sized lines asked ∧ (Refused alloc asked ∨ ¬ Readable elf lines)
  | .undefined, asked => Sized lines asked ∧ (¬ Granted alloc asked ∨ intMax < lines.length)
  | .running, _ => False

section Names

variable {lines : List MapsLine} {l : MapsLine} {name : List UInt8}

theorem namesOf_skip (hkept : l.kept = false) : namesOf (lines ++ [l]) = namesOf lines := by
  rw [namesOf, List.filter_append, List.filter_singleton, hkept]
  simp [namesOf]

theorem namesOf_concat (hkept : l.kept = true) : namesOf (lines ++ [l])
    = if l.name ∈ namesOf lines then namesOf lines else namesOf lines ++ [l.name] := by
  have hmem : l.name ∈ namesOf lines ↔ l.name ∈ (lines.filter MapsLine.kept).map MapsLine.name :=
    List.mem_eraseDups
  have happ : namesOf (lines ++ [l]) = namesOf lines ++
      ([l.name].removeAll ((lines.filter MapsLine.kept).map MapsLine.name)).eraseDups := by
    rw [namesOf, List.filter_append, List.filter_singleton, hkept, cond_true, List.map_append,
      List.map_singleton, List.eraseDups_append]
    rfl
  rw [happ]
  split
  · rename_i hin
    simp [List.removeAll, hmem.mp hin]
  · rename_i hnot
    rw [hmem] at hnot
    simp [List.removeAll, hnot, List.eraseDups_cons]

theorem mem_namesOf (hl : l ∈ lines) (hkept : l.kept = true) : l.name ∈ namesOf lines :=
  List.mem_eraseDups.mpr (List.mem_map_of_mem (List.mem_filter.mpr ⟨hl, hkept⟩))

/-- Each name is there once, and there are no more names than lines. -/
theorem namesOf_nodup (lines : List MapsLine) :
    (namesOf lines).Nodup ∧ (namesOf lines).length ≤ lines.length := by
  induction lines using List.reverseRecOn with
  | nil => exact ⟨List.nodup_nil, Nat.le_refl _⟩
  | append_singleton lines l ih =>
      rw [List.length_append, List.length_singleton]
      cases hkept : l.kept with
      | false =>
          rw [namesOf_skip hkept]
          exact ⟨ih.1, Nat.le_succ_of_le ih.2⟩
      | true =>
          rw [namesOf_concat hkept]
          split
          · exact ⟨ih.1, Nat.le_succ_of_le ih.2⟩
          · rename_i hnew
            refine ⟨?_, ?_⟩
            · rw [List.nodup_append]
              exact ⟨ih.1, List.nodup_singleton _, fun a ha b hb hab =>
                hnew (List.mem_singleton.mp hb ▸ hab ▸ ha)⟩
            · rw [List.length_append, List.length_singleton]
              exact Nat.succ_le_succ ih.2

theorem rangesOf_concat (lines : List MapsLine) (l : MapsLine) (name : List UInt8) :
    rangesOf (lines ++ [l]) name
      = rangesOf lines name ++ if l.kept && l.name == name then [l.range] else [] := by
  simp only [rangesOf, List.filter_append, List.map_append, List.filter_singleton]
  cases l.kept && l.name == name <;> rfl

theorem rangesOf_other (h : l.kept = false ∨ name ≠ l.name) :
    rangesOf (lines ++ [l]) name = rangesOf lines name := by
  have hno : (l.kept && l.name == name) = false := by
    rcases h with hkept | hname
    · rw [hkept, Bool.false_and]
    · rw [Bool.and_eq_false_iff, beq_eq_false_iff_ne]
      exact Or.inr hname.symm
  rw [rangesOf_concat, hno]
  exact List.append_nil _

theorem rangesOf_same (hkept : l.kept = true) :
    rangesOf (lines ++ [l]) l.name = rangesOf lines l.name ++ [l.range] := by
  rw [rangesOf_concat, hkept, beq_self_eq_true]
  rfl

theorem rangesOf_eq_nil (hname : name ∉ namesOf lines) : rangesOf lines name = [] := by
  rw [rangesOf, List.map_eq_nil_iff, List.filter_eq_nil_iff]
  intro l hl hkept
  rw [Bool.and_eq_true, beq_iff_eq] at hkept
  exact hname (hkept.2 ▸ mem_namesOf hl hkept.1)

theorem rangesOf_length_le (lines : List MapsLine) (name : List UInt8) :
    (rangesOf lines name).length ≤ lines.length := by
  rw [rangesOf, List.length_map]
  exact List.length_filter_le _ _

end Names

section Add

variable {alloc : Allocator} {elf : Elf} {asked : List Nat} {lines seen rest : List MapsLine}
  {l : MapsLine} {d : Dso} {name : List UInt8}

theorem OfName.other (h : OfName elf lines name d) (hother : l.kept = false ∨ name ≠ l.name) :
    OfName elf (lines ++ [l]) name d where
  known := h.known
  ranges := h.ranges.trans (rangesOf_other hother).symm
  type := h.type
  text := h.text
  syms := h.syms

theorem textOf_eq_zero (h : typeOf elf name ≠ .dyn) : textOf elf name = some (0, 0) := if_neg h

/-- Nothing but a library has a place other than 0. -/
theorem OfName.place_eq_zero (h : OfName elf lines name d) (hne : typeOf elf name ≠ .dyn) :
    d.shAddr = 0 ∧ d.shOffset = 0 := by
  have htext := h.text
  rw [textOf_eq_zero hne] at htext
  obtain ⟨haddr, hoff⟩ := Prod.mk.inj (Option.some.inj htext)
  exact ⟨haddr.symm, hoff.symm⟩

/-- What a file is does not depend on what was known before. -/
theorem classify_ends {E : Halt → List Nat → Prop}
    (hzero : typeOf elf name ≠ .dyn → d.shAddr = 0 ∧ d.shOffset = 0)
    (hfail : textOf elf name = none → E .failed asked) :
    Ends (d.classify elf name) asked (fun d' after => after = asked ∧ d'.name = d.name ∧
      d'.ranges = d.ranges ∧ d'.syms = d.syms ∧ d'.type = typeOf elf name ∧
        textOf elf name = some (d'.shAddr, d'.shOffset)) E := by
  have hother : ∀ {type : ElfType}, type = typeOf elf name → type ≠ .dyn →
      Ends (pure { d with type := type }) asked (fun d' after => after = asked ∧ d'.name = d.name ∧
        d'.ranges = d.ranges ∧ d'.syms = d.syms ∧ d'.type = typeOf elf name ∧
          textOf elf name = some (d'.shAddr, d'.shOffset)) E := by
    intro type htype hne
    rw [htype] at hne
    obtain ⟨haddr, hoff⟩ := hzero hne
    refine ends_pure ⟨rfl, rfl, rfl, rfl, htype, ?_⟩
    rw [textOf_eq_zero hne, haddr, hoff]
  rw [Dso.classify]
  split
  · rename_i hexec
    exact hother (by rw [typeOf, if_pos hexec]) nofun
  · rename_i hexec
    split
    · rename_i hdyn
      have htype : typeOf elf name = .dyn := by rw [typeOf, if_neg hexec, if_pos hdyn]
      have htext : textOf elf name = elf.textScn name := if_pos htype
      split
      · rename_i addr off hscn
        exact ends_pure ⟨rfl, rfl, rfl, rfl, htype.symm, htext.trans hscn⟩
      · rename_i hscn
        exact ends_throw (hfail (htext.trans hscn))
    · rename_i hdyn
      split
      · rename_i hvdso
        exact hother (by rw [typeOf, if_neg hexec, if_neg hdyn, if_pos hvdso]) nofun
      · rename_i hvdso
        exact hother (by rw [typeOf, if_neg hexec, if_neg hdyn, if_neg hvdso]) nofun

theorem sized_concat {size : Nat} (h : Sized lines asked)
    (hsize : size ≤ max 4096 (72 * lines.length)) : Sized lines (asked ++ [size]) := by
  intro s hs
  rcases List.mem_append.mp hs with hs | hs
  · exact h s hs
  · rw [List.mem_singleton.mp hs]
    exact hsize

/-- The object of the line gets its range, if there is memory for it. -/
theorem addRange_ends (hlines : lines = seen ++ l :: rest) (hkept : l.kept = true)
    (hname : d.name = some l.name ∨ d.name = none) (hranges : d.ranges = rangesOf seen l.name)
    (hzero : typeOf elf l.name ≠ .dyn → d.shAddr = 0 ∧ d.shOffset = 0) (hsyms : d.syms = [])
    (hsized : Sized lines asked) :
    Ends (d.addRange alloc elf l.range l.name) asked
      (fun d' after => OfName elf (seen ++ [l]) l.name d' ∧ d'.name = d.name ∧ Sized lines after ∧
        ¬ Refused alloc after ∧ (Granted alloc after ↔ Granted alloc asked))
      (NotMapped alloc elf lines) := by
  have hlen : d.ranges.length < lines.length := by
    have hle := rangesOf_length_le seen l.name
    rw [hranges, hlines, List.length_append, List.length_cons]
    omega
  have hsized' : Sized lines (asked ++ [24 * (d.ranges.length + 1)]) :=
    sized_concat hsized (by omega)
  have hread : textOf elf l.name = none → ¬ Readable elf lines := fun hnone hread =>
    hread l (hlines ▸ List.mem_append_right _ List.mem_cons_self) hkept hnone
  rw [Dso.addRange]
  split
  · rename_i hover
    exact ends_throw ⟨hsized, Or.inr (Nat.lt_of_lt_of_le hover hlen)⟩
  · refine ends_ask (fun hyes => ?_) fun hno => ⟨hsized', Or.inl (refused_concat.mpr hno)⟩
    refine Ends.imp (classify_ends hzero fun hnone => ⟨hsized', Or.inr (hread hnone)⟩) ?_
      fun _ _ hhalt => hhalt
    rintro d' after ⟨rfl, hname', hranges', hsyms', htype, htext⟩
    refine ⟨⟨hname' ▸ hname, ?_, htype, htext, hsyms'.trans hsyms⟩, hname', hsized', ?_, ?_⟩
    · rw [hranges', hranges, rangesOf_same hkept]
    · rw [refused_concat, hyes]
      nofun
    · rw [granted_concat, hyes, and_iff_left rfl]

theorem ends_strdup {α : Type} {f : Option (List UInt8) → Mem α} {P : α → List Nat → Prop}
    {E : Halt → List Nat → Prop}
    (h : Ends (f (if alloc asked (name.length + 1) then some name else none))
      (asked ++ [name.length + 1]) P E) : Ends (strdup alloc name >>= f) asked P E :=
  ⟨h.result, h.halt⟩

/-- A new object has its name if there is memory for that. -/
theorem newDso_ends {n : Nat} (hn : n < lines.length) (hname : name.length < 4096)
    (hsized : Sized lines asked) :
    Ends (newDso alloc n name) asked
      (fun d after => (∃ copy, d = ⟨copy, [], 0, 0, .exec, []⟩ ∧ (copy = some name ∨ copy = none)) ∧
        Sized lines after ∧ (Granted alloc after ↔ Granted alloc asked ∧ d.name ≠ none))
      (NotMapped alloc elf lines) := by
  have hsized' : Sized lines (asked ++ [72 * (n + 1)]) := sized_concat hsized (by omega)
  rw [newDso]
  split
  · rename_i hover
    exact ends_throw ⟨hsized, Or.inr (Nat.lt_of_lt_of_le hover hn)⟩
  · refine ends_ask (fun hyes => ends_strdup (ends_pure ?_)) fun hno =>
      ⟨hsized', Or.inl (refused_concat.mpr hno)⟩
    refine ⟨⟨_, rfl, ?_⟩, sized_concat hsized' (by omega), ?_⟩
    · split
      · exact Or.inl rfl
      · exact Or.inr rfl
    · rw [granted_concat, granted_concat, hyes, and_iff_left rfl]
      split
      · rename_i hgranted
        exact and_congr_right fun _ => iff_of_true hgranted nofun
      · rename_i hno
        exact and_congr_right fun _ => iff_of_false hno fun hne => hne rfl

theorem known_cons {dsos : List Dso} (h : d.name ≠ none) : Known (d :: dsos) ↔ Known dsos := by
  rw [Known, List.forall_mem_cons, and_iff_right h]
  rfl

theorem objects_other {names : List (List UInt8)} {dsos : List Dso}
    (h : List.Forall₂ (OfName elf lines) names dsos) (hnew : l.name ∉ names) :
    List.Forall₂ (OfName elf (lines ++ [l])) names dsos := by
  induction h with
  | nil => exact .nil
  | cons hd htail ih =>
      rw [List.mem_cons, not_or] at hnew
      exact .cons (hd.other (Or.inr (Ne.symm hnew.1))) (ih hnew.2)

/-- The line's object is a new one, behind all others. -/
theorem addDso_new_ends (hlines : lines = seen ++ l :: rest) (hkept : l.kept = true)
    (hname : l.name.length < 4096) (hsized : Sized lines asked) {n : Nat} (hn : n < lines.length)
    (hseen : rangesOf seen l.name = []) (hgranted : Granted alloc asked) :
    Ends (addDso alloc elf l.range l.name n []) asked
      (fun dsos' after => List.Forall₂ (OfName elf (seen ++ [l])) [l.name] dsos' ∧
        Logged alloc lines dsos' after)
      (NotMapped alloc elf lines) := by
  rw [addDso]
  refine ends_bind (newDso_ends hn hname hsized) ?_
  rintro d after ⟨⟨copy, rfl, hcopy⟩, hsized, hnewGranted⟩
  refine ends_bind (addRange_ends hlines hkept hcopy hseen.symm (fun _ => ⟨rfl, rfl⟩) rfl hsized) ?_
  rintro d' after' ⟨hof, hname', hsized, hrefused, hsame⟩
  refine ends_pure ⟨.cons hof .nil, hsized, hrefused, ?_⟩
  rw [hsame, hnewGranted, and_iff_right hgranted, Known, List.forall_mem_singleton, hname']

/-- The object of the line, an old one or a new one, gets its range; the others
stay as they are. -/
theorem addDso_ends (hlines : lines = seen ++ l :: rest) (hkept : l.kept = true)
    (hname : l.name.length < 4096) (hsized : Sized lines asked) {names : List (List UInt8)}
    {dsos : List Dso} {n : Nat} (hobjects : List.Forall₂ (OfName elf seen) names dsos)
    (hnodup : names.Nodup) (hnew : l.name ∉ names → rangesOf seen l.name = [])
    (hn : n + names.length < lines.length)
    (hgranted : Granted alloc asked ↔ Known dsos) :
    Ends (addDso alloc elf l.range l.name n dsos) asked
      (fun dsos' after => List.Forall₂ (OfName elf (seen ++ [l]))
        (if l.name ∈ names then names else names ++ [l.name]) dsos' ∧ Logged alloc lines dsos' after)
      (NotMapped alloc elf lines) := by
  induction hobjects generalizing n with
  | nil =>
      rw [if_neg List.not_mem_nil, List.nil_append]
      exact addDso_new_ends hlines hkept hname hsized hn (hnew List.not_mem_nil)
        (hgranted.mpr nofun)
  | @cons name d names dsos hd htail ih =>
      obtain ⟨hnot, hnodup⟩ := List.nodup_cons.mp hnodup
      rw [addDso]
      rcases hd.known with hown | hown
      · have hknown : d.name ≠ none := by
          rw [hown]
          nofun
        rw [known_cons hknown] at hgranted
        simp only [hown]
        split
        · rename_i heq
          subst heq
          refine ends_bind (addRange_ends hlines hkept hd.known hd.ranges hd.place_eq_zero hd.syms
            hsized) ?_
          rintro d' after ⟨hof, hname', hsized, hrefused, hsame⟩
          rw [if_pos List.mem_cons_self]
          refine ends_pure ⟨.cons hof (objects_other htail hnot), hsized, hrefused, ?_⟩
          rw [hsame, hgranted, known_cons (hname' ▸ hknown)]
        · rename_i hne
          have hmem : l.name ∈ name :: names ↔ l.name ∈ names :=
            List.mem_cons.trans (or_iff_right fun heq => hne heq.symm)
          have hrest := ih hnodup (fun hnot => hnew (mt hmem.mp hnot))
            (show n + 1 + names.length < lines.length by
              rw [List.length_cons] at hn
              omega) hgranted
          refine ends_bind hrest ?_
          rintro dsos' after ⟨hobjects, hlogged⟩
          refine ends_pure ⟨?_, hlogged.sized, hlogged.not_refused, ?_⟩
          · have hcons := List.Forall₂.cons (hd.other (Or.inr hne)) hobjects
            simp only [hmem]
            split
            · rename_i hin
              rwa [if_pos hin] at hcons
            · rename_i hin
              rwa [if_neg hin] at hcons
          · rw [known_cons hknown]
            exact hlogged.granted_iff
      · simp only [hown]
        refine ends_throw ⟨hsized, Or.inl fun hall => ?_⟩
        exact hgranted.mp hall d List.mem_cons_self hown

/-- A line that is not kept changes nothing. -/
theorem Built.skip {dsos : List Dso} (h : Built elf seen dsos) (hkept : l.kept = false) :
    Built elf (seen ++ [l]) dsos := by
  rw [Built, namesOf_skip hkept]
  exact List.Forall₂.imp (fun _ _ hd => hd.other (Or.inl hkept)) h

/-- The lines that are left are read one after the other. -/
theorem symsLoop_ends (hwell : ∀ l ∈ rest, l.WellFormed) {fuel : Nat} {dsos : List Dso}
    {file : List UInt8} (hlines : lines = seen ++ rest) (hfuel : rest.length < fuel)
    (hfile : AtText file (rest.flatMap MapsLine.text)) (hbuilt : Built elf seen dsos)
    (hlogged : Logged alloc lines dsos asked) :
    Ends (symsLoop alloc elf fuel dsos file) asked
      (fun dsos' after => Built elf lines dsos' ∧ Logged alloc lines dsos' after)
      (NotMapped alloc elf lines) := by
  induction rest generalizing fuel dsos file seen asked with
  | nil =>
      obtain ⟨fuel, rfl⟩ := Nat.exists_eq_succ_of_ne_zero (Nat.ne_of_gt hfuel)
      have hend : (scanf mapsFormat file).ret = none := by
        rw [mapsFormat, scanf_num_end hfile]
        rfl
      rw [List.append_nil] at hlines
      simp only [symsLoop, hend]
      exact ends_pure ⟨hlines ▸ hbuilt, hlogged⟩
  | cons l rest ih =>
      obtain ⟨fuel, rfl⟩ := Nat.exists_eq_succ_of_ne_zero (Nat.ne_of_gt (Nat.zero_lt_of_lt hfuel))
      have hl := hwell l List.mem_cons_self
      obtain ⟨r, hscan, hret, ⟨major, minor, inode, hvals⟩, hrest⟩ :=
        MapsLine.scanf_text hl (rest.flatMap MapsLine.text)
      have hr : scanf mapsFormat file = r := (scanf_num_at hfile).trans hscan
      have htail : l.tail.takeWhile (· ≠ 0) = l.tail :=
        List.takeWhile_eq_self_iff.mpr fun c hc => decide_eq_true (hl.tail c hc).2
      have hsplit : lines = (seen ++ [l]) ++ rest := by
        rw [hlines, List.append_assoc, List.singleton_append]
      have hnext : ∀ {dsos asked}, Built elf (seen ++ [l]) dsos → Logged alloc lines dsos asked →
          Ends (symsLoop alloc elf fuel dsos r.rest) asked
            (fun dsos' after => Built elf lines dsos' ∧ Logged alloc lines dsos' after)
            (NotMapped alloc elf lines) := fun hbuilt hlogged =>
        ih (fun l hl => hwell l (List.mem_cons_of_mem _ hl)) hsplit (Nat.lt_of_succ_lt_succ hfuel)
          hrest hbuilt hlogged
      simp only [symsLoop, hr, hret, hvals, if_neg (Nat.not_le.mpr hl.tail_lt), htail]
      by_cases hperm : byteAt l.perm 2 = 120
      · rw [if_neg (not_not.mpr hperm), ← MapsLine.name]
        by_cases hbacked : isFileBacked l.name = true
        · have hkept : l.kept = true := by
            rw [MapsLine.kept, hperm, hbacked]
            rfl
          have hname : l.name.length < 4096 :=
            Nat.lt_of_le_of_lt (List.dropWhile_sublist _).length_le hl.tail_lt
          have hn : 0 + (namesOf seen).length < lines.length := by
            have hle := (namesOf_nodup seen).2
            rw [hlines, List.length_append, List.length_cons]
            omega
          rw [if_pos hbacked]
          refine ends_bind (addDso_ends hlines hkept hname hlogged.sized hbuilt
            (namesOf_nodup seen).1 rangesOf_eq_nil hn hlogged.granted_iff) ?_
          rintro dsos' after ⟨hobjects, hlogged⟩
          refine hnext ?_ hlogged
          rwa [Built, namesOf_concat hkept]
        · rw [if_neg hbacked]
          refine hnext (hbuilt.skip ?_) hlogged
          rw [MapsLine.kept, Bool.eq_false_iff.mpr hbacked, Bool.and_false]
      · rw [if_pos hperm]
        refine hnext (hbuilt.skip ?_) hlogged
        rw [MapsLine.kept, beq_eq_false_iff_ne.mpr hperm, Bool.false_and]

theorem Built.readable {dsos : List Dso} (h : Built elf lines dsos) : Readable elf lines := by
  intro l hl hkept hnone
  obtain ⟨i, hi, heq⟩ := List.getElem_of_mem (mem_namesOf hl hkept)
  have hof := h.get (by simpa using hi) (h.length_eq ▸ hi)
  have htext := hof.text
  rw [List.get_eq_getElem, heq, hnone] at htext
  cases htext

theorem symsLoad_ends (alloc : Allocator) (elf : Elf) (h : ∀ l ∈ lines, l.WellFormed) :
    Ends (symsLoad alloc elf (lines.flatMap MapsLine.text)) []
      (fun dsos asked => Built elf lines dsos ∧ Logged alloc lines dsos asked)
      (NotMapped alloc elf lines) := by
  have hsized : Sized lines ([] ++ [16]) := sized_concat nofun (by omega)
  refine ends_ask (fun hyes => ?_) fun hno => ⟨hsized, Or.inl (refused_concat.mpr hno)⟩
  have hlogged : Logged alloc lines [] ([] ++ [16]) := by
    refine ⟨hsized, ?_, iff_of_true (granted_concat.mpr ⟨granted_nil alloc, hyes⟩) nofun⟩
    rw [refused_concat, hyes]
    nofun
  exact symsLoop_ends h (List.nil_append _).symm length_lt_of_maps rfl .nil hlogged

/-- What is loaded are the kept lines, grouped by name; nothing only if memory
that was asked for was refused, or a library has no `.text`. -/
theorem load_maps (alloc : Allocator) (elf : Elf) (h : ∀ l ∈ lines, l.WellFormed) :
    Ends (symsLoad alloc elf (lines.flatMap MapsLine.text)) []
      (fun dsos asked => Readable elf lines ∧ Built elf lines dsos ∧ Logged alloc lines dsos asked)
      (NotMapped alloc elf lines) :=
  (symsLoad_ends alloc elf h).imp (fun _ _ hboth => ⟨hboth.1.readable, hboth⟩)
    fun _ _ hhalt => hhalt

end Add

/-! ## A program and its library -/

/-- The second executable part of a library. -/
def secondPart : MapsLine :=
  ⟨cstr ['7', 'f', 'a', '0', '0', '0'], cstr ['7', 'f', 'c', '0', '0', '0'],
    cstr ['r', '-', 'x', 'p'], cstr ['6', '0', '0', '0'], cstr ['8'], cstr ['1'],
    cstr ['1', '8', '3', '5'], cstr [' ', ' ', '/', 'l', 'i', 'b', '/', 'c']⟩

/-- A heap, a program, and the library. -/
def programMaps : List MapsLine :=
  [⟨cstr ['5', '5', 'd', '0'], cstr ['5', '5', 'f', '0'], cstr ['r', 'w', '-', 'p'], cstr ['0'],
      cstr ['0'], cstr ['0'], cstr ['0'], cstr [' ', '[', 'h', 'e', 'a', 'p', ']']⟩,
    ⟨cstr ['4', '0', '0', '0', '0', '0'], cstr ['4', '0', '1', '0', '0', '0'],
      cstr ['r', '-', 'x', 'p'], cstr ['0'], cstr ['8'], cstr ['1'], cstr ['7', '2'],
      cstr [' ', ' ', '/', 'b', 'i', 'n', '/', 'a']⟩,
    ⟨cstr ['7', 'f', '3', '0', '0', '0'], cstr ['7', 'f', '5', '0', '0', '0'],
      cstr ['r', '-', 'x', 'p'], cstr ['2', '0', '0', '0'], cstr ['8'], cstr ['1'],
      cstr ['1', '8', '3', '5'], cstr [' ', ' ', '/', 'l', 'i', 'b', '/', 'c']⟩,
    secondPart]

def libraryName : List UInt8 := cstr ['/', 'l', 'i', 'b', '/', 'c']

def librarySyms : List Sym :=
  [⟨cstr ['r', 'e', 'a', 'd'], 0x3200, 16⟩, ⟨cstr ['o', 'p', 'e', 'n'], 0x3180, 16⟩,
    ⟨cstr ['e', 'x', 'i', 't'], 0xa010, 16⟩]

/-- The `.text` of the library is at 0x3100, and at 0x2100 in the file. -/
def programElf : Elf where
  fileType name := if name = libraryName then some 3 else some 2
  textScn _ := some (0x3100, 0x2100)
  symtab name :=
    if name = libraryName then .entries librarySyms
    else .entries [⟨cstr ['m', 'a', 'i', 'n'], 0x400010, 16⟩]

theorem programMaps_wellFormed : ∀ l ∈ programMaps, l.WellFormed := by decide +kernel

theorem load_maps_program :
    Ends (symsLoad (fun _ size => size < 100) programElf (programMaps.flatMap MapsLine.text)) []
      (fun dsos asked => Readable programElf programMaps ∧ Built programElf programMaps dsos ∧
        Logged (fun _ size => size < 100) programMaps dsos asked)
      (NotMapped (fun _ size => size < 100) programElf programMaps) :=
  load_maps (fun _ size => size < 100) programElf programMaps_wellFormed

end NetProbes.Symbols
