/-
# `NetProbes.Symbols.Ksyms` — the symbols of the kernel

`ksyms__load` reads `/proc/kallsyms`, one symbol a line:

    ffffffff81000000 T startup_64
    ffffffffc0a01000 t nf_hook     [demo]

The names go into one block of memory, each with a zero behind it, and a symbol
has the offset of its name as long as the block may still move.  At the end the
offsets become names, and the table is sorted by address, then name.

    load_kallsyms    what is loaded are the symbols of the file, sorted
    map_addr_spec    an address belongs to the last symbol that is not behind it
    get_symbol_spec  a name is found at its lowest address

Memory that is refused ends the load.  The sizes are `int`s: that `cap * 4`
does not fit into one, or that a name does not fit into the buffer it is read
into (`sym_name[256]`), is beyond the language.  The file is there; the memory
that reading it takes is not the program's.
-/
import NetProbes.Lib.Alloc
import NetProbes.Lib.Scanf
import NetProbes.Lib.SortedTable

namespace NetProbes.Symbols

open NetProbes.Lib

/-! ## The table while it is built -/

/-- `struct ksym`, with its name. -/
structure Ksym where
  name : List UInt8
  addr : UInt64
  deriving DecidableEq

/-- The largest `int`. -/
def intMax : Nat := 2147483647

/-- `struct ksyms`: a symbol has the offset of its name in `strs`, and each name
has its zero there. -/
structure Ksyms where
  syms : List (Nat × UInt64)
  symsCap : Nat
  strs : List UInt8
  strsCap : Nat
  syms_le : syms.length ≤ symsCap
  symsCap_le : symsCap ≤ intMax
  strs_le : strs.length ≤ strsCap
  strsCap_le : strsCap ≤ intMax
  syms_le_strs : syms.length ≤ strs.length

/-- `calloc`. -/
def Ksyms.empty : Ksyms where
  syms := []
  symsCap := 0
  strs := []
  strsCap := 0
  syms_le := Nat.le_refl _
  symsCap_le := Nat.zero_le _
  strs_le := Nat.le_refl _
  strsCap_le := Nat.zero_le _
  syms_le_strs := Nat.le_refl _

/-- What a capacity grows to if there is no overflow: a third more, but `need`
and 1024 at least. -/
def grown (cap need : Nat) : Nat := max (max (cap * 4 / 3) need) 1024

theorem le_grown (cap need : Nat) : need ≤ grown cap need := by
  simp only [grown]
  omega

theorem grown_le {cap need : Nat} (hcap : ¬ intMax < cap * 4) (hneed : need ≤ cap + 256) :
    grown cap need ≤ intMax := by
  simp only [grown, intMax] at *
  omega

/-- A third more is room for one more, because the capacity starts at 1024. -/
theorem lt_grown (cap : Nat) : cap + 1 ≤ grown cap 0 := by
  simp only [grown]
  omega

/-- The check of `ksyms__add_symbol` for `need` bytes of `strs`. -/
def growStrs (alloc : Allocator) (cap need : Nat) (hcap : cap ≤ intMax) (hneed : need ≤ cap + 256) :
    Mem { new : Nat // need ≤ new ∧ new ≤ intMax } :=
  if hle : need ≤ cap then pure ⟨cap, hle, hcap⟩
  else if hover : intMax < cap * 4 then throw .undefined
  else do
    ask alloc (grown cap need)
    pure ⟨grown cap need, le_grown cap need, grown_le hover hneed⟩

/-- The check for one symbol more than the `n` there are; `sizeof(struct ksym)`
is 16. -/
def growSyms (alloc : Allocator) (n cap : Nat) (hn : n ≤ cap) (hcap : cap ≤ intMax) :
    Mem { new : Nat // n + 1 ≤ new ∧ new ≤ intMax } :=
  if hle : n + 1 ≤ cap then pure ⟨cap, hle, hcap⟩
  else if hover : intMax < cap * 4 then throw .undefined
  else do
    ask alloc (16 * grown cap 0)
    pure ⟨grown cap 0, Nat.le_trans (Nat.add_le_add_right hn 1) (lt_grown cap),
      grown_le hover (Nat.zero_le _)⟩

/-- The two blocks after a symbol was added. -/
def Ksyms.added (k : Ksyms) (name : List UInt8) (addr : UInt64)
    (strsCap : { new : Nat // k.strs.length + (name.length + 1) ≤ new ∧ new ≤ intMax })
    (symsCap : { new : Nat // k.syms.length + 1 ≤ new ∧ new ≤ intMax }) : Ksyms where
  syms := k.syms ++ [(k.strs.length, addr)]
  symsCap := symsCap.1
  strs := k.strs ++ (name ++ [0])
  strsCap := strsCap.1
  syms_le := by simpa using symsCap.2.1
  symsCap_le := symsCap.2.2
  strs_le := by simpa using strsCap.2.1
  strsCap_le := strsCap.2.2
  syms_le_strs := by
    have hle := k.syms_le_strs
    simp only [List.length_append, List.length_cons, List.length_nil]
    omega

theorem Ksyms.need_le (k : Ksyms) {name : List UInt8} (hname : name.length < 256) :
    k.strs.length + (name.length + 1) ≤ k.strsCap + 256 :=
  Nat.add_le_add k.strs_le hname

/-- `ksyms__add_symbol`. -/
def addSymbol (alloc : Allocator) (k : Ksyms) (name : List UInt8) (hname : name.length < 256)
    (addr : UInt64) : Mem Ksyms := do
  let strsCap ← growStrs alloc k.strsCap (k.strs.length + (name.length + 1)) k.strsCap_le
    (k.need_le hname)
  let symsCap ← growSyms alloc k.syms.length k.symsCap k.syms_le k.symsCap_le
  pure (k.added name addr strsCap symsCap)

/-! ## Loading -/

/-- `strcmp` of strings without zeros. -/
def strcmp (s t : List UInt8) : Ordering := compare s t

/-- `ksym_cmp`. -/
def ksymCmp (s₁ s₂ : Ksym) : Ordering :=
  if s₁.addr = s₂.addr then strcmp s₁.name s₂.name
  else if s₁.addr < s₂.addr then .lt
  else .gt

/-- `"%lx %c %s%*[^\n]\n"`. -/
def kallsymsFormat : List Directive :=
  [.conv (.num 16), .space, .conv .char, .space, .conv (.string none), .skip .line, .space]

/-- The symbols with their names, sorted. -/
def Ksyms.table (k : Ksyms) : List Ksym :=
  sortBy ksymCmp (k.syms.map fun s => ⟨(stringAt (k.strs.drop s.1)).getD [], s.2⟩)

theorem length_takeWhile_lt {name : List UInt8} {n : Nat} (h : ¬ n ≤ name.length) :
    (name.takeWhile (· ≠ 0)).length < n :=
  Nat.lt_of_le_of_lt (List.takeWhile_sublist _).length_le (Nat.not_le.mp h)

/-- The loop of `ksyms__load`. -/
def loadLoop (alloc : Allocator) : Nat → Ksyms → List UInt8 → Mem (List Ksym)
  | 0, _, _ => throw .running
  | fuel + 1, k, file =>
      let r := scanf kallsymsFormat file
      match r.ret with
      | none => pure k.table
      | some ret =>
          if ret ≠ 3 then throw .failed
          else
            match r.vals with
            | [.num addr, .char _, .text name] =>
                if hlong : 256 ≤ name.length then throw .undefined
                else do
                  let k ← addSymbol alloc k (name.takeWhile (· ≠ 0)) (length_takeWhile_lt hlong) addr
                  loadLoop alloc fuel k r.rest
            | _ => throw .failed

/-- `ksyms__load` from the text of `/proc/kallsyms`; `sizeof(struct ksyms)` is
32. -/
def ksymsLoad (alloc : Allocator) (file : List UInt8) : Mem (List Ksym) := do
  ask alloc 32
  loadLoop alloc (file.length + 1) .empty file

/-- `ksyms__map_addr`. -/
def mapAddr (syms : List Ksym) (addr : UInt64) : Option Ksym := lastWhere syms (·.addr ≤ addr)

/-- `ksyms__get_symbol`. -/
def getSymbol (syms : List Ksym) (name : List UInt8) : Option Ksym :=
  syms.find? fun s => strcmp s.name name = .eq

/-! ## The file -/

/-- A line: the digits of the address, the type, the name, and what follows,
which is nothing or a module. -/
structure Line where
  digits : List UInt8
  type : UInt8
  name : List UInt8
  tail : List UInt8

def Line.text (l : Line) : List UInt8 :=
  l.digits ++ 32 :: l.type :: 32 :: (l.name ++ (l.tail ++ [10]))

/-- The symbol of a line. -/
def Line.ksym (l : Line) : Ksym := ⟨l.name, UInt64.ofNat (numeralValue 16 l.digits)⟩

/-- What the kernel prints. -/
@[mk_iff] structure Line.WellFormed (l : Line) : Prop where
  digits : IsNumeral 16 l.digits
  addr_lt : numeralValue 16 l.digits < 18446744073709551616
  type : isSpace l.type = false
  name_ne_nil : l.name ≠ []
  name : ∀ c ∈ l.name, isSpace c = false ∧ c ≠ 0
  name_lt : l.name.length < 256
  tail : SpaceOrEnd l.tail
  tail_line : ∀ c ∈ l.tail, c ≠ 10

instance (l : Line) : Decidable l.WellFormed := decidable_of_iff _ (Line.wellFormed_iff l).symm

/-- The bytes that the names take, each with its zero. -/
def namesSize (lines : List Line) : Nat := (lines.map fun l => l.name.length + 1).sum

/-- All was granted so far, and nothing was asked for that is much larger than the
`total` bytes of names there are to keep. -/
structure Served (alloc : Allocator) (total : Nat) (asked : List Nat) : Prop where
  granted : Granted alloc asked
  size_le : ∀ size ∈ asked, size ≤ 16 * max 1024 (total * 4 / 3)

/-- Why nothing is loaded: a request was refused, and all before it served; or a
size outgrew an `int`, and that is with more than half a gigabyte of names
only. -/
def NotLoaded (alloc : Allocator) (total : Nat) : Halt → List Nat → Prop
  | .failed, asked => ∃ before size, asked = before ++ [size] ∧ Served alloc total before ∧
      size ≤ 16 * max 1024 (total * 4 / 3) ∧ alloc before size = false
  | .undefined, asked => Served alloc total asked ∧ 536870912 < total
  | .running, _ => False

/-- The table holds the symbols of the lines read so far. -/
def Spelled (k : Ksyms) (syms : List Ksym) : Prop :=
  List.Forall₂ (fun s e => stringAt (k.strs.drop s.1) = some e.name ∧ s.2 = e.addr) k.syms syms

section Strings

/-- A string that ends in some memory is the same with more behind it. -/
theorem stringAt_append {mem s : List UInt8} (h : stringAt mem = some s) (more : List UInt8) :
    stringAt (mem ++ more) = some s := by
  simp only [stringAt] at h ⊢
  split at h
  · rename_i hmem
    have hne : ¬ (mem.takeWhile (· != 0)).length = mem.length := by
      intro heq
      have hself : mem.takeWhile (· != 0) = mem :=
        (List.takeWhile_sublist _).eq_of_length heq
      have hzero := List.takeWhile_eq_self_iff.mp hself 0 hmem
      simp at hzero
    rw [if_pos (List.mem_append_left _ hmem), List.takeWhile_append, if_neg hne]
    exact h
  · cases h

theorem stringAt_name {name : List UInt8} (h : ∀ c ∈ name, c ≠ 0) (more : List UInt8) :
    stringAt (name ++ 0 :: more) = some name := by
  rw [stringAt, if_pos (by simp), List.takeWhile_append_of_pos (fun c hc => by simp [h c hc]),
    List.takeWhile_cons_of_neg (by simp), List.append_nil]

end Strings

section Load

variable {alloc : Allocator} {k : Ksyms} {syms : List Ksym} {asked : List Nat} {total : Nat}

/-- A new symbol leaves the names of the others. -/
theorem spelled_added (h : Spelled k syms) {name : List UInt8} (hname : ∀ c ∈ name, c ≠ 0)
    (addr : UInt64)
    (strsCap : { new : Nat // k.strs.length + (name.length + 1) ≤ new ∧ new ≤ intMax })
    (symsCap : { new : Nat // k.syms.length + 1 ≤ new ∧ new ≤ intMax }) :
    Spelled (k.added name addr strsCap symsCap) (syms ++ [⟨name, addr⟩]) := by
  refine List.rel_append (h.imp ?_) (.cons ⟨?_, rfl⟩ .nil)
  · intro s e hs
    refine ⟨?_, hs.2⟩
    have hle : s.1 ≤ k.strs.length := by
      by_contra hgt
      rw [List.drop_eq_nil_of_le (by omega)] at hs
      cases hs.1
    show stringAt ((k.strs ++ (name ++ [0])).drop s.1) = some e.name
    rw [List.drop_append_of_le_length hle]
    exact stringAt_append hs.1 _
  · show stringAt ((k.strs ++ (name ++ [0])).drop k.strs.length) = some name
    rw [List.drop_left]
    exact stringAt_name hname []

theorem Spelled.table (h : Spelled k syms) : k.table = sortBy ksymCmp syms := by
  rw [Ksyms.table]
  have hrel : List.Forall₂ (fun a b => a = b)
      (k.syms.map fun s => (⟨(stringAt (k.strs.drop s.1)).getD [], s.2⟩ : Ksym)) syms := by
    rw [List.forall₂_map_left_iff]
    refine h.imp fun s e hs => ?_
    rw [hs.1, hs.2]
    rfl
  exact congrArg (sortBy ksymCmp) (List.forall₂_eq_eq_eq ▸ hrel)

/-- What is left after a line, up to white space. -/
theorem scanf_line {l : Line} (h : l.WellFormed) (more : List UInt8) :
    ∃ r, scanf kallsymsFormat (l.text ++ more) = r ∧ r.ret = some 3 ∧
      r.vals = [.num l.ksym.addr, .char l.type, .text l.name] ∧
      AtText r.rest more := by
  have hnum : scanConv (.num 16) (l.text ++ more)
      = .ok (.num l.ksym.addr, 32 :: l.type :: 32 :: (l.name ++ (l.tail ++ 10 :: more))) := by
    have htext : l.text ++ more
        = l.digits ++ 32 :: l.type :: 32 :: (l.name ++ (l.tail ++ 10 :: more)) := by
      simp [Line.text]
    rw [htext]
    exact scanConv_num (Or.inr rfl) h.digits (fun c hc => by cases hc; rfl) h.addr_lt
  have htype : (32 :: l.type :: 32 :: (l.name ++ (l.tail ++ 10 :: more))).dropWhile isSpace
      = l.type :: 32 :: (l.name ++ (l.tail ++ 10 :: more)) := by
    rw [List.dropWhile_cons_of_pos (by decide), List.dropWhile_cons_of_neg (by simp [h.type])]
  have hspace : (32 :: (l.name ++ (l.tail ++ 10 :: more))).dropWhile isSpace
      = l.name ++ (l.tail ++ 10 :: more) :=
    dropWhile_space_word h.name_ne_nil fun c hc => (h.name c hc).1
  have hrest : SpaceOrEnd (l.tail ++ 10 :: more) := by
    cases htail : l.tail with
    | nil => exact fun c hc => by cases hc; rfl
    | cons b tail => exact fun c hc => h.tail c (by rw [htail]; exact hc)
  have hname : scanConv (.string none) (l.name ++ (l.tail ++ 10 :: more))
      = .ok (.text l.name, l.tail ++ 10 :: more) :=
    scanConv_string h.name_ne_nil (fun c hc => (h.name c hc).1) hrest (fun _ hw => by cases hw)
  have hfront : ∀ fmt, scanf (.conv (.num 16) :: .space :: .conv .char :: .space ::
      .conv (.string none) :: fmt) (l.text ++ more)
        = (((scanf fmt (l.tail ++ 10 :: more)).cons (.text l.name)).cons (.char l.type)).cons
          (.num l.ksym.addr) := by
    intro fmt
    rw [scanf_conv hnum, scanf_space, htype, scanf_conv rfl, scanf_space, hspace, scanf_conv hname]
  refine ⟨_, rfl, ?_⟩
  rw [kallsymsFormat, hfront]
  by_cases htail : l.tail = []
  · -- nothing is behind the name: the line end does not match, and stays
    rw [htail, List.nil_append, scanf_skip_error scanConv_line_empty]
    exact ⟨rfl, rfl, List.dropWhile_cons_of_pos rfl⟩
  · rw [scanf_skip (scanConv_line htail h.tail_line), scanf_space]
    refine ⟨rfl, rfl, ?_⟩
    show ((10 :: more).dropWhile isSpace).dropWhile isSpace = _
    rw [List.dropWhile_idempotent, List.dropWhile_cons_of_pos rfl]

/-- A request that is not too large. -/
theorem ask_loads {α : Type} {P : α → List Nat → Prop} {f : Unit → Mem α}
    (hasked : Served alloc total asked) {size : Nat} (hsize : size ≤ 16 * max 1024 (total * 4 / 3))
    (hf : ∀ asked, Served alloc total asked → Ends (f ()) asked P (NotLoaded alloc total)) :
    Ends (ask alloc size >>= f) asked P (NotLoaded alloc total) := by
  refine ends_ask (fun h => hf _ ⟨granted_concat.mpr ⟨hasked.granted, h⟩, fun s hs => ?_⟩)
    fun h => ⟨asked, size, rfl, hasked, hsize, h⟩
  rcases List.mem_append.mp hs with hs | hs
  · exact hasked.size_le s hs
  · rw [List.mem_singleton.mp hs]
    exact hsize

theorem growStrs_loads (hasked : Served alloc total asked) {cap need : Nat} (hcap : cap ≤ intMax)
    (hneed : need ≤ cap + 256) (htotal : need ≤ total) :
    Ends (growStrs alloc cap need hcap hneed) asked (fun _ => Served alloc total)
      (NotLoaded alloc total) := by
  rw [growStrs]
  split
  · exact ends_pure hasked
  · split
    · rename_i hover
      refine ends_throw ⟨hasked, ?_⟩
      simp only [intMax] at hover
      omega
    · have hsize : grown cap need ≤ 16 * max 1024 (total * 4 / 3) := by
        simp only [grown]
        omega
      exact ask_loads hasked hsize fun _ hasked => ends_pure hasked

theorem growSyms_loads (hasked : Served alloc total asked) {n cap : Nat} (hn : n ≤ cap)
    (hcap : cap ≤ intMax) (htotal : n + 1 ≤ total) :
    Ends (growSyms alloc n cap hn hcap) asked (fun _ => Served alloc total)
      (NotLoaded alloc total) := by
  rw [growSyms]
  split
  · exact ends_pure hasked
  · split
    · rename_i hover
      refine ends_throw ⟨hasked, ?_⟩
      simp only [intMax] at hover
      omega
    · have hsize : 16 * grown cap 0 ≤ 16 * max 1024 (total * 4 / 3) := by
        simp only [grown]
        omega
      exact ask_loads hasked hsize fun _ hasked => ends_pure hasked

/-- A symbol is added if there is room for it. -/
theorem addSymbol_loads (hasked : Served alloc total asked) (hk : Spelled k syms)
    {name : List UInt8} (hname : ∀ c ∈ name, c ≠ 0) (hlt : name.length < 256) (addr : UInt64)
    (htotal : k.strs.length + (name.length + 1) ≤ total) :
    Ends (addSymbol alloc k name hlt addr) asked (fun k' asked =>
      (Spelled k' (syms ++ [⟨name, addr⟩]) ∧
        k'.strs.length = k.strs.length + (name.length + 1)) ∧ Served alloc total asked)
      (NotLoaded alloc total) := by
  have hsyms : k.syms.length + 1 ≤ total :=
    Nat.le_trans (Nat.add_le_add k.syms_le_strs (Nat.le_add_left 1 _)) htotal
  refine ends_bind (growStrs_loads hasked _ _ htotal) fun strsCap _ hasked =>
    ends_bind (growSyms_loads hasked _ _ hsyms) fun symsCap _ hasked =>
      ends_pure ⟨⟨spelled_added hk hname addr strsCap symsCap, ?_⟩, hasked⟩
  simp [Ksyms.added]

theorem addSymbol_congr {name name' : List UInt8} (h : name = name') {hlt : name.length < 256}
    {addr : UInt64} : addSymbol alloc k name hlt addr = addSymbol alloc k name' (h ▸ hlt) addr := by
  subst h
  rfl

/-- The lines that are left are read one after the other. -/
theorem loadLoop_loads {lines : List Line} (hlines : ∀ l ∈ lines, l.WellFormed) {fuel : Nat}
    {file : List UInt8} (hasked : Served alloc total asked)
    (hfuel : lines.length < fuel) (hfile : AtText file (lines.flatMap Line.text))
    (hk : Spelled k syms) (htotal : k.strs.length + namesSize lines ≤ total) :
    Ends (loadLoop alloc fuel k file) asked
      (fun table asked => table = sortBy ksymCmp (syms ++ lines.map Line.ksym) ∧
        Served alloc total asked) (NotLoaded alloc total) := by
  induction lines generalizing fuel k file syms asked with
  | nil =>
      obtain ⟨fuel, rfl⟩ := Nat.exists_eq_succ_of_ne_zero (Nat.ne_of_gt hfuel)
      have hend : (scanf kallsymsFormat file).ret = none := by
        rw [kallsymsFormat, scanf_num_end hfile]
        rfl
      simp only [loadLoop, hend]
      refine ends_pure ⟨?_, hasked⟩
      rw [hk.table, List.map_nil, List.append_nil]
  | cons l lines ih =>
      obtain ⟨fuel, rfl⟩ := Nat.exists_eq_succ_of_ne_zero (Nat.ne_of_gt (Nat.zero_lt_of_lt hfuel))
      have hl := hlines l List.mem_cons_self
      obtain ⟨r, hscan, hret, hvals, hrest⟩ := scanf_line hl (lines.flatMap Line.text)
      have hr : scanf kallsymsFormat file = r := (scanf_num_at hfile).trans hscan
      have hname : l.name.takeWhile (· ≠ 0) = l.name :=
        List.takeWhile_eq_self_iff.mpr fun c hc => decide_eq_true (hl.name c hc).2
      have hsize : namesSize (l :: lines) = l.name.length + 1 + namesSize lines := rfl
      have hstep : k.strs.length + (l.name.length + 1) ≤ total := by omega
      simp only [loadLoop, hr, hret, hvals, dif_neg (Nat.not_le.mpr hl.name_lt)]
      rw [addSymbol_congr hname]
      refine ends_bind (addSymbol_loads hasked hk (fun c hc => (hl.name c hc).2) hl.name_lt
        l.ksym.addr hstep) fun k' _ ⟨⟨hk', hlen⟩, hasked⟩ => ?_
      have hnext := ih (fun l hl => hlines l (List.mem_cons_of_mem _ hl)) hasked
        (Nat.lt_of_succ_lt_succ hfuel) hrest hk' (by omega)
      rwa [List.append_assoc] at hnext

theorem length_lt_of_lines {lines : List Line} :
    lines.length < (lines.flatMap Line.text).length + 1 := by
  induction lines with
  | nil => exact Nat.zero_lt_one
  | cons l lines ih =>
      have htext : 1 ≤ l.text.length := by
        simp only [Line.text, List.length_append, List.length_cons]
        omega
      rw [List.flatMap_cons, List.length_append, List.length_cons]
      omega

/-- What is loaded are the symbols of the file, sorted; nothing only if memory
that was asked for was refused. -/
theorem load_kallsyms (alloc : Allocator) {lines : List Line} (h : ∀ l ∈ lines, l.WellFormed) :
    Ends (ksymsLoad alloc (lines.flatMap Line.text)) []
      (fun table asked => table = sortBy ksymCmp (lines.map Line.ksym) ∧
        Served alloc (namesSize lines) asked)
      (NotLoaded alloc (namesSize lines)) := by
  have hstart : Served alloc (namesSize lines) [] := ⟨granted_nil alloc, nofun⟩
  have hsize : 32 ≤ 16 * max 1024 (namesSize lines * 4 / 3) := by omega
  exact ask_loads hstart hsize fun _ hasked =>
    loadLoop_loads h hasked length_lt_of_lines rfl (show Spelled .empty [] from .nil)
      (Nat.le_of_eq (Nat.zero_add _))

end Load

/-- A symbol of a module, and one of the kernel at a lower address. -/
def twoSymbols : List Line :=
  [⟨cstr ['f', 'f', 'f', 'f', 'f', 'f', 'f', 'f', 'c', '0', 'a', '0', '1', '0', '0', '0'], 116,
      cstr ['n', 'f', '_', 'h', 'o', 'o', 'k'], cstr ['\t', '[', 'd', 'e', 'm', 'o', ']']⟩,
    ⟨cstr ['f', 'f', 'f', 'f', 'f', 'f', 'f', 'f', '8', '1', '0', '0', '0', '0', '0', '0'], 84,
      cstr ['s', 't', 'a', 'r', 't', 'u', 'p'], []⟩]

theorem twoSymbols_wellFormed : ∀ l ∈ twoSymbols, l.WellFormed := by decide +kernel

theorem load_kallsyms_twoSymbols :
    Ends (ksymsLoad (fun _ size => size < 20000) (twoSymbols.flatMap Line.text)) []
      (fun table asked => table = sortBy ksymCmp (twoSymbols.map Line.ksym) ∧
        Served (fun _ size => size < 20000) (namesSize twoSymbols) asked)
      (NotLoaded (fun _ size => size < 20000) (namesSize twoSymbols)) :=
  load_kallsyms _ twoSymbols_wellFormed

/-! ## Looking up -/

/-- By a number first, then by a name. -/
theorem keyCmp_eq {α : Type} {key : α → UInt64} {name : α → List UInt8} {s₁ s₂ : α} :
    (if key s₁ = key s₂ then strcmp (name s₁) (name s₂)
      else if key s₁ < key s₂ then .lt else .gt)
        = compareLex (compareOn key) (compareOn name) s₁ s₂ := by
  simp only [compareLex, compareOn]
  split
  · rename_i heq
    rw [Std.compare_eq_iff_eq.mpr heq]
    rfl
  · rename_i hne
    split
    · rename_i hlt
      rw [Std.compare_eq_lt.mpr hlt]
      rfl
    · rename_i hge
      have hgt : compare (key s₁) (key s₂) = .gt := by
        cases hcmp : compare (key s₁) (key s₂) with
        | lt => exact absurd (Std.compare_eq_lt.mp hcmp) hge
        | eq => exact absurd (Std.compare_eq_iff_eq.mp hcmp) hne
        | gt => rfl
      rw [hgt]
      rfl

theorem key_le_of_isLE {α : Type} {key : α → UInt64} {name : α → List UInt8} {s₁ s₂ : α}
    (h : (compareLex (compareOn key) (compareOn name) s₁ s₂).isLE = true) : key s₁ ≤ key s₂ := by
  rw [← keyCmp_eq] at h
  split at h
  · rename_i heq
    rw [heq]
    exact UInt64.le_refl _
  · split at h
    · rename_i hlt
      exact UInt64.le_of_lt hlt
    · cases h

theorem ksymCmp_eq : ksymCmp = compareLex (compareOn Ksym.addr) (compareOn Ksym.name) :=
  funext fun _ => funext fun _ => keyCmp_eq

instance : Std.TransCmp ksymCmp := by
  rw [ksymCmp_eq]
  infer_instance

/-- Only the same address and the same name compare equal. -/
theorem ksymCmp_eq_eq {s₁ s₂ : Ksym} : ksymCmp s₁ s₂ = .eq ↔ s₁ = s₂ := by
  rw [ksymCmp_eq, compareLex_eq_eq, compareOn, compareOn, Std.compare_eq_iff_eq,
    Std.compare_eq_iff_eq]
  constructor
  · rintro ⟨haddr, hname⟩
    cases s₁
    cases s₂
    exact Ksym.mk.injEq .. ▸ ⟨hname, haddr⟩
  · rintro rfl
    exact ⟨rfl, rfl⟩

theorem addr_le_of_isLE {s₁ s₂ : Ksym} (h : (ksymCmp s₁ s₂).isLE = true) : s₁.addr ≤ s₂.addr :=
  key_le_of_isLE (ksymCmp_eq ▸ h)

/-- An address belongs to the last symbol, by address and name, that is not
behind it; to none if it is in front of all of them. -/
theorem map_addr_spec (syms : List Ksym) (addr : UInt64) :
    (mapAddr (sortBy ksymCmp syms) addr = none ↔ ∀ s ∈ syms, addr < s.addr) ∧
      ∀ s, mapAddr (sortBy ksymCmp syms) addr = some s ↔
        s ∈ syms ∧ s.addr ≤ addr ∧ ∀ t ∈ syms, t.addr ≤ addr → (ksymCmp t s).isLE = true := by
  have hle : ∀ s t : Ksym, (ksymCmp s t).isLE = true → decide (t.addr ≤ addr) = true →
      decide (s.addr ≤ addr) = true := fun s t hst ht =>
    decide_eq_true (UInt64.le_trans (addr_le_of_isLE hst) (of_decide_eq_true ht))
  have hsearch := lastWhere_sortBy hle syms
  have hnone : mapAddr (sortBy ksymCmp syms) addr = none ↔ ∀ s ∈ syms, addr < s.addr := by
    refine hsearch.1.trans (forall₂_congr fun s _ => ?_)
    rw [decide_eq_false_iff_not, UInt64.not_le]
  have hsome : ∀ {s}, mapAddr (sortBy ksymCmp syms) addr = some s →
      s ∈ syms ∧ s.addr ≤ addr ∧ ∀ t ∈ syms, t.addr ≤ addr → (ksymCmp t s).isLE = true := by
    intro s hs
    obtain ⟨hmem, hp, hlast⟩ := hsearch.2 s hs
    exact ⟨hmem, of_decide_eq_true hp, fun t ht hlet => hlast t ht (decide_eq_true hlet)⟩
  refine ⟨hnone, fun s => ⟨hsome, fun ⟨hs, hle, hlast⟩ => ?_⟩⟩
  cases hmap : mapAddr (sortBy ksymCmp syms) addr with
  | none => exact absurd hle (UInt64.not_le.mpr (hnone.mp hmap s hs))
  | some t =>
      obtain ⟨ht, hlet, hlastt⟩ := hsome hmap
      exact congrArg some (ksymCmp_eq_eq.mp
        (Std.OrientedCmp.isLE_antisymm (hlast t ht hlet) (hlastt s hs hle)))

/-- A name is found at the lowest address it has. -/
theorem get_symbol_spec (syms : List Ksym) (name : List UInt8) :
    (getSymbol (sortBy ksymCmp syms) name = none ↔ ∀ s ∈ syms, s.name ≠ name) ∧
      ∀ s, getSymbol (sortBy ksymCmp syms) name = some s ↔
        s ∈ syms ∧ s.name = name ∧ ∀ t ∈ syms, t.name = name → s.addr ≤ t.addr := by
  have hsorted := sortBy_pairwise ksymCmp syms
  have hcmp : ∀ {s : Ksym}, strcmp s.name name = .eq ↔ s.name = name := Std.compare_eq_iff_eq
  have hsome : ∀ {s}, getSymbol (sortBy ksymCmp syms) name = some s →
      s ∈ syms ∧ s.name = name ∧ ∀ t ∈ syms, t.name = name → s.addr ≤ t.addr := by
    intro s hs
    obtain ⟨hp, as, bs, hsplit, hbefore⟩ := List.find?_eq_some_iff_append.mp hs
    have hname := hcmp.mp (of_decide_eq_true hp)
    refine ⟨mem_sortBy.mp (List.mem_of_find?_eq_some hs), hname, fun t ht htname => ?_⟩
    have hmem : t ∈ sortBy ksymCmp syms := mem_sortBy.mpr ht
    rw [hsplit] at hmem hsorted
    rcases List.mem_append.mp hmem with hin | hin
    · have hnot := hbefore t hin
      rw [decide_eq_true (hcmp.mpr htname)] at hnot
      cases hnot
    · rcases List.mem_cons.mp hin with rfl | hin
      · exact UInt64.le_refl _
      · exact addr_le_of_isLE
          ((List.pairwise_cons.mp (List.pairwise_append.mp hsorted).2.1).1 t hin)
  have hnone : getSymbol (sortBy ksymCmp syms) name = none ↔ ∀ s ∈ syms, s.name ≠ name := by
    rw [getSymbol, List.find?_eq_none]
    refine forall_congr' fun s => ?_
    rw [mem_sortBy, decide_eq_true_iff, hcmp]
  refine ⟨hnone, fun s => ⟨hsome, fun ⟨hs, hname, hfirst⟩ => ?_⟩⟩
  cases hget : getSymbol (sortBy ksymCmp syms) name with
  | none => exact absurd hname (hnone.mp hget s hs)
  | some t =>
      obtain ⟨ht, htname, hfirstt⟩ := hsome hget
      have haddr : t.addr = s.addr :=
        UInt64.le_antisymm (hfirstt s hs hname) (hfirst t ht htname)
      exact congrArg some (Ksym.mk.injEq .. ▸ ⟨htname.trans hname.symm, haddr⟩ : t = s)

end NetProbes.Symbols
