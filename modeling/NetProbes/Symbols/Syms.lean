/-
# `NetProbes.Symbols.Syms` — the symbol of an address

An address of a process is looked up in two steps:

    syms__find_dso   the object one of whose ranges the address is in, and the
                     address as it is in the file (`offset`)
    dso__find_sym    the last symbol of that object that is not behind `offset`

The symbols of an object are read with the first address in it.  If they cannot
be taken the object is freed, and what is asked next is beyond the language; so
a lookup gives the objects for the next one, or none.

A range does not hold its first address (`addr <= range->start`), so that one is
in no object.  And `offset` has one difference between address and place for the
whole file, that of `.text`: in a part of the file that is mapped with another
difference it is wrong by as much (`displacement`).

    find_dso_spec    the object of every address, where the lines do not overlap
    map_addr_loaded  whatever was looked up before, an address has the symbol
                     that is last at its place in the file, as far as the file's
                     parts are mapped like `.text`
-/
import NetProbes.Lib.Run
import NetProbes.Symbols.Maps

namespace NetProbes.Symbols

open NetProbes.Lib

/-! ## Looking up -/

/-- The address as it is in the file. -/
def Dso.offset (d : Dso) (range : LoadRange) (addr : UInt64) : UInt64 :=
  if d.type = .dyn ∨ d.type = .vdso then
    addr - range.start + range.fileOff + (d.shAddr - d.shOffset)
  else addr

/-- `syms__find_dso`: the object with its number, and the offset. -/
def findDso (dsos : List Dso) (addr : UInt64) : Option ((Dso × Nat) × UInt64) :=
  dsos.zipIdx.findSome? fun d => d.1.ranges.findSome? fun range =>
    if addr ≤ range.start ∨ addr ≥ range.stop then none else some (d, d.1.offset range addr)

/-- `sym_cmp`. -/
def symCmp (s₁ s₂ : Sym) : Ordering :=
  if s₁.start = s₂.start then strcmp s₁.name s₂.name
  else if s₁.start < s₂.start then .lt
  else .gt

/-- The symbols that are taken: those with a name and an address. -/
def named (syms : List Sym) : List Sym := syms.filter fun s => !s.name.isEmpty && s.start != 0

/-- The symbols that are taken, sorted. -/
def SymTab.sorted : SymTab → SymTab
  | .unread => .unread
  | .broken => .broken
  | .entries syms => .entries (sortBy symCmp (named syms))

/-- `dso__load_sym_table`. -/
def loadSymTable (elf : Elf) (d : Dso) : SymTab :=
  match d.type with
  | .unknown => .unread
  | .perfMap => .unread
  | .exec => ((d.name.map elf.symtab).getD .unread).sorted
  | .dyn => ((d.name.map elf.symtab).getD .unread).sorted
  | .vdso => (elf.symtab vdsoName).sorted

/-- `dso__find_sym`: the symbol, and the object afterwards; none if it is freed. -/
def findSym (elf : Elf) (d : Dso) (offset : UInt64) : Option Sym × Option Dso :=
  if d.syms = [] then
    match loadSymTable elf d with
    | .unread => (none, some d)
    | .broken => (none, none)
    | .entries syms => (lastWhere syms (·.start ≤ offset), some { d with syms := syms })
  else (lastWhere d.syms (·.start ≤ offset), some d)

/-- `syms__map_addr`: the symbol, and the objects for the next lookup. -/
def symsMapAddr (elf : Elf) (dsos : List Dso) (addr : UInt64) : Option Sym × Option (List Dso) :=
  match findDso dsos addr with
  | none => (none, some dsos)
  | some ((d, i), offset) =>
      ((findSym elf d offset).1, (findSym elf d offset).2.map fun d => dsos.set i d)

/-- One lookup after the other. -/
def lookups (elf : Elf) (dsos : List Dso) (addrs : List UInt64) : Option (List Dso) :=
  exec (fun dsos addr => (symsMapAddr elf dsos addr).2) dsos addrs

/-! ## The objects between two lookups -/

/-- What reading the symbols of a file comes to. -/
def symbolsOf (elf : Elf) (name : List UInt8) : SymTab :=
  if typeOf elf name = .unknown then .unread else elf.symtab name

/-- The object as it was loaded, but for the symbols that may be there now. -/
structure Cached (elf : Elf) (lines : List MapsLine) (name : List UInt8) (d : Dso) : Prop where
  loaded : OfName elf lines name { d with syms := [] }
  known : d.name = some name
  syms : d.syms = [] ∨ (symbolsOf elf name).sorted = .entries d.syms

/-- The invariant of the lookups. -/
def Ready (elf : Elf) (lines : List MapsLine) (dsos : List Dso) : Prop :=
  List.Forall₂ (Cached elf lines) (namesOf lines) dsos

section Ready

variable {elf : Elf} {lines : List MapsLine} {dsos : List Dso} {d : Dso} {name : List UInt8}

theorem OfName.cached (h : OfName elf lines name d) (hknown : d.name ≠ none) :
    Cached elf lines name d where
  loaded := ⟨h.known, h.ranges, h.type, h.text, rfl⟩
  known := h.known.resolve_right hknown
  syms := Or.inl h.syms

theorem ready_of_built (h : Built elf lines dsos) (hknown : Known dsos) : Ready elf lines dsos := by
  rw [Built, List.forall₂_iff_get] at h
  rw [Ready, List.forall₂_iff_get]
  exact ⟨h.1, fun i h₁ h₂ => (h.2 i h₁ h₂).cached (hknown _ (List.get_mem dsos ⟨i, h₂⟩))⟩

theorem Ready.cached {i : Nat} (h : Ready elf lines dsos) (hd : dsos[i]? = some d) :
    ∃ name ∈ namesOf lines, (namesOf lines)[i]? = some name ∧ Cached elf lines name d := by
  obtain ⟨hi, rfl⟩ := List.getElem?_eq_some_iff.mp hd
  have hi' : i < (namesOf lines).length := by
    rw [h.length_eq]
    exact hi
  exact ⟨_, List.getElem_mem hi', List.getElem?_eq_getElem hi', h.get hi' hi⟩

theorem Ready.set {i : Nat} (h : Ready elf lines dsos) (hname : (namesOf lines)[i]? = some name)
    (hd : Cached elf lines name d) : Ready elf lines (dsos.set i d) := by
  rw [Ready, List.forall₂_iff_get] at h ⊢
  refine ⟨by rw [List.length_set, h.1], fun j h₁ h₂ => ?_⟩
  rw [List.get_eq_getElem, List.get_eq_getElem, List.getElem_set]
  split
  · rename_i heq
    subst heq
    rw [List.getElem?_eq_getElem h₁] at hname
    rwa [Option.some.inj hname]
  · exact h.2 j h₁ (by simpa using h₂)

theorem vdsoName_of_type (h : typeOf elf name = .vdso) : name = vdsoName := by
  simp only [typeOf] at h
  split at h
  · cases h
  · split at h
    · cases h
    · split at h
      · rename_i hvdso
        exact beq_iff_eq.mp hvdso
      · cases h

theorem typeOf_ne_perfMap : typeOf elf name ≠ .perfMap := by
  simp only [typeOf]
  split
  · decide
  · split
    · decide
    · split
      · decide
      · decide

theorem Cached.loadSymTable_eq (h : Cached elf lines name d) :
    loadSymTable elf d = (symbolsOf elf name).sorted := by
  have htype : d.type = typeOf elf name := h.loaded.type
  rw [loadSymTable, symbolsOf, h.known, Option.map_some, Option.getD_some]
  cases hd : d.type with
  | exec => rw [← htype, hd, if_neg nofun]
  | dyn => rw [← htype, hd, if_neg nofun]
  | perfMap => exact absurd (htype.symm.trans hd) typeOf_ne_perfMap
  | vdso => rw [← htype, hd, if_neg nofun, vdsoName_of_type (htype.symm.trans hd)]
  | unknown =>
      rw [← htype, hd, if_pos rfl]
      rfl

end Ready

/-! ## The object of an address -/

/-- The address is in the range, as `syms__find_dso` sees it. -/
def MapsLine.Holds (l : MapsLine) (addr : UInt64) : Prop :=
  l.range.start < addr ∧ addr < l.range.stop

/-- The lines are in the order of their addresses. -/
def InOrder (lines : List MapsLine) : Prop :=
  lines.Pairwise fun l₁ l₂ => l₁.range.stop ≤ l₂.range.start

instance (lines : List MapsLine) : Decidable (InOrder lines) :=
  inferInstanceAs (Decidable (lines.Pairwise fun l₁ l₂ => l₁.range.stop ≤ l₂.range.start))

section Find

variable {elf : Elf} {lines : List MapsLine} {dsos : List Dso} {addr : UInt64}

theorem InOrder.eq_of_holds (h : InOrder lines) {l₁ l₂ : MapsLine} (h₁ : l₁ ∈ lines)
    (h₂ : l₂ ∈ lines) (hold₁ : l₁.Holds addr) (hold₂ : l₂.Holds addr) : l₁ = l₂ := by
  have hoff : ∀ {a b : MapsLine}, a.Holds addr → b.Holds addr →
      ¬ a.range.stop ≤ b.range.start := fun ha hb hle =>
    UInt64.lt_irrefl _ (UInt64.lt_trans (UInt64.lt_of_lt_of_le ha.2 hle) hb.1)
  have happart : lines.Pairwise fun a b => ¬ (a.Holds addr ∧ b.Holds addr) :=
    h.imp fun {a b} hle (hboth : a.Holds addr ∧ b.Holds addr) => hoff hboth.1 hboth.2 hle
  by_contra hne
  have hsymm : Std.Symm fun a b : MapsLine => ¬ (a.Holds addr ∧ b.Holds addr) :=
    ⟨fun _ _ hnot hboth => hnot hboth.symm⟩
  exact happart.forall h₁ h₂ hne ⟨hold₁, hold₂⟩

theorem findDso_eq_none_iff : findDso dsos addr = none ↔
    ∀ d ∈ dsos, ∀ range ∈ d.ranges, addr ≤ range.start ∨ addr ≥ range.stop := by
  simp only [findDso, List.findSome?_eq_none_iff, ite_eq_left_iff, reduceCtorEq, imp_false, not_not]
  constructor
  · intro h d hd
    obtain ⟨i, hi⟩ := List.mem_iff_getElem?.mp hd
    exact h (d, i) (List.mem_zipIdx_iff_getElem?.mpr hi)
  · intro h d hd
    exact h d.1 (List.mem_of_getElem? (List.mem_zipIdx_iff_getElem?.mp hd))

theorem findDso_some {found : (Dso × Nat) × UInt64} (h : findDso dsos addr = some found) :
    ∃ d i, dsos[i]? = some d ∧ ∃ range ∈ d.ranges, ¬ (addr ≤ range.start ∨ addr ≥ range.stop) ∧
      found = ((d, i), d.offset range addr) := by
  obtain ⟨d, hd, hranges⟩ := List.exists_of_findSome?_eq_some h
  obtain ⟨range, hrange, hfound⟩ := List.exists_of_findSome?_eq_some hranges
  split at hfound
  · cases hfound
  · rename_i hin
    exact ⟨d.1, d.2, List.mem_zipIdx_iff_getElem?.mp hd, range, hrange, hin,
      (Option.some.inj hfound).symm⟩

theorem mem_rangesOf {name : List UInt8} {range : LoadRange} : range ∈ rangesOf lines name ↔
    ∃ l ∈ lines, l.kept = true ∧ l.name = name ∧ l.range = range := by
  simp [rangesOf, and_assoc]

theorem outside_iff {l : MapsLine} :
    addr ≤ l.range.start ∨ addr ≥ l.range.stop ↔ ¬ l.Holds addr := by
  rw [MapsLine.Holds, not_and_or, UInt64.not_lt, UInt64.not_lt]

/-- An address is in the object of the line that holds it, or in none. -/
theorem find_dso_spec (hready : Ready elf lines dsos) (horder : InOrder lines) (addr : UInt64) :
    (findDso dsos addr = none ↔ ∀ l ∈ lines, l.kept = true → ¬ l.Holds addr) ∧
      ∀ l ∈ lines, l.kept = true → l.Holds addr →
        ∃ d i, (namesOf lines)[i]? = some l.name ∧ Cached elf lines l.name d ∧
          findDso dsos addr = some ((d, i), d.offset l.range addr) := by
  have hnone : findDso dsos addr = none ↔ ∀ l ∈ lines, l.kept = true → ¬ l.Holds addr := by
    rw [findDso_eq_none_iff]
    constructor
    · intro h l hl hkept
      obtain ⟨i, hi, hname⟩ := List.getElem_of_mem (mem_namesOf hl hkept)
      have hi' : i < dsos.length := hready.length_eq ▸ hi
      have hd : Cached elf lines l.name dsos[i] := hname ▸ hready.get hi hi'
      rw [← outside_iff]
      exact h _ (List.getElem_mem hi') l.range
        (hd.loaded.ranges ▸ mem_rangesOf.mpr ⟨l, hl, hkept, rfl, rfl⟩)
    · intro h d hd range hrange
      obtain ⟨i, hi⟩ := List.mem_iff_getElem?.mp hd
      obtain ⟨name, -, -, hcached⟩ := hready.cached hi
      have hranges : d.ranges = rangesOf lines name := hcached.loaded.ranges
      rw [hranges] at hrange
      obtain ⟨l, hl, hkept, -, rfl⟩ := mem_rangesOf.mp hrange
      exact outside_iff.mpr (h l hl hkept)
  refine ⟨hnone, fun l hl hkept hholds => ?_⟩
  cases hfind : findDso dsos addr with
  | none => exact absurd hholds (hnone.mp hfind l hl hkept)
  | some found =>
      obtain ⟨d, i, hi, range, hrange, hin, rfl⟩ := findDso_some hfind
      obtain ⟨name, -, hname, hcached⟩ := hready.cached hi
      have hranges : d.ranges = rangesOf lines name := hcached.loaded.ranges
      rw [hranges] at hrange
      obtain ⟨l', hl', -, hown, rfl⟩ := mem_rangesOf.mp hrange
      rw [outside_iff, not_not] at hin
      obtain rfl := horder.eq_of_holds hl' hl hin hholds
      subst hown
      exact ⟨d, i, hname, hcached, rfl⟩

end Find

/-! ## Where files are -/

/-- A part of a file, in whole pages: its address, and its place in the file. -/
structure Segment where
  vaddr : UInt64
  offset : UInt64
  deriving DecidableEq

def Segment.shift (s : Segment) : UInt64 := s.vaddr - s.offset

/-- Each file is somewhere, all its parts as far from the addresses they have in
the file. -/
structure Image where
  bias : List UInt8 → UInt64
  segments : List UInt8 → List Segment

/-- The line maps a part of its file; an executable is at its own addresses. -/
structure MapsLine.Maps (elf : Elf) (l : MapsLine) (image : Image) (seg : Segment) : Prop where
  mem : seg ∈ image.segments l.name
  start : l.range.start = image.bias l.name + seg.vaddr
  fileOff : l.range.fileOff = seg.offset
  exec : typeOf elf l.name = .exec → image.bias l.name = 0

/-- How far `syms__find_dso` is off in a part of a file. -/
def displacement (elf : Elf) (name : List UInt8) (seg : Segment) : UInt64 :=
  if typeOf elf name = .dyn ∨ typeOf elf name = .vdso then
    ((textOf elf name).map fun text => text.1 - text.2 - seg.shift).getD 0
  else 0

/-- What the binary search finds at an offset. -/
structure FoundAt (syms : List Sym) (offset : UInt64) (found : Option Sym) : Prop where
  none_iff : found = none ↔ ∀ s ∈ named syms, offset < s.start
  some : ∀ s, found = some s → s ∈ named syms ∧ s.start ≤ offset ∧
    ∀ t ∈ named syms, t.start ≤ offset → (symCmp t s).isLE = true

/-- What a lookup gives. -/
structure LooksUp (elf : Elf) (lines : List MapsLine) (dsos : List Dso) : Prop where
  outside : ∀ addr, (∀ l ∈ lines, l.kept = true → ¬ l.Holds addr) →
    symsMapAddr elf dsos addr = (none, some dsos)
  unread : ∀ l ∈ lines, l.kept = true → ∀ addr, l.Holds addr → symbolsOf elf l.name = .unread →
    (symsMapAddr elf dsos addr).1 = none ∧ (symsMapAddr elf dsos addr).2 ≠ none
  broken : ∀ l ∈ lines, l.kept = true → ∀ addr, l.Holds addr → symbolsOf elf l.name = .broken →
    symsMapAddr elf dsos addr = (none, none)
  entries : ∀ l ∈ lines, l.kept = true → ∀ addr, l.Holds addr → ∀ syms,
    symbolsOf elf l.name = .entries syms → (symsMapAddr elf dsos addr).2 ≠ none ∧
      ∀ image seg, l.Maps elf image seg →
        FoundAt syms (addr - image.bias l.name + displacement elf l.name seg)
          (symsMapAddr elf dsos addr).1

section Map

variable {elf : Elf} {lines : List MapsLine} {dsos dsos' : List Dso} {syms : List Sym} {d d' : Dso}
  {name : List UInt8} {addr offset : UInt64}

theorem symCmp_eq : symCmp = compareLex (compareOn Sym.start) (compareOn Sym.name) :=
  funext fun _ => funext fun _ => keyCmp_eq

instance : Std.TransCmp symCmp := by
  rw [symCmp_eq]
  infer_instance

theorem foundAt_lastWhere (syms : List Sym) (offset : UInt64) :
    FoundAt syms offset (lastWhere (sortBy symCmp (named syms)) (·.start ≤ offset)) := by
  have hle : ∀ s t : Sym, (symCmp s t).isLE = true → decide (t.start ≤ offset) = true →
      decide (s.start ≤ offset) = true := fun s t hst ht =>
    decide_eq_true (UInt64.le_trans (key_le_of_isLE (symCmp_eq ▸ hst)) (of_decide_eq_true ht))
  obtain ⟨hnone, hsome⟩ := lastWhere_sortBy hle (named syms)
  refine ⟨hnone.trans (forall₂_congr fun s _ => ?_), fun s hs => ?_⟩
  · rw [decide_eq_false_iff_not, UInt64.not_le]
  · obtain ⟨hmem, hp, hlast⟩ := hsome s hs
    exact ⟨hmem, of_decide_eq_true hp, fun t ht hlet => hlast t ht (decide_eq_true hlet)⟩

/-- A lookup in an object, whether or not its symbols are there already. -/
theorem findSym_cached (h : Cached elf lines name d) (offset : UInt64) :
    findSym elf d offset = match (symbolsOf elf name).sorted with
      | .unread => (none, some d)
      | .broken => (none, none)
      | .entries table =>
          (lastWhere table (·.start ≤ offset), some { d with syms := table }) := by
  rw [findSym]
  split
  · rw [h.loadSymTable_eq]
  · rename_i hne
    rw [h.syms.resolve_left hne]

/-- The objects stay ready for the next lookup. -/
theorem ready_symsMapAddr (h : Ready elf lines dsos)
    (hstep : (symsMapAddr elf dsos addr).2 = some dsos') : Ready elf lines dsos' := by
  rw [symsMapAddr] at hstep
  split at hstep
  · exact Option.some.inj hstep ▸ h
  · rename_i d i offset hfind
    obtain ⟨d, i, hi, range, -, -, heq⟩ := findDso_some hfind
    cases heq
    obtain ⟨name, -, hname, hcached⟩ := h.cached hi
    rw [findSym_cached hcached] at hstep
    obtain ⟨d', hd', rfl⟩ := Option.map_eq_some_iff.mp hstep
    refine h.set hname ?_
    split at hd'
    · exact Option.some.inj hd' ▸ hcached
    · cases hd'
    · rename_i table htable
      obtain rfl := Option.some.inj hd'
      exact ⟨hcached.loaded, hcached.known, Or.inr htable⟩

/-- The bias drops out of the offset; the displacement stays. -/
theorem offset_maps {l : MapsLine} (h : Cached elf lines l.name d) {image : Image} {seg : Segment}
    (hmaps : l.Maps elf image seg) (hne : typeOf elf l.name ≠ .unknown) (addr : UInt64) :
    d.offset l.range addr = addr - image.bias l.name + displacement elf l.name seg := by
  have htype : d.type = typeOf elf l.name := h.loaded.type
  have htext : textOf elf l.name = some (d.shAddr, d.shOffset) := h.loaded.text
  rw [Dso.offset, displacement, htype, htext]
  split
  · rw [hmaps.start, hmaps.fileOff, Option.map_some, Option.getD_some, Segment.shift]
    grind
  · rename_i hother
    rw [not_or] at hother
    have hexec : typeOf elf l.name = .exec := by
      cases htype : typeOf elf l.name with
      | exec => rfl
      | dyn => exact absurd htype hother.1
      | perfMap => exact absurd htype typeOf_ne_perfMap
      | vdso => exact absurd htype hother.2
      | unknown => exact absurd htype hne
    rw [hmaps.exec hexec, UInt64.sub_zero, UInt64.add_zero]

/-- Where an address is in an object, the lookup is one in that object. -/
theorem symsMapAddr_line (h : Ready elf lines dsos) (horder : InOrder lines) {l : MapsLine}
    (hl : l ∈ lines) (hkept : l.kept = true) (hholds : l.Holds addr) :
    ∃ d i, Cached elf lines l.name d ∧
      symsMapAddr elf dsos addr = match (symbolsOf elf l.name).sorted with
        | .unread => (none, some (dsos.set i d))
        | .broken => (none, none)
        | .entries table => (lastWhere table (·.start ≤ d.offset l.range addr),
            some (dsos.set i { d with syms := table })) := by
  obtain ⟨d, i, -, hcached, hfind⟩ := (find_dso_spec h horder addr).2 l hl hkept hholds
  refine ⟨d, i, hcached, ?_⟩
  rw [symsMapAddr, hfind]
  simp only [findSym_cached hcached]
  cases (symbolsOf elf l.name).sorted <;> rfl

theorem Ready.looksUp (h : Ready elf lines dsos) (horder : InOrder lines) :
    LooksUp elf lines dsos where
  outside addr hnone := by
    rw [symsMapAddr, (find_dso_spec h horder addr).1.mpr hnone]
  unread l hl hkept addr hholds hread := by
    obtain ⟨d, i, -, hmap⟩ := symsMapAddr_line h horder hl hkept hholds
    rw [hmap, hread]
    exact ⟨rfl, nofun⟩
  broken l hl hkept addr hholds hread := by
    obtain ⟨d, i, -, hmap⟩ := symsMapAddr_line h horder hl hkept hholds
    rw [hmap, hread]
    rfl
  entries l hl hkept addr hholds syms hread := by
    obtain ⟨d, i, hcached, hmap⟩ := symsMapAddr_line h horder hl hkept hholds
    rw [hmap, hread]
    have hne : typeOf elf l.name ≠ .unknown := by
      intro hunknown
      rw [symbolsOf, if_pos hunknown] at hread
      cases hread
    refine ⟨nofun, fun image seg hmaps => ?_⟩
    rw [← offset_maps hcached hmaps hne]
    exact foundAt_lastWhere syms _

/-- Where a part of a file is mapped like `.text`, and only there, an address is
looked up at its place in the file. -/
theorem displacement_eq_zero_iff {seg : Segment} {addr off : UInt64}
    (htype : typeOf elf name = .dyn ∨ typeOf elf name = .vdso)
    (htext : textOf elf name = some (addr, off)) :
    displacement elf name seg = 0 ↔ seg.shift = addr - off := by
  rw [displacement, if_pos htype, htext, Option.map_some, Option.getD_some]
  constructor
  · intro h
    grind
  · intro h
    rw [h]
    exact UInt64.sub_self _

/-- The text of the maps is read, and whatever was looked up then, an address in
a line has the last symbol that is not behind its place in the file, moved by
the displacement.  An address in no line has none. -/
theorem map_addr_loaded (alloc : Allocator) (elf : Elf) (hlines : ∀ l ∈ lines, l.WellFormed)
    (horder : InOrder lines) :
    Ends (symsLoad alloc elf (lines.flatMap MapsLine.text)) []
      (fun dsos asked => Granted alloc asked → ∀ before dsos', lookups elf dsos before = some dsos' →
        LooksUp elf lines dsos')
      (fun _ asked => ¬ (Granted alloc asked ∧ Readable elf lines ∧ lines.length ≤ intMax)) := by
  refine (symsLoad_ends alloc elf hlines).imp ?_ ?_
  · rintro dsos asked ⟨hbuilt, hlogged⟩ hgranted before dsos' hbefore
    have hready := ready_of_built hbuilt (hlogged.granted_iff.mp hgranted)
    exact (exec_invariant (fun _ _ _ h hstep => ready_symsMapAddr h hstep) hready hbefore).looksUp
      horder
  · rintro (_ | _ | _) asked hhalt ⟨hgranted, hread, hlen⟩
    · exact hhalt.2.elim hgranted.not_refused (absurd hread)
    · exact hhalt.2.elim (absurd hgranted) (Nat.not_lt.mpr hlen)
    · exact hhalt

end Map

/-! ## The program and its library -/

/-- The library is 0x7f0000 further up. -/
def programImage : Image where
  bias name := if name = libraryName then 0x7f0000 else 0
  segments name :=
    if name = libraryName then [⟨0x3000, 0x2000⟩, ⟨0xa000, 0x6000⟩] else [⟨0x400000, 0⟩]

/-- The first part of the library is mapped like `.text`, the second is not. -/
example : displacement programElf libraryName ⟨0x3000, 0x2000⟩ = 0 ∧
    displacement programElf libraryName ⟨0xa000, 0x6000⟩ = -0x3000 := by decide +kernel

theorem programMaps_readable : Readable programElf programMaps := by
  intro l _ _
  rw [textOf]
  split
  · nofun
  · nofun

theorem secondPart_maps : secondPart.Maps programElf programImage ⟨0xa000, 0x6000⟩ :=
  ⟨by decide +kernel, by decide +kernel, by decide +kernel, by decide +kernel⟩

theorem secondPart_symbols : symbolsOf programElf secondPart.name = .entries librarySyms := by
  have hname : secondPart.name = libraryName := by decide +kernel
  have htype : typeOf programElf libraryName ≠ .unknown := by decide +kernel
  rw [hname, symbolsOf, if_neg htype]
  simp only [programElf, if_pos]

/-- An address behind `exit` in the second part is looked up 0x3000 below. -/
theorem map_addr_loaded_program :
    ∃ dsos asked, (symsLoad (fun _ _ => true) programElf (programMaps.flatMap MapsLine.text)).run.run
        [] = (.ok dsos, asked) ∧
      ∀ before dsos', lookups programElf dsos before = some dsos' →
        FoundAt librarySyms 0x7020 (symsMapAddr programElf dsos' 0x7fa020).1 := by
  have hends := map_addr_loaded (fun _ _ => true) programElf programMaps_wellFormed
    (by decide +kernel)
  have hgranted : ∀ asked, Granted (fun _ _ => true) asked := fun _ _ _ _ _ => rfl
  obtain ⟨r, asked, hrun⟩ : ∃ r asked, (symsLoad (fun _ _ => true) programElf
      (programMaps.flatMap MapsLine.text)).run.run [] = (r, asked) :=
    ⟨_, _, Prod.mk.eta.symm⟩
  cases r with
  | ok dsos =>
      refine ⟨dsos, asked, hrun, fun before dsos' hbefore => ?_⟩
      have hlooks := hends.result dsos asked hrun (hgranted asked) before dsos' hbefore
      have hholds : secondPart.Holds 0x7fa020 := ⟨by decide +kernel, by decide +kernel⟩
      have hfound := (hlooks.entries secondPart (by simp [programMaps]) (by decide +kernel) _ hholds
        librarySyms secondPart_symbols).2 programImage _ secondPart_maps
      have hplace : 0x7fa020 - programImage.bias secondPart.name
          + displacement programElf secondPart.name ⟨0xa000, 0x6000⟩ = 0x7020 := by decide +kernel
      rwa [hplace] at hfound
  | error halt =>
      exact absurd ⟨hgranted asked, programMaps_readable, by decide⟩ (hends.halt halt asked hrun)

end NetProbes.Symbols
