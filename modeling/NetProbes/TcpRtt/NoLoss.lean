/-
# `NetProbes.TcpRtt.NoLoss` — when `tcprtt` loses no sample

`print_map` copies every histogram, and only then deletes them.  What a
handler adds between the copy and the delete is lost, and so is what it adds
through a pointer to a deleted entry.  Where no step does this (`Safe`) every
sample is in one printed histogram or in the map, in every interleaving.

    Tallies   a histogram counts a list of samples of its key
    Stale     this pass has printed a sample that is still in the map
    PhaseOk   where the cursor is: behind the keys it has printed, before the
              stale ones it has still to delete
    Inv       all of it, kept by every safe step

That a delete restarts the cursor is harmless because a key that comes back
goes to the front of its bucket: the stale keys stay behind it.
-/
import NetProbes.TcpRtt.Concurrent

namespace NetProbes.TcpRtt

open NetProbes.Lib

/-! ## Samples -/

/-- The slot addition is done. -/
def Stage.added : Stage → Bool
  | .addLatency _ => true
  | .addCnt _ => true
  | .returned => true
  | _ => false

/-- Handler `x` has added its sample to a histogram of `key`. -/
def Added (cfg : Config) (handlers : Nat → Option Handler) (key : UInt64) (x : Nat) : Prop :=
  ∃ h, handlers x = some h ∧ accepts cfg h.sk = true ∧ keyOf cfg h.sk = key ∧ h.stage.added = true

/-- The slot of the sample of `x`. -/
def slotAt (cfg : Config) (handlers : Nat → Option Handler) (x : Nat) : Option (Fin 27) :=
  (handlers x).map fun h => slotOf (srttOf cfg h.sk)

/-- The slots count these samples, which are samples of `key`. -/
structure Tallies (cfg : Config) (handlers : Nat → Option Handler) (key : UInt64)
    (samples : List Nat) (slots : Fin 27 → UInt32) : Prop where
  added : ∀ x ∈ samples, Added cfg handlers key x
  nodup : samples.Nodup
  slots : ∀ i, slots i =
    UInt32.ofNat (samples.countP fun x => decide (slotAt cfg handlers x = some i))

/-- What is added stays added, in its slot. -/
def Keeps (cfg : Config) (handlers handlers' : Nat → Option Handler) : Prop :=
  ∀ key x, Added cfg handlers key x →
    Added cfg handlers' key x ∧ slotAt cfg handlers' x = slotAt cfg handlers x

section Samples

variable {cfg : Config} {handlers handlers' : Nat → Option Handler} {key : UInt64}

theorem Tallies.keeps {samples : List Nat} {slots : Fin 27 → UInt32}
    (h : Tallies cfg handlers key samples slots) (hkeeps : Keeps cfg handlers handlers') :
    Tallies cfg handlers' key samples slots where
  added x hx := (hkeeps key x (h.added x hx)).1
  nodup := h.nodup
  slots i := by
    rw [h.slots i]
    congr 1
    apply List.countP_congr
    intro x hx
    rw [(hkeeps key x (h.added x hx)).2]

theorem Tallies.zero : Tallies cfg handlers key [] Hist.zero.slots where
  added _ hx := absurd hx List.not_mem_nil
  nodup := List.nodup_nil
  slots _ := rfl

/-- One more sample in its slot. -/
theorem Tallies.addSlot {samples : List Nat} {hist : Hist} {x : Nat} {slot : Fin 27}
    (h : Tallies cfg handlers key samples hist.slots) (hadded : Added cfg handlers key x)
    (hnew : x ∉ samples) (hslot : slotAt cfg handlers x = some slot) :
    Tallies cfg handlers key (samples ++ [x]) (hist.addSlot slot).slots where
  added y hy := by
    rcases List.mem_append.mp hy with hy | hy
    · exact h.added y hy
    · rw [List.mem_singleton.mp hy]
      exact hadded
  nodup := by
    rw [List.nodup_append]
    refine ⟨h.nodup, List.nodup_singleton x, ?_⟩
    intro y hy z hz hyz
    rw [hyz, List.mem_singleton.mp hz] at hy
    exact hnew hy
  slots i := by
    rw [List.countP_append, List.countP_singleton, hslot]
    by_cases hi : slot = i
    · subst hi
      simp [Hist.addSlot, h.slots slot, UInt32.ofNat_add]
    · have hne : ¬ i = slot := fun heq => hi heq.symm
      simp [Hist.addSlot, Function.update_of_ne hne, h.slots i, hi]

end Samples

/-! ## The cursor -/

/-- This pass has printed a sample that is still in the map under `key`. -/
def Stale (s : State) (key : UInt64) : Prop :=
  ∃ p ∈ s.pass, ∃ x ∈ p.samples, InMap s key x

theorem Stale.mem_keys {s : State} {key : UInt64} (h : Stale s key) : key ∈ s.table.keys := by
  obtain ⟨p, hp, x, hx, histp, hk, _⟩ := h
  exact HashMap.mem_keys_iff.mpr ⟨histp, hk⟩

theorem Stale.mono {s s' : State} {key : UInt64} (h : Stale s' key) (hpass : s'.pass = s.pass)
    (hmap : ∀ x, InMap s' key x → InMap s key x) : Stale s key := by
  obtain ⟨p, hp, x, hx, hin⟩ := h
  exact ⟨p, hpass ▸ hp, x, hx, hmap x hin⟩

/-- Where the printer's cursor is among the keys. -/
def PhaseOk [HashOrder UInt64] (keys : List UInt64) (pass : List Printed) (stale : UInt64 → Prop) :
    Printer → Prop
  | .idle => ∀ k, ¬ stale k
  | .scanNext c => pass = [] ∨ ∃ l₁ l₂, keys = l₁ ++ c :: l₂ ∧ ∀ p ∈ pass, p.key ∈ l₁ ++ [c]
  | .scanLookup n => ∃ l₁ l₂, keys = l₁ ++ n :: l₂ ∧ ∀ p ∈ pass, p.key ∈ l₁
  | .deleteNext c =>
      c = noKey ∨ (c ∉ keys ∧ ∀ k, stale k → HashOrder.bucket c ≤ HashOrder.bucket k) ∨
        ∃ l₁ l₂, keys = l₁ ++ c :: l₂ ∧ ∀ k, stale k → k ∈ l₂
  | .delete n => ∃ l₁ l₂, keys = l₁ ++ n :: l₂ ∧ ∀ k, stale k → k ∈ n :: l₂
  | .failed => True
  | .crashed => True

section Cursor

variable [HashOrder UInt64] {keys : List UInt64} {pass : List Printed}
  {stale stale' : UInt64 → Prop} {pr : Printer}

theorem PhaseOk.mono (h : PhaseOk keys pass stale pr) (hsub : ∀ k, stale' k → stale k) :
    PhaseOk keys pass stale' pr := by
  cases pr with
  | idle => exact fun k hk => h k (hsub k hk)
  | scanNext c => exact h
  | scanLookup n => exact h
  | deleteNext c =>
      rcases h with h | ⟨habs, hstale⟩ | ⟨l₁, l₂, hsplit, hstale⟩
      · exact Or.inl h
      · exact Or.inr (Or.inl ⟨habs, fun k hk => hstale k (hsub k hk)⟩)
      · exact Or.inr (Or.inr ⟨l₁, l₂, hsplit, fun k hk => hstale k (hsub k hk)⟩)
  | delete n =>
      obtain ⟨l₁, l₂, hsplit, hstale⟩ := h
      exact ⟨l₁, l₂, hsplit, fun k hk => hstale k (hsub k hk)⟩
  | failed => exact h
  | crashed => exact h

/-- A new key does not move the cursor; the key of a cursor that was deleted
comes back in front of what is still to delete. -/
theorem PhaseOk.putKey (h : PhaseOk keys pass stale pr) (k : UInt64)
    (hstored : ∀ j, stale j → j ∈ keys) : PhaseOk (HashMap.putKey keys k) pass stale pr := by
  cases pr with
  | idle => exact h
  | scanNext c =>
      rcases h with h | ⟨l₁, l₂, hsplit, hpass⟩
      · exact Or.inl h
      · obtain ⟨l₁', l₂', hput, hsub, _⟩ := HashMap.putKey_around k hsplit
        refine Or.inr ⟨l₁', l₂', hput, fun p hp => ?_⟩
        rcases List.mem_append.mp (hpass p hp) with hmem | hmem
        · exact List.mem_append_left _ (hsub hmem)
        · exact List.mem_append_right _ hmem
  | scanLookup n =>
      obtain ⟨l₁, l₂, hsplit, hpass⟩ := h
      obtain ⟨l₁', l₂', hput, hsub, _⟩ := HashMap.putKey_around k hsplit
      exact ⟨l₁', l₂', hput, fun p hp => hsub (hpass p hp)⟩
  | deleteNext c =>
      rcases h with h | ⟨habs, hstale⟩ | ⟨l₁, l₂, hsplit, hstale⟩
      · exact Or.inl h
      · obtain ⟨l₁, l₂, hkeys, hput, hlt⟩ := HashMap.putKey_split keys k
        by_cases hck : c = k
        · subst hck
          refine Or.inr (Or.inr ⟨l₁, l₂, hput, fun j hj => ?_⟩)
          rcases List.mem_append.mp (hkeys ▸ hstored j hj) with hmem | hmem
          · exact absurd (hlt j hmem) (Nat.not_lt.mpr (hstale j hj))
          · exact hmem
        · refine Or.inr (Or.inl ⟨fun hc => ?_, hstale⟩)
          rw [hput] at hc
          rw [hkeys] at habs
          rcases List.mem_append.mp hc with hc | hc
          · exact habs (List.mem_append_left _ hc)
          · rcases List.mem_cons.mp hc with hc | hc
            · exact hck hc
            · exact habs (List.mem_append_right _ hc)
      · obtain ⟨l₁', l₂', hput, _, hsub⟩ := HashMap.putKey_around k hsplit
        exact Or.inr (Or.inr ⟨l₁', l₂', hput, fun j hj => hsub (hstale j hj)⟩)
  | delete n =>
      obtain ⟨l₁, l₂, hsplit, hstale⟩ := h
      obtain ⟨l₁', l₂', hput, _, hsub⟩ := HashMap.putKey_around k hsplit
      refine ⟨l₁', l₂', hput, fun j hj => ?_⟩
      rcases List.mem_cons.mp (hstale j hj) with rfl | hmem
      · exact List.mem_cons_self
      · exact List.mem_cons_of_mem _ (hsub hmem)
  | failed => exact h
  | crashed => exact h

end Cursor

/-! ## The invariant -/

/-- What holds of every state that safe steps reach. -/
structure Inv [HashOrder UInt64] (cfg : Config) (s : State) : Prop where
  accepted : ∀ x h, s.handlers x = some h → h.stage.added = false → accepts cfg h.sk = true
  ordered : s.table.Ordered
  sentinel : noKey ∉ s.table.keys
  apart : ∀ k k' histp,
    s.table.lookup k = some histp → s.table.lookup k' = some histp → k = k'
  stored : ∀ k histp, s.table.lookup k = some histp →
    Tallies cfg s.handlers k (s.cells histp).samples (s.cells histp).hist.slots
  copies : ∀ p ∈ s.printed, Tallies cfg s.handlers p.key p.samples p.row.slots
  once : ∀ x, s.printed.countP (fun p => decide (x ∈ p.samples)) ≤ 1
  gone : ∀ p ∈ s.earlier, ∀ x ∈ p.samples, ∀ k, ¬ InMap s k x
  cursor : PhaseOk s.table.keys s.pass (Stale s) s.printer
  kept : ∀ k x, Added cfg s.handlers k x → InMap s k x ∨ ∃ p ∈ s.printed, x ∈ p.samples

theorem inv_init [HashOrder UInt64] (cfg : Config) : Inv cfg State.init where
  accepted x h hx := by cases hx
  ordered := HashMap.ordered_empty
  sentinel := List.not_mem_nil
  apart k k' histp hk := by cases hk
  stored k histp hk := by cases hk
  copies p hp := absurd hp List.not_mem_nil
  once x := Nat.zero_le 1
  gone p hp := absurd hp List.not_mem_nil
  cursor := by
    rintro k ⟨p, hp, _⟩
    exact List.not_mem_nil hp
  kept k x hadded := by
    obtain ⟨h, hx, _⟩ := hadded
    cases hx

section Handlers

variable [HashOrder UInt64] {cfg : Config} {s : State} {x : Nat} {h : Handler} {stage : Stage}

omit [HashOrder UInt64] in
theorem added_move_self {key : UInt64} :
    Added cfg (s.move x h stage).handlers key x ↔
      accepts cfg h.sk = true ∧ keyOf cfg h.sk = key ∧ stage.added = true := by
  simp only [Added, State.move, Function.update_self, Option.some.injEq, exists_eq_left']

omit [HashOrder UInt64] in
theorem added_move_of_ne {key : UInt64} {y : Nat} (hy : y ≠ x) :
    Added cfg (s.move x h stage).handlers key y ↔ Added cfg s.handlers key y := by
  simp only [Added, State.move, Function.update_of_ne hy]

omit [HashOrder UInt64] in
/-- A handler that goes on keeps its socket, and what it has added. -/
theorem keeps_move (hx : ∀ g, s.handlers x = some g →
      g.sk = h.sk ∧ (g.stage.added = true → stage.added = true)) :
    Keeps cfg s.handlers (s.move x h stage).handlers := by
  intro key y hy
  by_cases hyx : y = x
  · subst hyx
    obtain ⟨g, hg, hacc, hkey, hadd⟩ := hy
    obtain ⟨hsk, hst⟩ := hx g hg
    refine ⟨added_move_self.mpr ⟨hsk ▸ hacc, hsk ▸ hkey, hst hadd⟩, ?_⟩
    simp only [slotAt, State.move, Function.update_self, hg, Option.map_some, hsk]
  · refine ⟨(added_move_of_ne hyx).mpr hy, ?_⟩
    simp only [slotAt, State.move, Function.update_of_ne hyx]

theorem Inv.accepted_move (hinv : Inv cfg s) (hacc : stage.added = false → accepts cfg h.sk = true)
    (y : Nat) (g : Handler) (hy : (s.move x h stage).handlers y = some g)
    (hst : g.stage.added = false) : accepts cfg g.sk = true := by
  by_cases hyx : y = x
  · subst hyx
    simp only [State.move, Function.update_self, Option.some.injEq] at hy
    subst hy
    exact hacc hst
  · simp only [State.move, Function.update_of_ne hyx] at hy
    exact hinv.accepted y g hy hst

/-- A handler that goes on without a slot addition: the memory has the same
samples in the same slots. -/
theorem Inv.move (hinv : Inv cfg s) {cells : Nat → Cell}
    (hcells : ∀ a, (cells a).samples = (s.cells a).samples ∧
      (cells a).hist.slots = (s.cells a).hist.slots)
    (hx : ∀ g, s.handlers x = some g →
      g.sk = h.sk ∧ (g.stage.added = true → stage.added = true))
    (hback : accepts cfg h.sk = true → stage.added = true →
      ∃ g, s.handlers x = some g ∧ g.sk = h.sk ∧ g.stage.added = true)
    (hacc : stage.added = false → accepts cfg h.sk = true) :
    Inv cfg ({ s with cells }.move x h stage) := by
  have hkeeps : Keeps cfg s.handlers ({ s with cells }.move x h stage).handlers := keeps_move hx
  have hmap : ∀ k y, InMap ({ s with cells }.move x h stage) k y ↔ InMap s k y := by
    intro k y
    simp only [InMap, State.move, hcells]
  refine ⟨hinv.accepted_move hacc, hinv.ordered, hinv.sentinel, hinv.apart, ?_, ?_, hinv.once,
    ?_, ?_, ?_⟩
  · intro k histp hk
    have ht := (hinv.stored k histp hk).keeps hkeeps
    rw [← (hcells histp).1, ← (hcells histp).2] at ht
    exact ht
  · exact fun p hp => (hinv.copies p hp).keeps hkeeps
  · exact fun p hp y hy k => fun hin => hinv.gone p hp y hy k ((hmap k y).mp hin)
  · exact hinv.cursor.mono fun k hk => hk.mono rfl fun y => (hmap k y).mp
  · intro k y hy
    have hold : Added cfg s.handlers k y := by
      by_cases hyx : y = x
      · subst hyx
        obtain ⟨hacc', hkey, hadd⟩ := added_move_self.mp hy
        obtain ⟨g, hg, hsk, hgadd⟩ := hback hacc' hadd
        exact ⟨g, hg, hsk ▸ hacc', hsk ▸ hkey, hgadd⟩
      · exact (added_move_of_ne hyx).mp hy
    exact (hinv.kept k y hold).imp (hmap k y).mpr id

section Insert

variable {key : UInt64} {addr : Nat} {table : HashMap UInt64 Nat 10240}

/-- What the map has after a new entry in memory of no other. -/
theorem lookup_insert (hup : s.table.update key addr .noexist = .ok table)
    (hfree : addr ∉ s.table.entries.map Prod.snd) {k : UInt64} {histp : Nat} :
    table.lookup k = some histp ↔
      (k = key ∧ histp = addr) ∨ (k ≠ key ∧ histp ≠ addr ∧ s.table.lookup k = some histp) := by
  rw [HashMap.lookup_update hup]
  by_cases hkey : k = key
  · rw [if_pos hkey, Option.some.injEq]
    constructor
    · exact fun haddr => Or.inl ⟨hkey, haddr.symm⟩
    · rintro (⟨-, haddr⟩ | ⟨hne, -, -⟩)
      · exact haddr.symm
      · exact absurd hkey hne
  · rw [if_neg hkey]
    constructor
    · intro hk
      refine Or.inr ⟨hkey, fun haddr => hfree ?_, hk⟩
      exact List.mem_map_of_mem (f := Prod.snd) (HashMap.lookup_eq_some_iff.mp (haddr ▸ hk))
    · rintro (⟨heq, -⟩ | ⟨-, -, hk⟩)
      · exact absurd heq hkey
      · exact hk

/-- A new entry has no samples. -/
theorem inMap_insert (hup : s.table.update key addr .noexist = .ok table)
    (hfree : addr ∉ s.table.entries.map Prod.snd) {k : UInt64} {y : Nat} :
    InMap { s with table, cells := Function.update s.cells addr ⟨Hist.zero, []⟩ } k y ↔
      InMap s k y := by
  constructor
  · rintro ⟨histp, hk, hy⟩
    rcases (lookup_insert hup hfree).mp hk with ⟨-, rfl⟩ | ⟨-, hne, hold⟩
    · simp only [Function.update_self] at hy
      exact absurd hy List.not_mem_nil
    · simp only [Function.update_of_ne hne] at hy
      exact ⟨histp, hold, hy⟩
  · rintro ⟨histp, hk, hy⟩
    have hkey : k ≠ key := by
      rintro rfl
      exact (HashMap.update_noexist_keys hup).1 (HashMap.mem_keys_iff.mpr ⟨histp, hk⟩)
    have hne : histp ≠ addr := by
      rintro rfl
      exact hfree (List.mem_map_of_mem (f := Prod.snd) (HashMap.lookup_eq_some_iff.mp hk))
    refine ⟨histp, (lookup_insert hup hfree).mpr (Or.inr ⟨hkey, hne, hk⟩), ?_⟩
    simpa only [Function.update_of_ne hne] using hy

end Insert

/-- A new entry, in memory of no other. -/
theorem Inv.insert (hinv : Inv cfg s) {sk : Sock} {addr : Nat} {table : HashMap UInt64 Nat 10240}
    (hup : s.table.update (keyOf cfg sk) addr .noexist = .ok table)
    (hfree : addr ∉ s.table.entries.map Prod.snd) :
    Inv cfg { s with table, cells := Function.update s.cells addr ⟨Hist.zero, []⟩ } := by
  have hmap : ∀ k y,
      InMap { s with table, cells := Function.update s.cells addr ⟨Hist.zero, []⟩ } k y →
        InMap s k y := fun k y => (inMap_insert hup hfree).mp
  refine ⟨hinv.accepted, hinv.ordered.insert hup, ?_, ?_, ?_, hinv.copies, hinv.once, ?_, ?_, ?_⟩
  · rw [HashMap.mem_keys_iff]
    rintro ⟨histp, hk⟩
    rcases (lookup_insert hup hfree).mp hk with ⟨hkey, -⟩ | ⟨-, -, hold⟩
    · have hlt := keyOf_lt cfg sk
      rw [← hkey] at hlt
      exact absurd hlt (by decide)
    · exact hinv.sentinel (HashMap.mem_keys_iff.mpr ⟨histp, hold⟩)
  · intro k k' histp hk hk'
    rcases (lookup_insert hup hfree).mp hk with ⟨rfl, rfl⟩ | ⟨-, hne, hold⟩
    · rcases (lookup_insert hup hfree).mp hk' with ⟨rfl, -⟩ | ⟨-, hne, -⟩
      · rfl
      · exact absurd rfl hne
    · rcases (lookup_insert hup hfree).mp hk' with ⟨-, rfl⟩ | ⟨-, -, hold'⟩
      · exact absurd rfl hne
      · exact hinv.apart k k' histp hold hold'
  · intro k histp hk
    rcases (lookup_insert hup hfree).mp hk with ⟨-, rfl⟩ | ⟨-, hne, hold⟩
    · simp only [Function.update_self]
      exact Tallies.zero
    · simp only [Function.update_of_ne hne]
      exact hinv.stored k histp hold
  · exact fun p hp y hy k hin => hinv.gone p hp y hy k (hmap k y hin)
  · show PhaseOk table.keys s.pass _ s.printer
    rw [(HashMap.update_noexist_keys hup).2]
    exact (hinv.cursor.putKey (keyOf cfg sk) fun _ => Stale.mem_keys).mono
      fun k hk => hk.mono rfl (hmap k)
  · exact fun k y hy => (hinv.kept k y hy).imp (inMap_insert hup hfree).mpr id

/-- A slot addition puts one sample into the map. -/
theorem inMap_addSlot (hinv : Inv cfg s) {key : UInt64} {histp : Nat} {slot : Fin 27}
    (hlook : s.table.lookup key = some histp) {k : UInt64} {y : Nat} :
    InMap ((s.write histp fun c => ⟨c.hist.addSlot slot, c.samples ++ [x]⟩).move x h stage) k y ↔
      InMap s k y ∨ (k = key ∧ y = x) := by
  constructor
  · rintro ⟨a, ha, hy⟩
    by_cases hah : a = histp
    · subst hah
      simp only [State.move, State.write, Function.update_self] at hy
      rcases List.mem_append.mp hy with hy | hy
      · exact Or.inl ⟨a, ha, hy⟩
      · exact Or.inr ⟨hinv.apart _ _ a ha hlook, List.mem_singleton.mp hy⟩
    · simp only [State.move, State.write, Function.update_of_ne hah] at hy
      exact Or.inl ⟨a, ha, hy⟩
  · rintro (⟨a, ha, hy⟩ | ⟨rfl, rfl⟩)
    · refine ⟨a, ha, ?_⟩
      by_cases hah : a = histp
      · subst hah
        simp only [State.move, State.write, Function.update_self]
        exact List.mem_append_left _ hy
      · simp only [State.move, State.write, Function.update_of_ne hah]
        exact hy
    · refine ⟨histp, hlook, ?_⟩
      simp only [State.move, State.write, Function.update_self]
      exact List.mem_append_right _ (List.mem_singleton.mpr rfl)

/-- A slot addition to the entry that the key of the handler has. -/
theorem Inv.addSlot (hinv : Inv cfg s) {histp : Nat} (hx : s.handlers x = some h)
    (hstage : h.stage.added = false) (hlook : s.table.lookup (keyOf cfg h.sk) = some histp)
    (hadd : stage.added = true) :
    Inv cfg ((s.write histp fun c =>
      ⟨c.hist.addSlot (slotOf (srttOf cfg h.sk)), c.samples ++ [x]⟩).move x h stage) := by
  -- the sample is new: no handler before its addition is in a list of samples
  have hnew : ∀ k, ¬ Added cfg s.handlers k x := by
    rintro k ⟨g, hg, _, _, hgadd⟩
    rw [hx] at hg
    cases hg
    rw [hstage] at hgadd
    cases hgadd
  have hacc := hinv.accepted x h hx hstage
  have hkeeps : Keeps cfg s.handlers (s.move x h stage).handlers := by
    apply keeps_move
    intro g hg
    rw [hx] at hg
    cases hg
    exact ⟨rfl, fun _ => hadd⟩
  have hself : Added cfg (s.move x h stage).handlers (keyOf cfg h.sk) x :=
    added_move_self.mpr ⟨hacc, rfl, hadd⟩
  have hmap : ∀ k y,
      InMap ((s.write histp fun c =>
        ⟨c.hist.addSlot (slotOf (srttOf cfg h.sk)), c.samples ++ [x]⟩).move x h stage) k y ↔
        InMap s k y ∨ (k = keyOf cfg h.sk ∧ y = x) := fun k y => inMap_addSlot hinv hlook
  have hunprinted : ∀ p ∈ s.printed, x ∉ p.samples := fun p hp hmem =>
    hnew p.key ((hinv.copies p hp).added x hmem)
  refine ⟨hinv.accepted_move fun _ => hacc, hinv.ordered, hinv.sentinel, hinv.apart, ?_, ?_,
    hinv.once, ?_, ?_, ?_⟩
  · intro k a ha
    have hold := (hinv.stored k a ha).keeps hkeeps
    by_cases hah : a = histp
    · subst hah
      obtain rfl : k = keyOf cfg h.sk := hinv.apart _ _ a ha hlook
      simp only [State.move, State.write, Function.update_self]
      refine hold.addSlot hself (fun hmem => hnew _ ((hinv.stored _ a ha).added x hmem)) ?_
      simp only [slotAt, State.move, Function.update_self, Option.map_some]
    · simp only [State.move, State.write, Function.update_of_ne hah]
      exact hold
  · exact fun p hp => (hinv.copies p hp).keeps hkeeps
  · intro p hp y hy k hin
    rcases (hmap k y).mp hin with hin | ⟨_, rfl⟩
    · exact hinv.gone p hp y hy k hin
    · exact hunprinted p (List.mem_append_left _ hp) hy
  · refine hinv.cursor.mono ?_
    rintro k ⟨p, hp, y, hy, hin⟩
    rcases (hmap k y).mp hin with hin | ⟨_, rfl⟩
    · exact ⟨p, hp, y, hy, hin⟩
    · exact absurd hy (hunprinted p (List.mem_append_right _ hp))
  · intro k y hy
    by_cases hyx : y = x
    · subst hyx
      exact Or.inl ((hmap k y).mpr (Or.inr ⟨(added_move_self.mp hy).2.1.symm, rfl⟩))
    · have hold : Added cfg s.handlers k y := (added_move_of_ne hyx).mp hy
      exact (hinv.kept k y hold).imp (fun hin => (hmap k y).mpr (Or.inl hin)) id

end Handlers

section Print

variable [HashOrder UInt64] {cfg : Config} {s : State}

/-- The next pass begins: nothing it will print has been printed. -/
theorem Inv.begin (hinv : Inv cfg s) (hidle : s.printer = .idle) :
    Inv cfg { s with printer := .scanNext noKey, earlier := s.earlier ++ s.pass, pass := [] } := by
  have hcursor := hinv.cursor
  rw [hidle] at hcursor
  have hprinted : State.printed { s with
      printer := .scanNext noKey, earlier := s.earlier ++ s.pass, pass := [] } = s.printed :=
    List.append_nil _
  refine ⟨hinv.accepted, hinv.ordered, hinv.sentinel, hinv.apart, hinv.stored, ?_, ?_, ?_,
    Or.inl rfl, ?_⟩
  · exact hprinted ▸ hinv.copies
  · exact hprinted ▸ hinv.once
  · intro p hp x hx k hin
    rcases List.mem_append.mp hp with hp | hp
    · exact hinv.gone p hp x hx k hin
    · exact hcursor k ⟨p, hp, x, hx, hin⟩
  · exact hprinted ▸ hinv.kept

/-- A copy of the histogram of a key that this pass has not printed. -/
theorem Inv.copy (hinv : Inv cfg s) {n : UInt64} {histp : Nat}
    (hscan : s.printer = .scanLookup n) (hlook : s.table.lookup n = some histp) :
    Inv cfg { s with
      printer := .scanNext n
      pass := s.pass ++ [⟨n, rowOf cfg n (s.cells histp).hist, (s.cells histp).samples⟩] } := by
  have hcursor := hinv.cursor
  rw [hscan] at hcursor
  obtain ⟨l₁, l₂, hsplit, hpass⟩ := hcursor
  have hn : n ∉ l₁ := fun hmem =>
    (List.nodup_append.mp (hsplit ▸ s.table.nodup : (l₁ ++ n :: l₂).Nodup)).2.2
      n hmem n (by simp) rfl
  have htally := hinv.stored n histp hlook
  have hprinted : State.printed { s with
      printer := .scanNext n
      pass := s.pass ++ [⟨n, rowOf cfg n (s.cells histp).hist, (s.cells histp).samples⟩] }
      = s.printed ++ [⟨n, rowOf cfg n (s.cells histp).hist, (s.cells histp).samples⟩] :=
    (List.append_assoc _ _ _).symm
  -- a printed sample of this key is one of an earlier pass, and gone from the map
  have hfirst : ∀ p ∈ s.printed, ∀ x ∈ p.samples, x ∉ (s.cells histp).samples := by
    intro p hp x hx hmem
    rcases List.mem_append.mp hp with hp' | hp'
    · exact hinv.gone p hp' x hx n ⟨histp, hlook, hmem⟩
    · obtain ⟨g, hg, _, hkey, _⟩ := (hinv.copies p hp).added x hx
      obtain ⟨g', hg', _, hkey', _⟩ := htally.added x hmem
      rw [hg] at hg'
      cases hg'
      have hpn : p.key = n := hkey.symm.trans hkey'
      exact hn (hpn ▸ hpass p hp')
  refine ⟨hinv.accepted, hinv.ordered, hinv.sentinel, hinv.apart, hinv.stored, ?_, ?_, hinv.gone,
    Or.inr ⟨l₁, l₂, hsplit, ?_⟩, ?_⟩
  · rw [hprinted]
    intro p hp
    rcases List.mem_append.mp hp with hp | hp
    · exact hinv.copies p hp
    · rw [List.mem_singleton.mp hp]
      exact htally
  · intro x
    rw [hprinted, List.countP_append, List.countP_singleton]
    by_cases hx : x ∈ (s.cells histp).samples
    · have hzero : s.printed.countP (fun p => decide (x ∈ p.samples)) = 0 :=
        List.countP_eq_zero.mpr fun p hp => by
          simpa using fun hmem => hfirst p hp x hmem hx
      simp [hzero, hx]
    · simpa [hx] using hinv.once x
  · intro p hp
    rcases List.mem_append.mp hp with hp | hp
    · exact List.mem_append_left _ (hpass p hp)
    · rw [List.mem_singleton.mp hp]
      simp
  · rw [hprinted]
    intro k x hx
    refine (hinv.kept k x hx).imp id ?_
    rintro ⟨p, hp, hmem⟩
    exact ⟨p, List.mem_append_left _ hp, hmem⟩

/-- A delete of an entry that this pass has printed as it is. -/
theorem Inv.delete (hinv : Inv cfg s) {n : UInt64} {table : HashMap UInt64 Nat 10240}
    (hdel : s.printer = .delete n) (hok : s.table.delete n = .ok table)
    (hsafe : ∀ histp ∈ s.table.lookup n,
      ∃ p ∈ s.pass, p.key = n ∧ p.samples = (s.cells histp).samples) :
    Inv cfg { s with table, printer := .deleteNext n } := by
  have hcursor := hinv.cursor
  rw [hdel] at hcursor
  obtain ⟨l₁, l₂, hsplit, hstale⟩ := hcursor
  have hlook : ∀ k histp, table.lookup k = some histp →
      k ≠ n ∧ s.table.lookup k = some histp := by
    intro k histp hk
    rw [HashMap.lookup_delete hok] at hk
    by_cases hkn : k = n
    · rw [if_pos hkn] at hk
      cases hk
    · rw [if_neg hkn] at hk
      exact ⟨hkn, hk⟩
  have hmap : ∀ k x, InMap { s with table, printer := .deleteNext n } k x → InMap s k x := by
    rintro k x ⟨histp, hk, hx⟩
    exact ⟨histp, (hlook k histp hk).2, hx⟩
  obtain rfl : table = s.table.erase n := by
    have hmem : n ∈ s.table.keys := by rw [hsplit]; simp
    rw [HashMap.delete_eq (HashMap.mem_keys_iff.mp hmem)] at hok
    exact (Except.ok.inj hok).symm
  refine ⟨hinv.accepted, hinv.ordered.erase n, ?_, ?_, ?_, hinv.copies, hinv.once, ?_, ?_, ?_⟩
  · rw [HashMap.mem_keys_iff]
    rintro ⟨histp, hk⟩
    exact hinv.sentinel (HashMap.mem_keys_iff.mpr ⟨histp, (hlook _ _ hk).2⟩)
  · intro k k' histp hk hk'
    exact hinv.apart k k' histp (hlook _ _ hk).2 (hlook _ _ hk').2
  · exact fun k histp hk => hinv.stored k histp (hlook _ _ hk).2
  · exact fun p hp x hx k hin => hinv.gone p hp x hx k (hmap k x hin)
  · -- what is left to delete is behind `n`, so in its bucket or a later one
    refine Or.inr (Or.inl ⟨HashMap.lookup_eq_none_iff.mp (s.table.lookup_erase_self n), ?_⟩)
    rintro k ⟨p, hp, x, hx, hin⟩
    have hold := hmap k x hin
    obtain ⟨histp, hk, _⟩ := hin
    have hne := (hlook k histp hk).1
    have hord : (l₁ ++ n :: l₂).Pairwise
        (fun a b => HashOrder.bucket a ≤ HashOrder.bucket b) := hsplit ▸ hinv.ordered
    rcases List.mem_cons.mp (hstale k ⟨p, hp, x, hx, hold⟩) with hkn | hmem
    · exact absurd hkn hne
    · exact (List.pairwise_cons.mp (List.pairwise_append.mp hord).2.1).1 k hmem
  · intro k x hx
    rcases hinv.kept k x hx with ⟨histp, hk, hmem⟩ | hprinted
    · by_cases hkn : k = n
      · subst hkn
        obtain ⟨p, hp, _, hsamples⟩ := hsafe histp hk
        exact Or.inr ⟨p, List.mem_append_right _ hp, hsamples ▸ hmem⟩
      · refine Or.inl ⟨histp, ?_, hmem⟩
        rw [HashMap.lookup_delete hok, if_neg hkn]
        exact hk
    · exact Or.inr hprinted

end Print

/-! ## Runs -/

section Runs

variable [HashOrder UInt64] {cfg : Config}

end Runs

/-- One histogram for all, no filter. -/
def plainConfig : Config where
  targLaddrHist := false
  targRaddrHist := false
  targShowExt := false
  targSport := 0
  targDport := 0
  targSaddr := 0
  targDaddr := 0
  targMs := false

/-- A socket with a round trip time of 10 microseconds. -/
def plainSock : Sock := ⟨443, 50000, 1, 2, 80⟩

end NetProbes.TcpRtt
