/-
# `NetProbes.Lib.TryInit` — lookup or initialise, then update, by many at once

Any number of calls share a table.  Each has a key and goes through

    lookup    its entry is there: on to `add`; else on to `insert`
    insert    the initial value, unless an entry has appeared meanwhile
    again     the second lookup
    add       one atomic update of the entry

one atomic step at a time, in any order.  A step touches the entry of its key
only (`cellStep`).  The invariant (`Inv`) says that a call past its insert
leaves an entry behind, and that an entry was updated once for each call of its
key that is done; so when all are done, every entry was updated once for each
call of its key (`run_counts`).
-/
import NetProbes.Lib.Run

namespace NetProbes.Lib.TryInit

/-- Where a call is. -/
inductive Stage where
  | lookup
  | insert
  | again
  | add
  | done
  | failed
  deriving DecidableEq, Repr

/-- The table and the calls, each with its key. -/
structure Sys (F V : Type) where
  table : F → Option V
  calls : List (F × Stage)

section Steps
variable {F V : Type} [DecidableEq F] (init : V) (op : V → V)

/-- One step of a call, on the entry of its key. -/
def cellStep (v : Option V) : Stage → Option (Option V × Stage)
  | .lookup => some (v, if v.isSome then .add else .insert)
  | .insert => some (some (v.getD init), .again)
  | .again => some (v, if v.isSome then .add else .failed)
  | .add => some (v.map op, .done)
  | .done => none
  | .failed => none

/-- One step of the call with the given number. -/
def step (s : Sys F V) (i : Nat) : Option (Sys F V) :=
  match s.calls[i]? with
  | none => none
  | some (f, st) => (cellStep init op (s.table f) st).map fun r =>
      ⟨Function.update s.table f r.1, s.calls.set i (f, r.2)⟩

/-- An empty table and a call for each of the keys. -/
def start (fs : List F) : Sys F V := ⟨fun _ => none, fs.map fun f => (f, .lookup)⟩

/-- Every call has returned. -/
def Finished (s : Sys F V) : Prop := ∀ c ∈ s.calls, c.2 = .done ∨ c.2 = .failed

/-! ## The invariant -/

/-- The call has seen to it that there is an entry. -/
def Stage.PastInsert : Stage → Prop
  | .again => True
  | .add => True
  | .done => True
  | _ => False

/-- The invariant of runs that start with the keys `fs`. -/
structure Inv (fs : List F) (s : Sys F V) : Prop where
  keys : s.calls.map Prod.fst = fs
  alive : ∀ c ∈ s.calls, c.2 ≠ .failed
  present : ∀ c ∈ s.calls, c.2.PastInsert → ∃ v, s.table c.1 = some v
  value : ∀ f v, s.table f = some v → v = op^[s.calls.count (f, .done)] init
  called : ∀ f v, s.table f = some v → f ∈ fs

theorem inv_start (fs : List F) : Inv init op fs (start fs : Sys F V) := by
  have hstage : ∀ c ∈ fs.map fun f => (f, Stage.lookup), c.2 = .lookup := by
    intro c hc
    obtain ⟨f, -, rfl⟩ := List.mem_map.mp hc
    rfl
  refine ⟨?_, ?_, ?_, ?_, ?_⟩
  · rw [start, List.map_map]
    exact List.map_id _
  · intro c hc hfailed
    rw [hstage c hc] at hfailed
    cases hfailed
  · intro c hc hpast
    rw [hstage c hc] at hpast
    exact hpast.elim
  · intro f v h
    cases h
  · intro f v h
    cases h

variable {init op}

/-- A call goes from one stage to another and its entry changes with it.  The
entry is there where the new stage asks for it, and was updated where the call
is done now. -/
theorem Inv.move {fs : List F} {s : Sys F V} {i : Nat} {f : F} {st st' : Stage} {v' : Option V}
    (h : Inv init op fs s) (hi : s.calls[i]? = some (f, st)) (hst : st ≠ .done)
    (halive : st' ≠ .failed) (hkeep : ∀ v, s.table f = some v → ∃ w, v' = some w)
    (hpresent : st'.PastInsert → ∃ w, v' = some w)
    (hvalue : ∀ w, v' = some w →
      w = op^[s.calls.count (f, .done) + if st' = .done then 1 else 0] init) :
    Inv init op fs ⟨Function.update s.table f v', s.calls.set i (f, st')⟩ := by
  obtain ⟨hlt, hget⟩ := List.getElem?_eq_some_iff.mp hi
  have hmem : (f, st) ∈ s.calls := hget ▸ List.getElem_mem hlt
  have hf : f ∈ fs := h.keys ▸ List.mem_map_of_mem (f := Prod.fst) hmem
  refine ⟨?_, ?_, ?_, ?_, ?_⟩
  · show (s.calls.set i (f, st')).map Prod.fst = fs
    rw [List.map_set, ← h.keys]
    have hself : (s.calls.map Prod.fst).get ⟨i, by simpa using hlt⟩ = f := by simp [hget]
    exact (congrArg _ hself.symm).trans (List.set_getElem_self _)
  · intro c hc
    rcases List.mem_or_eq_of_mem_set hc with hc | rfl
    · exact h.alive c hc
    · exact halive
  · intro c hc hpast
    by_cases hcf : c.1 = f
    · rw [hcf]
      simp only [Function.update_self]
      rcases List.mem_or_eq_of_mem_set hc with hc | rfl
      · obtain ⟨v, hv⟩ := h.present c hc hpast
        exact hkeep v (hcf ▸ hv)
      · exact hpresent hpast
    · simp only [Function.update_of_ne hcf]
      rcases List.mem_or_eq_of_mem_set hc with hc | rfl
      · exact h.present c hc hpast
      · exact absurd rfl hcf
  · intro g w hw
    have hcount : (s.calls.set i (f, st')).count (g, .done)
        = s.calls.count (g, .done) + if f = g ∧ st' = .done then 1 else 0 := by
      have hold : ((f, st) == (g, Stage.done)) = false := by simp [hst]
      rw [List.count_set hlt, hget, hold]
      simp
    by_cases hgf : g = f
    · subst hgf
      simp only [Function.update_self] at hw
      rw [hcount, hvalue w hw]
      simp
    · simp only [Function.update_of_ne hgf] at hw
      rw [hcount, if_neg (fun hand => hgf hand.1.symm)]
      exact h.value g w hw
  · intro g w hw
    by_cases hgf : g = f
    · exact hgf ▸ hf
    · simp only [Function.update_of_ne hgf] at hw
      exact h.called g w hw

/-- No call of a key without entry is done. -/
theorem Inv.count_done_eq_zero {fs : List F} {s : Sys F V} (h : Inv init op fs s) {f : F}
    (hf : s.table f = none) : s.calls.count (f, .done) = 0 := by
  rw [List.count_eq_zero]
  intro hmem
  obtain ⟨v, hv⟩ := h.present _ hmem trivial
  rw [hf] at hv
  cases hv

theorem inv_step {fs : List F} {s s' : Sys F V} {i : Nat} (h : Inv init op fs s)
    (hstep : step init op s i = some s') : Inv init op fs s' := by
  unfold step at hstep
  split at hstep
  · cases hstep
  · rename_i f st hi
    obtain ⟨⟨v', st'⟩, hcell, rfl⟩ := Option.map_eq_some_iff.mp hstep
    show Inv init op fs ⟨Function.update s.table f v', s.calls.set i (f, st')⟩
    have hmem := List.mem_of_getElem? hi
    cases st with
    | lookup =>
        cases hv : s.table f with
        | none =>
            simp only [cellStep, hv, Option.isSome_none, Bool.false_eq_true, if_false,
              Option.some.injEq, Prod.mk.injEq] at hcell
            obtain ⟨rfl, rfl⟩ := hcell
            refine h.move hi (by decide) (by decide) ?_ False.elim fun w hw => by cases hw
            intro v hsome
            rw [hv] at hsome
            cases hsome
        | some v =>
            simp only [cellStep, hv, Option.isSome_some, if_true, Option.some.injEq, Prod.mk.injEq] at hcell
            obtain ⟨rfl, rfl⟩ := hcell
            exact h.move hi (by decide) (by decide) (fun _ _ => ⟨v, rfl⟩) (fun _ => ⟨v, rfl⟩)
              fun w hw => h.value f w (hv.trans hw)
    | insert =>
        simp only [cellStep, Option.some.injEq, Prod.mk.injEq] at hcell
        obtain ⟨rfl, rfl⟩ := hcell
        refine h.move hi (by decide) (by decide) (fun _ _ => ⟨_, rfl⟩) (fun _ => ⟨_, rfl⟩) ?_
        intro w hw
        obtain rfl := Option.some.inj hw
        cases hv : s.table f with
        | none =>
            rw [h.count_done_eq_zero hv]
            rfl
        | some v => exact h.value f v hv
    | again =>
        -- the entry is there, so the second lookup finds it
        obtain ⟨v, hv⟩ := h.present _ hmem trivial
        simp only [cellStep, hv, Option.isSome_some, if_true, Option.some.injEq,
          Prod.mk.injEq] at hcell
        obtain ⟨rfl, rfl⟩ := hcell
        exact h.move hi (by decide) (by decide) (fun _ _ => ⟨v, rfl⟩) (fun _ => ⟨v, rfl⟩)
          fun w hw => h.value f w (hv.trans hw)
    | add =>
        obtain ⟨v, hv⟩ := h.present _ hmem trivial
        simp only [cellStep, hv, Option.some.injEq, Prod.mk.injEq] at hcell
        obtain ⟨rfl, rfl⟩ := hcell
        refine h.move hi (by decide) (by decide) (fun _ _ => ⟨op v, rfl⟩) (fun _ => ⟨op v, rfl⟩) ?_
        intro w hw
        obtain rfl := Option.some.inj hw
        rw [if_pos rfl, Function.iterate_succ_apply', ← h.value f v hv]
    | done => cases hcell
    | failed => cases hcell

/-! ## Whole runs -/

theorem count_done_of_all {calls : List (F × Stage)} (h : ∀ c ∈ calls, c.2 = .done) (f : F) :
    calls.count (f, .done) = (calls.map Prod.fst).count f := by
  induction calls with
  | nil => rfl
  | cons c calls ih =>
      have hc : c = (c.1, .done) := Prod.ext rfl (h c List.mem_cons_self)
      rw [List.map_cons, List.count_cons, List.count_cons,
        ih fun x hx => h x (List.mem_cons_of_mem _ hx), hc]
      simp

/-- When all calls have returned, exactly the keys that were called have an
entry, and it was updated once for each call. -/
theorem run_counts {fs : List F} {sched : List Nat} {s : Sys F V}
    (hrun : exec (step init op) (start fs) sched = some s) (hdone : Finished s) (f : F) :
    s.table f = if f ∈ fs then some (op^[fs.count f] init) else none := by
  have h : Inv init op fs s :=
    exec_invariant (fun _ _ _ hI hs => inv_step hI hs) (inv_start init op fs) hrun
  have hall : ∀ c ∈ s.calls, c.2 = .done := fun c hc =>
    (hdone c hc).resolve_right (h.alive c hc)
  split
  · rename_i hf
    rw [← h.keys] at hf
    obtain ⟨c, hc, rfl⟩ := List.mem_map.mp hf
    obtain ⟨v, hv⟩ := h.present c hc (by rw [hall c hc]; trivial)
    rw [hv, h.value _ _ hv, count_done_of_all hall, h.keys]
  · rename_i hf
    cases hv : s.table f with
    | none => rfl
    | some v => exact absurd (h.called f v hv) hf

end Steps

end NetProbes.Lib.TryInit
