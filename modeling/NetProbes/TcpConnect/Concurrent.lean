/-
# `NetProbes.TcpConnect.Concurrent` — `count_v4` and `count_v6` on many CPUs

A call of `count_v4` or `count_v6` is a lookup, perhaps an insert with
`BPF_NOEXIST` and a second lookup, and an atomic addition.  Each of these is
atomic and others may run between them (`callStep`, `countStep`); nothing
deletes from the two maps, so a pointer to a value is the value's key.

    countFlow_alone       the steps of a call that is not disturbed are
                          `countFlow`
    countStep_simulates   the two maps are one table of `TryInit`, as long as
                          an insert finds room
    counts_exact          so no count is lost and none is split

The insert that loses the race returns `-EEXIST` and goes on to the second
lookup, which finds the winner's entry.
-/
import NetProbes.TcpConnect.Count
import NetProbes.Lib.TryInit

namespace NetProbes.TcpConnect

open NetProbes.Lib NetProbes.Lib.TryInit

/-! ## The steps of a call -/

section Calls
variable {K : Type} [DecidableEq K] [HashOrder K]

/-- One atomic step of a call on the map of its key.  An insert that fails for
another reason than an entry that is there, and a second lookup that finds
nothing, end the call without a count. -/
def callStep (m : HashMap K UInt64 8192) (key : K) :
    Stage → Option (HashMap K UInt64 8192 × Stage)
  | .lookup => some (m, match m.lookup key with
      | some _ => .add
      | none => .insert)
  | .insert =>
      match m.update key 0 .noexist with
      | .ok m' => some (m', .again)
      | .error .eexist => some (m, .again)
      | .error _ => some (m, .failed)
  | .again => some (m, match m.lookup key with
      | some _ => .add
      | none => .failed)
  | .add => some (m.modify key (· + 1), .done)
  | .done => none
  | .failed => none

/-- The steps of a call that nobody disturbs are `countFlow`. -/
theorem countFlow_alone {m m' : HashMap K UInt64 8192} {key : K} (h : countFlow m key = some m') :
    ∃ n, exec (fun (c : HashMap K UInt64 8192 × Stage) (_ : Unit) => callStep c.1 key c.2)
      (m, .lookup) (List.replicate n ()) = some (m', .done) := by
  obtain ⟨m₁, hinit, rfl⟩ := Option.map_eq_some_iff.mp h
  cases hl : m.lookup key with
  | some v =>
      simp only [HashMap.lookupOrTryInit, hl, Option.some.injEq] at hinit
      subst hinit
      refine ⟨2, ?_⟩
      simp [List.replicate, exec, callStep, hl]
  | none =>
      simp only [HashMap.lookupOrTryInit, hl] at hinit
      refine ⟨4, ?_⟩
      cases hu : m.update key 0 .noexist with
      | ok m₂ =>
          simp only [hu] at hinit
          obtain ⟨v, hv, rfl⟩ := Option.map_eq_some_iff.mp hinit
          simp [List.replicate, exec, callStep, hl, hu, hv]
      | error e =>
          cases e with
          | eexist => simp [hu] at hinit
          | enoent => simp [hu] at hinit
          | e2big => simp [hu] at hinit

/-- An insert finds the key or room for it. -/
def HasRoom (m : HashMap K UInt64 8192) (key : K) : Prop :=
  m.entries.length < 8192 ∨ (m.lookup key).isSome

instance decHasRoom (m : HashMap K UInt64 8192) (key : K) : Decidable (HasRoom m key) :=
  inferInstanceAs (Decidable (_ ∨ _))

/-- With room, a step of a call is a step on the entry of its key, and touches
no other entry. -/
theorem callStep_cell {m m' : HashMap K UInt64 8192} {key : K} {st st' : Stage}
    (hroom : st = .insert → HasRoom m key) (h : callStep m key st = some (m', st')) :
    cellStep 0 (· + 1) (m.lookup key) st = some (m'.lookup key, st') ∧
      ∀ k, k ≠ key → m'.lookup k = m.lookup k := by
  cases st with
  | lookup =>
      obtain ⟨rfl, rfl⟩ := Prod.mk.inj (Option.some.inj h)
      refine ⟨?_, fun _ _ => rfl⟩
      cases hl : m.lookup key <;> simp [cellStep]
  | insert =>
      have hroom' : m.entries.length < 8192 ∨ ∃ v, m.lookup key = some v :=
        (hroom rfl).imp id Option.isSome_iff_exists.mp
      simp only [callStep] at h
      split at h
      · rename_i m₁ hu
        obtain ⟨rfl, rfl⟩ := Prod.mk.inj (Option.some.inj h)
        have habs := HashMap.lookup_eq_none_iff.mpr (HashMap.update_noexist_keys hu).1
        refine ⟨?_, fun k hk => by rw [HashMap.lookup_update hu, if_neg hk]⟩
        rw [HashMap.lookup_update hu, if_pos rfl, habs]
        rfl
      · rename_i hu
        obtain ⟨rfl, rfl⟩ := Prod.mk.inj (Option.some.inj h)
        refine ⟨?_, fun _ _ => rfl⟩
        obtain ⟨v, hv⟩ := HashMap.present_of_eexist hu
        rw [hv]
        rfl
      · rename_i e hne hu
        exact absurd (HashMap.update_noexist_error hu hroom') hne
  | again =>
      obtain ⟨rfl, rfl⟩ := Prod.mk.inj (Option.some.inj h)
      refine ⟨?_, fun _ _ => rfl⟩
      cases hl : m.lookup key <;> simp [cellStep]
  | add =>
      obtain ⟨rfl, rfl⟩ := Prod.mk.inj (Option.some.inj h)
      refine ⟨?_, fun k hk => by rw [HashMap.lookup_modify, if_neg hk]⟩
      rw [HashMap.lookup_modify, if_pos rfl]
      rfl
  | done => cases h
  | failed => cases h

end Calls

/-! ## Both maps -/

/-- The two maps and the calls, each with the flow it is for. -/
structure CountState where
  ipv4Count : HashMap Ipv4FlowKey UInt64 8192
  ipv6Count : HashMap Ipv6FlowKey UInt64 8192
  calls : List (Flow × Stage)

namespace CountState

/-- The counter of a flow. -/
def count (s : CountState) : Flow → Option UInt64
  | .v4 k => s.ipv4Count.lookup k
  | .v6 k => s.ipv6Count.lookup k

/-- Empty maps, and a call for each of the flows. -/
def start (flows : List Flow) : CountState :=
  ⟨HashMap.empty, HashMap.empty, flows.map fun f => (f, .lookup)⟩

/-- Every call has returned. -/
def AllReturned (s : CountState) : Prop := ∀ c ∈ s.calls, c.2 = .done ∨ c.2 = .failed

instance decAllReturned (s : CountState) : Decidable s.AllReturned :=
  inferInstanceAs (Decidable (∀ c ∈ s.calls, _))

/-- The map of a flow has its key or room for it. -/
def HasRoomFor (s : CountState) : Flow → Prop
  | .v4 k => HasRoom s.ipv4Count k
  | .v6 k => HasRoom s.ipv6Count k

instance decHasRoomFor (s : CountState) : ∀ f, Decidable (s.HasRoomFor f)
  | .v4 k => decHasRoom s.ipv4Count k
  | .v6 k => decHasRoom s.ipv6Count k

/-- A call that is about to insert finds its map not full. -/
def RoomFor (s : CountState) (i : Nat) : Prop :=
  ∀ c ∈ s.calls[i]?, c.2 = .insert → s.HasRoomFor c.1

instance decRoomFor (s : CountState) (i : Nat) : Decidable (s.RoomFor i) :=
  inferInstanceAs (Decidable (∀ c ∈ s.calls[i]?, _))

end CountState

section Count
variable [HashOrder Ipv4FlowKey] [HashOrder Ipv6FlowKey]

/-- One step of the call with the given number. -/
def countStep (s : CountState) (i : Nat) : Option CountState :=
  match s.calls[i]? with
  | none => none
  | some (.v4 k, st) => (callStep s.ipv4Count k st).map fun r =>
      { s with ipv4Count := r.1, calls := s.calls.set i (.v4 k, r.2) }
  | some (.v6 k, st) => (callStep s.ipv6Count k st).map fun r =>
      { s with ipv6Count := r.1, calls := s.calls.set i (.v6 k, r.2) }

/-- The two maps as one table. -/
def view (s : CountState) : Sys Flow UInt64 := ⟨s.count, s.calls⟩

omit [HashOrder Ipv4FlowKey] [HashOrder Ipv6FlowKey] in
/-- What a step of a call does to the entry of its flow, and to no other entry,
is a step on the table. -/
theorem step_view {s s' : CountState} {i : Nat} {f : Flow} {st st' : Stage}
    (hi : s.calls[i]? = some (f, st)) (hcalls : s'.calls = s.calls.set i (f, st'))
    (hcell : cellStep 0 (· + 1) (s.count f) st = some (s'.count f, st'))
    (hother : ∀ g, g ≠ f → s'.count g = s.count g) :
    step 0 (· + 1) (view s) i = some (view s') := by
  have htable : Function.update s.count f (s'.count f) = s'.count := by
    funext g
    by_cases hg : g = f
    · rw [hg, Function.update_self]
    · rw [Function.update_of_ne hg, hother g hg]
  simp only [step, view, hi, hcell, Option.map_some, htable, hcalls]

/-- With room, a step of the two maps is a step on the table. -/
theorem countStep_simulates {s s' : CountState} {i : Nat} (hroom : s.RoomFor i)
    (h : countStep s i = some s') : step 0 (· + 1) (view s) i = some (view s') := by
  unfold countStep at h
  split at h
  · cases h
  · rename_i k st hi
    obtain ⟨⟨m', st'⟩, hcall, rfl⟩ := Option.map_eq_some_iff.mp h
    obtain ⟨hcell, hother⟩ := callStep_cell (fun hst => hroom _ hi hst) hcall
    refine step_view hi rfl hcell ?_
    intro g hg
    cases g with
    | v4 k' => exact hother k' fun hk => hg (by rw [hk])
    | v6 k' => rfl
  · rename_i k st hi
    obtain ⟨⟨m', st'⟩, hcall, rfl⟩ := Option.map_eq_some_iff.mp h
    obtain ⟨hcell, hother⟩ := callStep_cell (fun hst => hroom _ hi hst) hcall
    refine step_view hi rfl hcell ?_
    intro g hg
    cases g with
    | v4 k' => rfl
    | v6 k' => exact hother k' fun hk => hg (by rw [hk])

omit [HashOrder Ipv4FlowKey] [HashOrder Ipv6FlowKey] in
theorem view_start (flows : List Flow) : view (CountState.start flows) = TryInit.start flows := by
  have htable : (CountState.start flows).count = fun _ => none := by
    funext f
    cases f <;> rfl
  simp only [view, htable]
  rfl

omit [HashOrder Ipv4FlowKey] [HashOrder Ipv6FlowKey] in
theorem iterate_succ_zero (n : Nat) : (· + 1)^[n] (0 : UInt64) = UInt64.ofNat n := by
  induction n with
  | zero => rfl
  | succ n ih =>
      rw [Function.iterate_succ_apply', ih]
      apply UInt64.toNat_inj.mp
      simp

/-- However the steps of the calls interleave, when all have returned a flow
has a counter exactly if it was counted, and the counter is the number of calls
for it. -/
theorem counts_exact (flows : List Flow) (sched : List Nat) (s : CountState)
    (hroom : Meets countStep CountState.RoomFor (CountState.start flows) sched)
    (hrun : exec countStep (CountState.start flows) sched = some s) (hdone : s.AllReturned)
    (f : Flow) :
    s.count f = (if f ∈ flows then some (UInt64.ofNat (flows.count f)) else none) ∧
      ∀ v, s.count f = some v → flows.count f < 2 ^ 64 → v.toNat = flows.count f := by
  have hsim := exec_simulates CountState.RoomFor view (fun _ _ _ => countStep_simulates) hroom hrun
  rw [view_start] at hsim
  have hcounts : s.count f = _ := run_counts hsim hdone f
  rw [iterate_succ_zero] at hcounts
  refine ⟨hcounts, fun v hv hlt => ?_⟩
  rw [hcounts] at hv
  split at hv
  · rw [← Option.some.inj hv, UInt64.toNat_ofNat_of_lt' hlt]
  · cases hv

end Count

/-- Two calls for one IPv4 flow and one for an IPv6 flow. -/
def sampleFlows : List Flow :=
  [.v4 ⟨1, 2, 80⟩, .v4 ⟨1, 2, 80⟩, .v6 ⟨Buf.zero 16, Buf.zero 16, 80⟩]

/-- Both IPv4 calls miss; the second inserts first and the first one's insert
finds the entry there. -/
def racingSchedule : List Nat := [0, 1, 1, 0, 2, 0, 2, 1, 2, 2, 0, 1]

theorem counts_exact_racingSchedule :
    ∃ s, exec (@countStep ⟨fun _ => 0⟩ ⟨fun _ => 0⟩) (CountState.start sampleFlows) racingSchedule
        = some s ∧ s.AllReturned ∧ s.count (.v4 ⟨1, 2, 80⟩) = some 2 := by
  have hrun : ((exec (@countStep ⟨fun _ => 0⟩ ⟨fun _ => 0⟩) (CountState.start sampleFlows)
      racingSchedule).map fun s => decide s.AllReturned) = some true := by
    decide +kernel
  have hroom : Meets (@countStep ⟨fun _ => 0⟩ ⟨fun _ => 0⟩) CountState.RoomFor
      (CountState.start sampleFlows) racingSchedule := by
    decide +kernel
  obtain ⟨s, hs, hdone⟩ := Option.map_eq_some_iff.mp hrun
  have hcount := (@counts_exact ⟨fun _ => 0⟩ ⟨fun _ => 0⟩ sampleFlows racingSchedule s hroom hs
    (of_decide_eq_true hdone) (.v4 ⟨1, 2, 80⟩)).1
  exact ⟨s, hs, of_decide_eq_true hdone, hcount.trans (by decide)⟩

end NetProbes.TcpConnect
