/-
# `NetProbes.Lib.RecordQueue` — many writers, one reader, places in order

The queue a ring buffer is for.  A writer reserves the next place, and later
submits something in it or discards it; places are finished in any order.  The
reader takes them in the order in which they were reserved, and waits at a
place that is still busy.

    reserve      a busy place at the end
    finish i e   place `i` is submitted or discarded
    take         the next place, which is finished

    run    delivered is what was submitted in the places that were taken
           (`exec_queueInv`)
    drain  a reader that can take whatever can be taken, can go on until the
           first busy place (`drains`)
-/
import NetProbes.Lib.Run

namespace NetProbes.Lib

variable {α : Type}

/-- What became of a place. -/
inductive Entry (α : Type) where
  | busy
  | submitted (a : α)
  | discarded
  deriving DecidableEq

def Entry.finished : Entry α → Bool
  | .busy => false
  | _ => true

/-- What a reader gets from a place. -/
def Entry.content : Entry α → Option α
  | .submitted a => some a
  | _ => none

/-- The places reserved so far, how many are taken, and what the reader got. -/
structure Queue (α : Type) where
  entries : List (Entry α)
  read : Nat
  delivered : List α

inductive QueueAction (α : Type) where
  | reserve
  | finish (i : Nat) (e : Entry α)
  | take

def Queue.init : Queue α := ⟨[], 0, []⟩

/-- The next place was taken. -/
def Queue.took (q : Queue α) (e : Entry α) : Queue α :=
  { q with read := q.read + 1, delivered := q.delivered ++ e.content.toList }

def queueStep (q : Queue α) : QueueAction α → Option (Queue α)
  | .reserve => some { q with entries := q.entries ++ [.busy] }
  | .finish i e =>
      match q.entries[i]? with
      | some .busy => if e.finished then some { q with entries := q.entries.set i e } else none
      | _ => none
  | .take =>
      match q.entries[q.read]? with
      | some e =>
          if e.finished then some (q.took e) else none
      | none => none

/-! ## What was delivered -/

/-- The places taken are finished, and what was submitted in them is delivered,
in their order. -/
structure QueueInv (q : Queue α) : Prop where
  read_le : q.read ≤ q.entries.length
  finished : ∀ e ∈ q.entries.take q.read, e.finished = true
  delivered : q.delivered = (q.entries.take q.read).filterMap Entry.content

theorem queueInv_init : QueueInv (Queue.init : Queue α) :=
  ⟨Nat.le_refl _, fun _ h => absurd h List.not_mem_nil, rfl⟩

theorem queueInv_step {q q' : Queue α} {a : QueueAction α} (h : QueueInv q)
    (hstep : queueStep q a = some q') : QueueInv q' := by
  obtain ⟨hle, hfin, hdel⟩ := h
  cases a with
  | reserve =>
      cases hstep
      have htake : (q.entries ++ [Entry.busy]).take q.read = q.entries.take q.read :=
        List.take_append_of_le_length hle
      refine ⟨?_, fun e he => hfin e (htake ▸ he), hdel.trans (congrArg _ htake.symm)⟩
      rw [List.length_append]
      exact Nat.le_add_right_of_le hle
  | finish i e =>
      simp only [queueStep] at hstep
      split at hstep
      · rename_i hbusy
        split at hstep
        · cases hstep
          -- a busy place is not among those taken
          have hread : q.read ≤ i := by
            by_contra hlt
            have hmem : Entry.busy ∈ q.entries.take q.read := by
              refine List.mem_of_getElem? (i := i) ?_
              rw [List.getElem?_take_of_lt (by omega), hbusy]
            cases hfin _ hmem
          have htake : (q.entries.set i e).take q.read = q.entries.take q.read :=
            List.take_set_of_le hread
          exact ⟨by rw [List.length_set]; exact hle, fun d hd => hfin d (htake ▸ hd),
            hdel.trans (congrArg _ htake.symm)⟩
        · cases hstep
      · cases hstep
  | take =>
      simp only [queueStep] at hstep
      split at hstep
      · rename_i e he
        split at hstep
        · rename_i hdone
          cases hstep
          have htake : (q.took e).entries.take (q.took e).read = q.entries.take q.read ++ [e] := by
            show q.entries.take (q.read + 1) = _
            rw [List.take_add_one, he]
            rfl
          refine ⟨(List.getElem?_eq_some_iff.mp he).1, fun d hd => ?_, ?_⟩
          · rw [htake] at hd
            rcases List.mem_append.mp hd with hd | hd
            · exact hfin d hd
            · exact List.mem_singleton.mp hd ▸ hdone
          · rw [htake, List.filterMap_append, ← hdel]
            cases e <;> rfl
        · cases hstep
      · cases hstep

theorem exec_queueInv {tr : List (QueueAction α)} {q : Queue α}
    (h : exec queueStep Queue.init tr = some q) : QueueInv q :=
  exec_invariant (fun _ _ _ => queueInv_step) queueInv_init h

/-! ## Reading on -/

/-- The places in front of the first busy one. -/
def Queue.ready (q : Queue α) : List (Entry α) := q.entries.takeWhile Entry.finished

theorem QueueInv.read_le_ready {q : Queue α} (h : QueueInv q) : q.read ≤ q.ready.length := by
  have hready : q.ready = q.entries.take q.read
      ++ (q.entries.drop q.read).takeWhile Entry.finished := by
    rw [← List.takeWhile_append_of_pos h.finished, List.take_append_drop]
    rfl
  rw [hready, List.length_append, List.length_take, Nat.min_eq_left h.read_le]
  exact Nat.le_add_right _ _

/-- A place in front of the first busy one can be taken. -/
theorem take_of_lt_ready {q : Queue α} (h : q.read < q.ready.length) :
    ∃ e, q.entries[q.read]? = some e ∧ e.finished = true ∧ queueStep q .take = some (q.took e) := by
  have hget : q.entries[q.read]? = some q.ready[q.read] := by
    rw [← List.getElem?_eq_getElem h]
    have hpre : q.ready <+: q.entries := List.takeWhile_prefix _
    exact (List.prefix_iff_getElem?.mp hpre q.read h).trans (List.getElem?_eq_getElem h).symm
  have hfin : (q.ready[q.read]).finished = true :=
    List.mem_takeWhile_imp (List.getElem_mem h)
  refine ⟨_, hget, hfin, ?_⟩
  simp only [queueStep, hget, if_pos hfin]

/-- All that was submitted in front of the first busy place is delivered. -/
theorem QueueInv.delivered_ready {q : Queue α} (h : QueueInv q) (hread : q.read = q.ready.length) :
    q.delivered = q.ready.filterMap Entry.content := by
  have hpre : q.ready <+: q.entries := List.takeWhile_prefix _
  rw [h.delivered, hread, ← List.prefix_iff_eq_take.mp hpre]

/-- A system whose own actions can take whatever can be taken, goes on until
the first busy place by its own actions. -/
theorem drains {σ β : Type} {step : σ → β → Option σ} {R : σ → Queue α → Prop} {own : β}
    (hinv : ∀ s q, R s q → QueueInv q)
    (htake : ∀ s q q', R s q → queueStep q .take = some q' →
      ∃ n s', exec step s (List.replicate n own) = some s' ∧ R s' q')
    {s : σ} {q : Queue α} (hR : R s q) :
    ∃ n s' q', exec step s (List.replicate n own) = some s' ∧ R s' q' ∧
      q'.entries = q.entries ∧ q'.delivered = q.ready.filterMap Entry.content := by
  induction hleft : q.ready.length - q.read generalizing s q with
  | zero =>
      have hle := (hinv s q hR).read_le_ready
      exact ⟨0, s, q, rfl, hR, rfl, (hinv s q hR).delivered_ready (by omega)⟩
  | succ k ih =>
      obtain ⟨e, -, -, hstep⟩ := take_of_lt_ready (show q.read < q.ready.length by omega)
      obtain ⟨n, s₁, hexec, hR₁⟩ := htake s q _ hR hstep
      have hready : (q.took e).ready = q.ready := rfl
      have hread : (q.took e).read = q.read + 1 := rfl
      obtain ⟨m, s', q', hexec', hR', hentries, hdel⟩ := ih hR₁ (by rw [hready, hread]; omega)
      refine ⟨n + m, s', q', ?_, hR', hentries, hdel⟩
      rw [List.replicate_add]
      exact exec_append.mpr ⟨s₁, hexec, hexec'⟩

end NetProbes.Lib
