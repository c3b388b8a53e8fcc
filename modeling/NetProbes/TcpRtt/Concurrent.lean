/-
# `NetProbes.TcpRtt.Concurrent` — `tcprtt` step by step

Handlers (`tcp_rcv`) on any CPUs and `print_map`, each cut into the steps that
are atomic: a map call, an atomic addition.  A handler that has looked up its
histogram holds a pointer to the memory of the entry.  A delete takes the
entry out of the table; the memory stays, a handler can still write to it, and
an insert can take it for another key.

    handler   lookup, insert, lookup again, slot, latency and cnt with `-e`
    printer   next key and copy, for all keys; then next key and delete

Every cell of memory and every printed copy has, beside what the code has, the
list of the handlers whose slot addition it got (`samples`): `Accounted` says
where the sample of a handler is.
-/
import NetProbes.TcpRtt.PrintMap
import NetProbes.Lib.Run

namespace NetProbes.TcpRtt

open NetProbes.Lib

/-! ## States -/

/-- What a handler does next. -/
inductive Stage where
  | lookup
  | insert
  | lookupAgain
  | addSlot (histp : Nat)
  | addLatency (histp : Nat)
  | addCnt (histp : Nat)
  | returned
  deriving DecidableEq

/-- A handler: its socket, and where it is. -/
structure Handler where
  sk : Sock
  stage : Stage
  deriving DecidableEq

/-- The memory of an entry, with the handlers that added to a slot. -/
structure Cell where
  hist : Hist
  samples : List Nat

/-- What `print_map` does next. -/
inductive Printer where
  | idle
  | scanNext (lookupKey : UInt64)
  | scanLookup (nextKey : UInt64)
  | deleteNext (lookupKey : UInt64)
  | delete (nextKey : UInt64)
  | failed
  | crashed

/-- A printed histogram. -/
structure Printed where
  key : UInt64
  row : Row
  samples : List Nat

/-- The system: the map from keys to memory, the memory, the handlers by
number, the printer, and what earlier passes and this pass have printed. -/
structure State where
  table : HashMap UInt64 Nat 10240
  cells : Nat → Cell
  handlers : Nat → Option Handler
  printer : Printer
  earlier : List Printed
  pass : List Printed

def State.init : State where
  table := HashMap.empty
  cells _ := ⟨Hist.zero, []⟩
  handlers _ := none
  printer := .idle
  earlier := []
  pass := []

/-- Everything printed so far. -/
def State.printed (s : State) : List Printed := s.earlier ++ s.pass

/-! ## Steps -/

/-- A handler goes on to a stage. -/
def State.move (s : State) (x : Nat) (h : Handler) (stage : Stage) : State :=
  { s with handlers := Function.update s.handlers x (some { h with stage }) }

/-- A cell of memory is written. -/
def State.write (s : State) (histp : Nat) (f : Cell → Cell) : State :=
  { s with cells := Function.update s.cells histp (f (s.cells histp)) }

/-- The next step of handler `x`; `addr` is the memory a new entry gets, which
is none that an entry has. -/
def handlerStep [HashOrder UInt64] (cfg : Config) (s : State) (x addr : Nat) : Option State :=
  match s.handlers x with
  | none => none
  | some h =>
      let key := keyOf cfg h.sk
      let srtt := srttOf cfg h.sk
      match h.stage with
      | .lookup =>
          match s.table.lookup key with
          | some histp => some (s.move x h (.addSlot histp))
          | none => some (s.move x h .insert)
      | .insert =>
          match s.table.update key addr .noexist with
          | .ok table =>
              if addr ∈ s.table.entries.map Prod.snd then none
              else some ({ s with
                table
                cells := Function.update s.cells addr ⟨Hist.zero, []⟩ }.move x h .lookupAgain)
          | .error .eexist => some (s.move x h .lookupAgain)
          | .error _ => some (s.move x h .returned)
      | .lookupAgain =>
          match s.table.lookup key with
          | some histp => some (s.move x h (.addSlot histp))
          | none => some (s.move x h .returned)
      | .addSlot histp =>
          some ((s.write histp fun c => ⟨c.hist.addSlot (slotOf srtt), c.samples ++ [x]⟩).move x h
            (if cfg.targShowExt then .addLatency histp else .returned))
      | .addLatency histp =>
          some ((s.write histp fun c => { c with hist := c.hist.addLatency srtt }).move x h
            (.addCnt histp))
      | .addCnt histp =>
          some ((s.write histp fun c => { c with hist := c.hist.addCnt }).move x h .returned)
      | .returned => none

/-- The next step of `print_map`; in `idle` the next call of it begins. -/
def printerStep (cfg : Config) (s : State) : Option State :=
  match s.printer with
  | .idle => some { s with
      printer := .scanNext noKey
      earlier := s.earlier ++ s.pass
      pass := [] }
  | .scanNext lookupKey =>
      match s.table.nextKey lookupKey with
      | some nextKey => some { s with printer := .scanLookup nextKey }
      | none => some { s with printer := .deleteNext noKey }
  | .scanLookup nextKey =>
      match s.table.lookup nextKey with
      | none => some { s with printer := .failed }
      | some histp =>
          let cell := s.cells histp
          if cfg.targShowExt && cell.hist.cnt == 0 then some { s with printer := .crashed }
          else some { s with
            printer := .scanNext nextKey
            pass := s.pass ++ [⟨nextKey, rowOf cfg nextKey cell.hist, cell.samples⟩] }
  | .deleteNext lookupKey =>
      match s.table.nextKey lookupKey with
      | some nextKey => some { s with printer := .delete nextKey }
      | none => some { s with printer := .idle }
  | .delete nextKey =>
      match s.table.delete nextKey with
      | .ok table => some { s with table, printer := .deleteNext nextKey }
      | .error _ => some { s with printer := .failed }
  | .failed => none
  | .crashed => none

/-- A segment arrives, a handler makes a step, the printer makes a step. -/
inductive Action where
  | arrive (x : Nat) (sk : Sock)
  | handler (x addr : Nat)
  | printer

def concurrentStep [HashOrder UInt64] (cfg : Config) (s : State) : Action → Option State
  | .arrive x sk =>
      match s.handlers x with
      | some _ => none
      | none => some (s.move x ⟨sk, .lookup⟩ (if accepts cfg sk then .lookup else .returned))
  | .handler x addr => handlerStep cfg s x addr
  | .printer => printerStep cfg s

/-! ## What a step can be -/

/-- The steps of handler `x`, by the stage it is in. -/
inductive HandlerMove [HashOrder UInt64] (cfg : Config) (s : State) (x addr : Nat) (sk : Sock) :
    Stage → State → Prop
  | hit {histp : Nat} : s.table.lookup (keyOf cfg sk) = some histp →
      HandlerMove cfg s x addr sk .lookup (s.move x ⟨sk, .lookup⟩ (.addSlot histp))
  | miss : s.table.lookup (keyOf cfg sk) = none →
      HandlerMove cfg s x addr sk .lookup (s.move x ⟨sk, .lookup⟩ .insert)
  | insert {table : HashMap UInt64 Nat 10240} :
      s.table.update (keyOf cfg sk) addr .noexist = .ok table →
      addr ∉ s.table.entries.map Prod.snd →
      HandlerMove cfg s x addr sk .insert ({ s with
        table
        cells := Function.update s.cells addr ⟨Hist.zero, []⟩ }.move x ⟨sk, .insert⟩ .lookupAgain)
  | insertLost : s.table.update (keyOf cfg sk) addr .noexist = .error .eexist →
      HandlerMove cfg s x addr sk .insert (s.move x ⟨sk, .insert⟩ .lookupAgain)
  | insertFailed {e : MapError} : s.table.update (keyOf cfg sk) addr .noexist = .error e →
      e ≠ .eexist → HandlerMove cfg s x addr sk .insert (s.move x ⟨sk, .insert⟩ .returned)
  | found {histp : Nat} : s.table.lookup (keyOf cfg sk) = some histp →
      HandlerMove cfg s x addr sk .lookupAgain (s.move x ⟨sk, .lookupAgain⟩ (.addSlot histp))
  | gone : s.table.lookup (keyOf cfg sk) = none →
      HandlerMove cfg s x addr sk .lookupAgain (s.move x ⟨sk, .lookupAgain⟩ .returned)
  | addSlot {histp : Nat} : HandlerMove cfg s x addr sk (.addSlot histp)
      ((s.write histp fun c =>
        ⟨c.hist.addSlot (slotOf (srttOf cfg sk)), c.samples ++ [x]⟩).move x ⟨sk, .addSlot histp⟩
          (if cfg.targShowExt then .addLatency histp else .returned))
  | addLatency {histp : Nat} : HandlerMove cfg s x addr sk (.addLatency histp)
      ((s.write histp fun c => { c with hist := c.hist.addLatency (srttOf cfg sk) }).move x
        ⟨sk, .addLatency histp⟩ (.addCnt histp))
  | addCnt {histp : Nat} : HandlerMove cfg s x addr sk (.addCnt histp)
      ((s.write histp fun c => { c with hist := c.hist.addCnt }).move x ⟨sk, .addCnt histp⟩
        .returned)

theorem handlerStep_move [HashOrder UInt64] {cfg : Config} {s s' : State} {x addr : Nat}
    (h : handlerStep cfg s x addr = some s') :
    ∃ sk stage, s.handlers x = some ⟨sk, stage⟩ ∧ HandlerMove cfg s x addr sk stage s' := by
  cases hx : s.handlers x with
  | none => simp [handlerStep, hx] at h
  | some hd =>
      obtain ⟨sk, stage⟩ := hd
      refine ⟨sk, stage, rfl, ?_⟩
      simp only [handlerStep, hx] at h
      cases stage with
      | lookup =>
          cases hl : s.table.lookup (keyOf cfg sk) with
          | some histp =>
              simp only [hl, Option.some.injEq] at h
              exact h ▸ .hit hl
          | none =>
              simp only [hl, Option.some.injEq] at h
              exact h ▸ .miss hl
      | insert =>
          cases hu : s.table.update (keyOf cfg sk) addr .noexist with
          | ok table =>
              simp only [hu] at h
              split at h
              · cases h
              · rename_i hfree
                exact Option.some.inj h ▸ .insert hu hfree
          | error e =>
              cases e with
              | eexist =>
                  simp only [hu, Option.some.injEq] at h
                  exact h ▸ .insertLost hu
              | enoent =>
                  simp only [hu, Option.some.injEq] at h
                  exact h ▸ .insertFailed hu (by decide)
              | e2big =>
                  simp only [hu, Option.some.injEq] at h
                  exact h ▸ .insertFailed hu (by decide)
      | lookupAgain =>
          cases hl : s.table.lookup (keyOf cfg sk) with
          | some histp =>
              simp only [hl, Option.some.injEq] at h
              exact h ▸ .found hl
          | none =>
              simp only [hl, Option.some.injEq] at h
              exact h ▸ .gone hl
      | addSlot histp => exact Option.some.inj h ▸ .addSlot
      | addLatency histp => exact Option.some.inj h ▸ .addLatency
      | addCnt histp => exact Option.some.inj h ▸ .addCnt
      | returned => cases h

/-- The steps of `print_map`, by where it is. -/
inductive PrinterMove (cfg : Config) (s : State) : Printer → State → Prop
  | start : PrinterMove cfg s .idle { s with
      printer := .scanNext noKey
      earlier := s.earlier ++ s.pass
      pass := [] }
  | scanNext {c n : UInt64} : s.table.nextKey c = some n →
      PrinterMove cfg s (.scanNext c) { s with printer := .scanLookup n }
  | scanEnd {c : UInt64} : s.table.nextKey c = none →
      PrinterMove cfg s (.scanNext c) { s with printer := .deleteNext noKey }
  | scanFailed {n : UInt64} : s.table.lookup n = none →
      PrinterMove cfg s (.scanLookup n) { s with printer := .failed }
  | crash {n : UInt64} {histp : Nat} : s.table.lookup n = some histp →
      cfg.targShowExt = true → (s.cells histp).hist.cnt = 0 →
      PrinterMove cfg s (.scanLookup n) { s with printer := .crashed }
  | copy {n : UInt64} {histp : Nat} : s.table.lookup n = some histp →
      ¬ (cfg.targShowExt = true ∧ (s.cells histp).hist.cnt = 0) →
      PrinterMove cfg s (.scanLookup n) { s with
        printer := .scanNext n
        pass := s.pass ++ [⟨n, rowOf cfg n (s.cells histp).hist, (s.cells histp).samples⟩] }
  | deleteNext {c n : UInt64} : s.table.nextKey c = some n →
      PrinterMove cfg s (.deleteNext c) { s with printer := .delete n }
  | deleteEnd {c : UInt64} : s.table.nextKey c = none →
      PrinterMove cfg s (.deleteNext c) { s with printer := .idle }
  | delete {n : UInt64} {table : HashMap UInt64 Nat 10240} : s.table.delete n = .ok table →
      PrinterMove cfg s (.delete n) { s with table, printer := .deleteNext n }
  | deleteFailed {n : UInt64} {e : MapError} : s.table.delete n = .error e →
      PrinterMove cfg s (.delete n) { s with printer := .failed }

theorem printerStep_move {cfg : Config} {s s' : State} (h : printerStep cfg s = some s') :
    PrinterMove cfg s s.printer s' := by
  cases hp : s.printer with
  | idle =>
      simp only [printerStep, hp, Option.some.injEq] at h
      exact h ▸ .start
  | scanNext c =>
      cases hn : s.table.nextKey c with
      | some n =>
          simp only [printerStep, hp, hn, Option.some.injEq] at h
          exact h ▸ .scanNext hn
      | none =>
          simp only [printerStep, hp, hn, Option.some.injEq] at h
          exact h ▸ .scanEnd hn
  | scanLookup n =>
      cases hl : s.table.lookup n with
      | none =>
          simp only [printerStep, hp, hl, Option.some.injEq] at h
          exact h ▸ .scanFailed hl
      | some histp =>
          simp only [printerStep, hp, hl] at h
          split at h
          · rename_i hzero
            simp only [Bool.and_eq_true, beq_iff_eq] at hzero
            exact Option.some.inj h ▸ .crash hl hzero.1 hzero.2
          · rename_i hcopy
            simp only [Bool.and_eq_true, beq_iff_eq] at hcopy
            exact Option.some.inj h ▸ .copy hl hcopy
  | deleteNext c =>
      cases hn : s.table.nextKey c with
      | some n =>
          simp only [printerStep, hp, hn, Option.some.injEq] at h
          exact h ▸ .deleteNext hn
      | none =>
          simp only [printerStep, hp, hn, Option.some.injEq] at h
          exact h ▸ .deleteEnd hn
  | delete n =>
      cases hd : s.table.delete n with
      | ok table =>
          simp only [printerStep, hp, hd, Option.some.injEq] at h
          exact h ▸ .delete hd
      | error e =>
          simp only [printerStep, hp, hd, Option.some.injEq] at h
          exact h ▸ .deleteFailed hd
  | failed => simp [printerStep, hp] at h
  | crashed => simp [printerStep, hp] at h

/-! ## Where a sample is -/

/-- The sample of `x` is in the histogram the map has for `key`. -/
def InMap (s : State) (key : UInt64) (x : Nat) : Prop :=
  ∃ histp, s.table.lookup key = some histp ∧ x ∈ (s.cells histp).samples

/-- A handler does not lose its sample: an insert has room, a second lookup
finds the entry, a slot addition goes to the entry its key has now. -/
def SafeHandler (cfg : Config) (s : State) : Handler → Prop
  | ⟨sk, .insert⟩ => s.table.entries.length < 10240 ∨ (s.table.lookup (keyOf cfg sk)).isSome
  | ⟨sk, .lookupAgain⟩ => (s.table.lookup (keyOf cfg sk)).isSome
  | ⟨sk, .addSlot histp⟩ => s.table.lookup (keyOf cfg sk) = some histp
  | _ => True

/-- A delete takes an entry that this pass has printed as it is. -/
def SafePrinter (s : State) : Printer → Prop
  | .delete nextKey => ∀ histp ∈ s.table.lookup nextKey,
      ∃ p ∈ s.pass, p.key = nextKey ∧ p.samples = (s.cells histp).samples
  | _ => True

/-- The step loses no sample. -/
def Safe (cfg : Config) (s : State) : Action → Prop
  | .arrive _ _ => True
  | .handler x _ => ∀ h ∈ s.handlers x, SafeHandler cfg s h
  | .printer => SafePrinter s s.printer

instance decSafeHandler (cfg : Config) (s : State) : DecidablePred (SafeHandler cfg s)
  | ⟨_, .lookup⟩ => isTrue trivial
  | ⟨sk, .insert⟩ => inferInstanceAs
      (Decidable (s.table.entries.length < 10240 ∨ (s.table.lookup (keyOf cfg sk)).isSome))
  | ⟨sk, .lookupAgain⟩ => inferInstanceAs (Decidable (s.table.lookup (keyOf cfg sk)).isSome)
  | ⟨sk, .addSlot histp⟩ => inferInstanceAs
      (Decidable (s.table.lookup (keyOf cfg sk) = some histp))
  | ⟨_, .addLatency _⟩ => isTrue trivial
  | ⟨_, .addCnt _⟩ => isTrue trivial
  | ⟨_, .returned⟩ => isTrue trivial

instance decSafePrinter (s : State) : DecidablePred (SafePrinter s)
  | .idle => isTrue trivial
  | .scanNext _ => isTrue trivial
  | .scanLookup _ => isTrue trivial
  | .deleteNext _ => isTrue trivial
  | .delete nextKey => inferInstanceAs (Decidable (∀ histp ∈ s.table.lookup nextKey,
      ∃ p ∈ s.pass, p.key = nextKey ∧ p.samples = (s.cells histp).samples))
  | .failed => isTrue trivial
  | .crashed => isTrue trivial

instance decSafe (cfg : Config) (s : State) : DecidablePred (Safe cfg s)
  | .arrive _ _ => isTrue trivial
  | .handler x _ => inferInstanceAs (Decidable (∀ h ∈ s.handlers x, SafeHandler cfg s h))
  | .printer => decSafePrinter s s.printer

end NetProbes.TcpRtt
