/-
# `NetProbes.Lib.Alloc` — programs whose memory may be refused

A program asks for memory and gets it or not; whether it does may depend on
everything that was asked for before, so an allocator is any function of the
requests so far and the size.  The requests are logged, refused ones too.

    ask      the caller gives up where the request is refused (`failed`)
    tryAsk   the caller goes on without the memory

What the language leaves open ends a program as well (`undefined`), and so does
fuel that runs out (`running`).  `Ends m asked P E` says of `m`, where `asked`
was asked for already, that `P` holds of its result and of the log if it has a
result, and `E` of why it has none and of the log if not; a proof follows the
program by `ends_bind`, `ends_ask` and `Ends.imp`.
-/
import Mathlib.Data.List.Basic

namespace NetProbes.Lib

abbrev Allocator := List Nat → Nat → Bool

/-- Why a program has no result. -/
inductive Halt where
  | failed
  | undefined
  | running
  deriving DecidableEq

/-- The requests are the state. -/
abbrev Mem := ExceptT Halt (StateM (List Nat))

/-- `malloc`, with a caller that does not look. -/
def tryAsk (alloc : Allocator) (size : Nat) : Mem Bool := do
  let asked ← get
  set (asked ++ [size])
  pure (alloc asked size)

/-- `malloc`, with a caller that gives up. -/
def ask (alloc : Allocator) (size : Nat) : Mem Unit := do
  if ← tryAsk alloc size then pure () else throw .failed

/-! ## What was asked for -/

/-- The requests were granted, each after those in front of it. -/
def Granted (alloc : Allocator) (asked : List Nat) : Prop :=
  ∀ before size after, asked = before ++ size :: after → alloc before size = true

/-- The last request was refused. -/
def Refused (alloc : Allocator) (asked : List Nat) : Prop :=
  ∃ before size, asked = before ++ [size] ∧ alloc before size = false

section Log

variable {alloc : Allocator} {asked : List Nat} {size : Nat}

theorem granted_nil (alloc : Allocator) : Granted alloc [] := by
  intro before size after h
  cases before <;> cases h

theorem granted_concat :
    Granted alloc (asked ++ [size]) ↔ Granted alloc asked ∧ alloc asked size = true := by
  constructor
  · intro h
    refine ⟨fun before s after heq => h before s (after ++ [size]) ?_, h asked size [] rfl⟩
    rw [heq, List.append_assoc, List.cons_append]
  · rintro ⟨h, hsize⟩ before s after heq
    rcases List.eq_nil_or_concat after with rfl | ⟨after, last, rfl⟩
    · obtain ⟨rfl, hs⟩ := List.append_inj' heq rfl
      obtain rfl := List.head_eq_of_cons_eq hs
      exact hsize
    · rw [List.concat_eq_append, ← List.cons_append, ← List.append_assoc] at heq
      exact h before s after (List.append_inj' heq rfl).1

theorem refused_concat : Refused alloc (asked ++ [size]) ↔ alloc asked size = false := by
  constructor
  · rintro ⟨before, s, heq, h⟩
    obtain ⟨rfl, hs⟩ := List.append_inj' heq rfl
    obtain rfl := List.head_eq_of_cons_eq hs
    exact h
  · intro h
    exact ⟨asked, size, rfl, h⟩

theorem Granted.not_refused (h : Granted alloc asked) : ¬ Refused alloc asked := by
  rintro ⟨before, size, heq, hno⟩
  rw [h before size [] heq] at hno
  cases hno

end Log

/-! ## How a program ends -/

structure Ends {α : Type} (m : Mem α) (asked : List Nat) (P : α → List Nat → Prop)
    (E : Halt → List Nat → Prop) : Prop where
  result : ∀ a after, m.run.run asked = (.ok a, after) → P a after
  halt : ∀ halt after, m.run.run asked = (.error halt, after) → E halt after

section Ends

variable {α β : Type} {alloc : Allocator} {asked : List Nat} {size : Nat}
  {P Q : α → List Nat → Prop} {E : Halt → List Nat → Prop}

theorem Ends.imp {m : Mem α} {E' : Halt → List Nat → Prop} (h : Ends m asked P E)
    (hresult : ∀ a after, P a after → Q a after)
    (hhalt : ∀ halt after, E halt after → E' halt after) : Ends m asked Q E' :=
  ⟨fun a after hrun => hresult a after (h.result a after hrun),
    fun halt after hrun => hhalt halt after (h.halt halt after hrun)⟩

theorem run_bind (m : Mem α) (f : α → Mem β) (asked : List Nat) :
    (m >>= f).run.run asked = match m.run.run asked with
      | (.ok a, after) => (f a).run.run after
      | (.error halt, after) => (.error halt, after) := by
  rw [ExceptT.run_bind, StateT.run_bind]
  cases m.run.run asked with
  | mk r after => cases r <;> rfl

/-- The second part starts with what the first one ends with. -/
theorem ends_bind {m : Mem α} {f : α → Mem β} {Q : β → List Nat → Prop} (hm : Ends m asked P E)
    (hf : ∀ a after, P a after → Ends (f a) after Q E) : Ends (m >>= f) asked Q E := by
  have hbind := run_bind m f asked
  cases hrun : m.run.run asked with
  | mk r after =>
      rw [hrun] at hbind
      cases r with
      | ok a =>
          have hrest := hf a after (hm.result a after hrun)
          exact ⟨hbind ▸ hrest.result, hbind ▸ hrest.halt⟩
      | error halt =>
          refine ⟨fun b after' h => ?_, fun halt' after' h => ?_⟩
          · cases hbind.symm.trans h
          · cases hbind.symm.trans h
            exact hm.halt _ _ hrun

theorem ends_pure {a : α} (h : P a asked) : Ends (pure a) asked P E where
  result a after hrun := by
    cases hrun
    exact h
  halt halt after hrun := by cases hrun

theorem ends_throw {halt : Halt} (h : E halt asked) : Ends (throw halt) asked P E where
  result a after hrun := by cases hrun
  halt halt after hrun := by
    cases hrun
    exact h

theorem ends_tryAsk {f : Bool → Mem α} (h : Ends (f (alloc asked size)) (asked ++ [size]) P E) :
    Ends (tryAsk alloc size >>= f) asked P E := ⟨h.result, h.halt⟩

theorem ends_ask {f : Unit → Mem α}
    (hyes : alloc asked size = true → Ends (f ()) (asked ++ [size]) P E)
    (hno : alloc asked size = false → E .failed (asked ++ [size])) :
    Ends (ask alloc size >>= f) asked P E := by
  rw [ask, bind_assoc]
  refine ends_tryAsk ?_
  cases h : alloc asked size with
  | true => exact ⟨(hyes h).result, (hyes h).halt⟩
  | false => exact ends_throw (hno h)

end Ends

end NetProbes.Lib
