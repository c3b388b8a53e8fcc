/-
# `NetProbes.Lib.Run` — runs of a step function

A system is a step function `σ → α → Option σ`: an action that cannot happen
in a state gives `none`.  A run is a list of actions that all happen
(`exec step s tr = some s'`, which is `List.foldlM`), so a statement about every
list of actions is a statement about every run and every state a run reaches,
every interleaving included.

    exec_invariant     what every step keeps, every run keeps
    exec_invariant_of  the same for runs whose steps all meet a condition on
                       the state before the step (`Meets`)
    exec_simulates     steps that are steps of another system make runs of it
    exec_refines       steps that are some steps of an abstract system, in a
                       relation, make runs of it
    Meets.imp          a condition can be replaced by one that follows from it
                       where an invariant holds
    meets_congr        and by one that says the same there
    meets_view         a system that carries more along, and is not changed by
                       it, meets the same conditions
-/
import Mathlib

namespace NetProbes.Lib

variable {σ α : Type}

/-- Perform a list of actions in order. -/
def exec (step : σ → α → Option σ) (s : σ) (tr : List α) : Option σ := tr.foldlM step s

/-- Every step of the run starts in a state that meets the condition. -/
def Meets (step : σ → α → Option σ) (ok : σ → α → Prop) : σ → List α → Prop
  | _, [] => True
  | s, a :: tr => ok s a ∧ ∀ s', step s a = some s' → Meets step ok s' tr

instance decMeets (step : σ → α → Option σ) (ok : σ → α → Prop) [∀ s a, Decidable (ok s a)] :
    ∀ (s : σ) (tr : List α), Decidable (Meets step ok s tr)
  | _, [] => isTrue trivial
  | s, a :: tr =>
      match h : step s a with
      | none => decidable_of_iff (ok s a) ⟨fun hok => ⟨hok, by simp [h]⟩, And.left⟩
      | some s₁ =>
          have := decMeets step ok s₁ tr
          decidable_of_iff (ok s a ∧ Meets step ok s₁ tr) (by simp [Meets, h])

theorem exec_cons {step : σ → α → Option σ} {s s' : σ} {a : α} {tr : List α} :
    exec step s (a :: tr) = some s' ↔ ∃ s₁, step s a = some s₁ ∧ exec step s₁ tr = some s' := by
  rw [exec, List.foldlM_cons, Option.bind_eq_bind, Option.bind_eq_some_iff]
  rfl

theorem exec_step {step : σ → α → Option σ} {s s₁ : σ} {a : α} (h : step s a = some s₁)
    (tr : List α) : exec step s (a :: tr) = exec step s₁ tr := by
  rw [exec, List.foldlM_cons, h]
  rfl

theorem exec_append {step : σ → α → Option σ} {s s' : σ} {tr tr' : List α} :
    exec step s (tr ++ tr') = some s' ↔
      ∃ s₁, exec step s tr = some s₁ ∧ exec step s₁ tr' = some s' := by
  rw [exec, List.foldlM_append, Option.bind_eq_bind, Option.bind_eq_some_iff]
  rfl

/-- Every action of a run happened in some state. -/
theorem exec_mem {step : σ → α → Option σ} {a : α} :
    ∀ {tr : List α} {s s' : σ}, exec step s tr = some s' → a ∈ tr → ∃ s₁ s₂, step s₁ a = some s₂
  | b :: tr, s, s', h, hmem => by
      obtain ⟨s₁, h₁, h₂⟩ := exec_cons.mp h
      rcases List.mem_cons.mp hmem with rfl | hmem
      · exact ⟨s, s₁, h₁⟩
      · exact exec_mem h₂ hmem

/-- The rule for runs whose steps all meet a condition. -/
theorem exec_invariant_of {step : σ → α → Option σ} (ok : σ → α → Prop) {I : σ → Prop}
    (hstep : ∀ s a s', I s → ok s a → step s a = some s' → I s') :
    ∀ (tr : List α) {s s' : σ}, I s → Meets step ok s tr → exec step s tr = some s' → I s'
  | [], s, s', hs, _, h => by
      cases h
      exact hs
  | a :: tr, s, s', hs, hok, h => by
      obtain ⟨s₁, h₁, h₂⟩ := exec_cons.mp h
      exact exec_invariant_of ok hstep tr (hstep s a s₁ hs hok.1 h₁) (hok.2 s₁ h₁) h₂

/-- A condition on the actions alone. -/
theorem meets_of_forall {step : σ → α → Option σ} {ok : σ → α → Prop} :
    ∀ {tr : List α} {s : σ}, (∀ a ∈ tr, ∀ s, ok s a) → Meets step ok s tr
  | [], _, _ => trivial
  | a :: _, s, h => ⟨h a List.mem_cons_self s,
      fun _ _ => meets_of_forall fun b hb => h b (List.mem_cons_of_mem a hb)⟩

/-- Two conditions on the steps of a run are one. -/
theorem Meets.and {step : σ → α → Option σ} {ok ok' : σ → α → Prop} :
    ∀ {tr : List α} {s : σ}, Meets step ok s tr → Meets step ok' s tr →
      Meets step (fun s a => ok s a ∧ ok' s a) s tr
  | [], _, _, _ => trivial
  | _ :: _, _, h, h' => ⟨⟨h.1, h'.1⟩, fun s' hs' => (h.2 s' hs').and (h'.2 s' hs')⟩

/-- The rule for all runs. -/
theorem exec_invariant {step : σ → α → Option σ} {I : σ → Prop}
    (hstep : ∀ s a s', I s → step s a = some s' → I s') {tr : List α} {s s' : σ}
    (hs : I s) (h : exec step s tr = some s') : I s' :=
  exec_invariant_of (fun _ _ => True) (fun s a s' hI _ => hstep s a s' hI) tr hs
    (meets_of_forall fun _ _ _ => trivial) h

/-- The rule for a simulation along a function, for runs whose steps all meet
a condition. -/
theorem exec_simulates {τ : Type} {step : σ → α → Option σ} {abs : τ → α → Option τ}
    (ok : σ → α → Prop) (view : σ → τ)
    (hstep : ∀ s a s', ok s a → step s a = some s' → abs (view s) a = some (view s'))
    {tr : List α} {s s' : σ} (hok : Meets step ok s tr) (h : exec step s tr = some s') :
    exec abs (view s) tr = some (view s') := by
  induction tr generalizing s with
  | nil =>
      cases h
      rfl
  | cons a tr ih =>
      obtain ⟨s₁, h₁, h₂⟩ := exec_cons.mp h
      exact exec_cons.mpr ⟨view s₁, hstep s a s₁ hok.1 h₁, ih (hok.2 s₁ h₁) h₂⟩

/-- The rule for a refinement along a relation: a step is any number of steps
of the abstract system, which has actions of its own. -/
theorem exec_refines {τ β : Type} {step : σ → α → Option σ} {abs : τ → β → Option τ}
    {R : σ → τ → Prop}
    (hstep : ∀ s a s' t, R s t → step s a = some s' →
      ∃ acts t', exec abs t acts = some t' ∧ R s' t')
    {tr : List α} {s s' : σ} {t : τ} (hR : R s t) (h : exec step s tr = some s') :
    ∃ acts t', exec abs t acts = some t' ∧ R s' t' := by
  induction tr generalizing s t with
  | nil =>
      cases h
      exact ⟨[], t, rfl, hR⟩
  | cons a tr ih =>
      obtain ⟨s₁, h₁, h₂⟩ := exec_cons.mp h
      obtain ⟨acts₁, t₁, hacts₁, hR₁⟩ := hstep s a s₁ t hR h₁
      obtain ⟨acts₂, t₂, hacts₂, hR₂⟩ := ih hR₁ h₂
      exact ⟨acts₁ ++ acts₂, t₂, exec_append.mpr ⟨t₁, hacts₁, hacts₂⟩, hR₂⟩

/-- The rule for two conditions, one of which follows where an invariant of
the runs that meet the other holds. -/
theorem Meets.imp {step : σ → α → Option σ} {ok ok' : σ → α → Prop} {I : σ → Prop}
    (hstep : ∀ s a s', I s → ok s a → step s a = some s' → I s')
    (himp : ∀ s a, I s → ok s a → ok' s a) :
    ∀ {tr : List α} {s : σ}, I s → Meets step ok s tr → Meets step ok' s tr
  | [], _, _, _ => trivial
  | a :: _, s, hs, h => ⟨himp s a hs h.1,
      fun s' hs' => Meets.imp hstep himp (hstep s a s' hs h.1 hs') (h.2 s' hs')⟩

theorem meets_congr {step : σ → α → Option σ} {ok ok' : σ → α → Prop} {I : σ → Prop}
    (hstep : ∀ s a s', I s → step s a = some s' → I s')
    (hok : ∀ s a, I s → (ok s a ↔ ok' s a)) {tr : List α} {s : σ} (hs : I s) :
    Meets step ok s tr ↔ Meets step ok' s tr := by
  induction tr generalizing s with
  | nil => exact Iff.rfl
  | cons a tr ih =>
      refine and_congr (hok s a hs) (forall_congr' fun s' => ?_)
      exact imp_congr_right fun h => ih (hstep s a s' hs h)

theorem meets_view {τ : Type} {step : σ → α → Option σ} {abs : τ → α → Option τ} (view : σ → τ)
    (hstep : ∀ s a, abs (view s) a = (step s a).map view) (ok : τ → α → Prop) {tr : List α} {s : σ} :
    Meets abs ok (view s) tr ↔ Meets step (fun s a => ok (view s) a) s tr := by
  induction tr generalizing s with
  | nil => exact Iff.rfl
  | cons a tr ih =>
      refine and_congr Iff.rfl ?_
      rw [hstep]
      constructor
      · intro h s' hs'
        exact ih.mp (h (view s') (by rw [hs']; rfl))
      · intro h t' ht'
        obtain ⟨s', hs', rfl⟩ := Option.map_eq_some_iff.mp ht'
        exact ih.mpr (h s' hs')

end NetProbes.Lib
