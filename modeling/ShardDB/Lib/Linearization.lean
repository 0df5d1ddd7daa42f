import Mathlib.Data.List.Basic

/-!
# Linearization of concurrent operations

A concurrent object takes steps, some of which give an operation its effect; such a step emits an
event. A sequential object accepts an event or refuses it. If every step of the concurrent object
is, seen through a relation between the two, no step of the sequential object or the one that
accepts its event, then the events of a run, in their order, are a run of the sequential object
(`runEvents_accepted`). What the events say about the operations, and that an operation emits its
events between its call and its return, are invariants of the run (`runEvents_invariant`) and of its
parts (`runEvents_split`).
-/

namespace ShardDB.Lib

variable {σ ℓ ε α : Type} (next : σ → ℓ → Option (σ × Option ε))

/-- The state after a list of labels, and the events on the way. -/
def runEvents : σ → List ℓ → Option (σ × List ε)
  | s, [] => some (s, [])
  | s, l :: labels =>
    match next s l with
    | none => none
    | some (s, e) => (runEvents s labels).map fun r => (r.1, e.toList ++ r.2)

variable {next}

theorem runEvents_cons_eq_some {s s' : σ} {l : ℓ} {labels : List ℓ} {events : List ε}
    (hRun : runEvents next s (l :: labels) = some (s', events)) :
    ∃ s₁ e rest, next s l = some (s₁, e) ∧ runEvents next s₁ labels = some (s', rest) ∧
      events = e.toList ++ rest := by
  rw [runEvents] at hRun
  split at hRun
  · cases hRun
  · next s₁ e hNext =>
    obtain ⟨⟨s₂, rest⟩, hRest, hEnd⟩ := Option.map_eq_some_iff.mp hRun
    cases hEnd
    exact ⟨s₁, e, rest, hNext, hRest, rfl⟩

/-- What every step preserves of the labels, the state and the events so far holds of a run. -/
theorem runEvents_invariant {I : List ℓ → σ → List ε → Prop}
    (hStep : ∀ past s events l s' e, I past s events → next s l = some (s', e) →
      I (past ++ [l]) s' (events ++ e.toList))
    {past : List ℓ} {s s' : σ} {events₀ events : List ε} {labels : List ℓ}
    (hStart : I past s events₀) (hRun : runEvents next s labels = some (s', events)) :
    I (past ++ labels) s' (events₀ ++ events) := by
  induction labels generalizing past s events₀ events with
  | nil =>
    cases hRun
    simpa using hStart
  | cons l labels ih =>
    obtain ⟨s₁, e, rest, hNext, hRest, rfl⟩ := runEvents_cons_eq_some hRun
    have hEnd := ih (hStep past s events₀ l s₁ e hStart hNext) hRest
    simpa only [List.append_assoc, List.singleton_append] using hEnd

/-- A run in two parts. -/
theorem runEvents_split {s s' : σ} {before after : List ℓ} {events : List ε}
    (hRun : runEvents next s (before ++ after) = some (s', events)) :
    ∃ s₁ earlier later, runEvents next s before = some (s₁, earlier) ∧
      runEvents next s₁ after = some (s', later) ∧ events = earlier ++ later := by
  induction before generalizing s events with
  | nil => exact ⟨s, [], events, rfl, hRun, rfl⟩
  | cons l before ih =>
    obtain ⟨s₁, e, rest, hNext, hRest, rfl⟩ := runEvents_cons_eq_some hRun
    obtain ⟨s₂, earlier, later, hBefore, hAfter, rfl⟩ := ih hRest
    refine ⟨s₂, e.toList ++ earlier, later, ?_, hAfter, (List.append_assoc ..).symm⟩
    simp only [runEvents, hNext, hBefore, Option.map_some]

theorem runEvents_accepted {accept : α → ε → Option α} {R : σ → α → Prop}
    (hStep : ∀ s l s' e a, R s a → next s l = some (s', e) →
      ∃ a', e.toList.foldlM accept a = some a' ∧ R s' a')
    {s s' : σ} {a : α} {labels : List ℓ} {events : List ε} (hStart : R s a)
    (hRun : runEvents next s labels = some (s', events)) :
    ∃ a', events.foldlM accept a = some a' ∧ R s' a' := by
  refine @runEvents_invariant σ ℓ ε next
    (fun _ s events => ∃ a', events.foldlM accept a = some a' ∧ R s a') ?_ [] s s' [] events labels
    ⟨a, rfl, hStart⟩ hRun
  rintro past s events l s' e ⟨a₁, hAccept, hRel⟩ hNext
  obtain ⟨a₂, hNew, hRel'⟩ := hStep s l s' e a₁ hRel hNext
  refine ⟨a₂, ?_, hRel'⟩
  rw [List.foldlM_append, hAccept]
  exact hNew

end ShardDB.Lib
