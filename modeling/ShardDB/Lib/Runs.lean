import Mathlib

/-!
# Runs of a step function

A step function takes a state and a label to the next state, if the step is possible. A run
under a discipline only takes steps that the discipline allows in the state before them. What
every allowed step preserves holds in every state that is reached (`Reaches.invariant`). A
list of labels is a run that can be evaluated.
-/

namespace ShardDB.Lib

variable {σ ℓ : Type} (next : σ → ℓ → Option σ) (ok : σ → ℓ → Prop)

/-- The states that are reached from a state by steps that are allowed. -/
inductive Reaches (s : σ) : σ → Prop
  | refl : Reaches s s
  | step {s₁ s₂ : σ} (l : ℓ) (h : Reaches s s₁) (hOk : ok s₁ l) (hNext : next s₁ l = some s₂) :
      Reaches s s₂

/-- The state after a list of labels. -/
def runLabels : σ → List ℓ → Option σ
  | s, [] => some s
  | s, l :: labels =>
    match next s l with
    | none => none
    | some s => runLabels s labels

/-- Every step of a list of labels is allowed. -/
def AllAllowed : σ → List ℓ → Prop
  | _, [] => True
  | s, l :: labels => ok s l ∧
    match next s l with
    | none => True
    | some s => AllAllowed s labels

instance instDecidableAllAllowed [∀ s l, Decidable (ok s l)] :
    (s : σ) → (labels : List ℓ) → Decidable (AllAllowed next ok s labels)
  | _, [] => .isTrue trivial
  | s, l :: labels =>
    have : Decidable (match next s l with
      | none => True
      | some s => AllAllowed next ok s labels) :=
      match next s l with
      | none => .isTrue trivial
      | some s => instDecidableAllAllowed s labels
    inferInstanceAs (Decidable (ok s l ∧ match next s l with
      | none => True
      | some s => AllAllowed next ok s labels))

variable {next ok} {s s' : σ}

theorem Reaches.invariant {I : σ → Prop} (h : Reaches next ok s s') (hStart : I s)
    (hStep : ∀ s l s', I s → ok s l → next s l = some s' → I s') : I s' := by
  induction h with
  | refl => exact hStart
  | step l _ hOk hNext ih => exact hStep _ l _ ih hOk hNext

theorem Reaches.trans {s₁ : σ} (h : Reaches next ok s s₁) (h' : Reaches next ok s₁ s') :
    Reaches next ok s s' := by
  induction h' with
  | refl => exact h
  | step l _ hOk hNext ih => exact .step l ih hOk hNext

theorem allAllowed_of_forall_mem {labels : List ℓ} (h : ∀ l ∈ labels, ∀ s, ok s l) :
    AllAllowed next ok s labels := by
  induction labels generalizing s with
  | nil => trivial
  | cons l labels ih =>
    refine ⟨h l List.mem_cons_self s, ?_⟩
    cases next s l with
    | none => trivial
    | some s => exact ih fun l hl => h l (List.mem_cons_of_mem _ hl)

theorem allAllowed_of_forall (h : ∀ s l, ok s l) (labels : List ℓ) :
    AllAllowed next ok s labels :=
  allAllowed_of_forall_mem fun l _ s => h s l

theorem reaches_of_runLabels {labels : List ℓ} (hRun : runLabels next s labels = some s')
    (hOk : AllAllowed next ok s labels) : Reaches next ok s s' := by
  induction labels generalizing s with
  | nil =>
    cases hRun
    exact .refl
  | cons l labels ih =>
    unfold runLabels at hRun
    obtain ⟨hFirst, hRest⟩ := hOk
    cases hNext : next s l with
    | none =>
      rw [hNext] at hRun
      cases hRun
    | some s₁ =>
      rw [hNext] at hRun hRest
      exact (Reaches.refl.step l hFirst hNext).trans (ih hRun hRest)

end ShardDB.Lib
