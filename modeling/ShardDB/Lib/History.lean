import Mathlib.Data.List.Induction

/-!
# The past of a run

A run applies a list of operations to a state. `Since stays starts` says of the past of a run
that at some point an operation did what `starts` says, and that from there on every
operation did what `stays` says. It is the past operator of temporal logic. Two rules go with
it: what the start establishes and the rest preserves holds now (`Since.invariant`), and what
holds now without having held at the beginning goes back to a start (`since_of_holds`).
-/

namespace ShardDB.Lib

variable {σ ω : Type} {step : σ → ω → σ} {stays starts : σ → ω → Prop} {s : σ} {ops : List ω}

/-- Some operation of the run started, and the operations after it stayed. -/
def Since (step : σ → ω → σ) (stays starts : σ → ω → Prop) (s : σ) (ops : List ω) : Prop :=
  ∃ pre o post, ops = pre ++ o :: post ∧ starts (pre.foldl step s) o ∧
    ∀ mid o' rest, post = mid ++ o' :: rest → stays ((pre ++ o :: mid).foldl step s) o'

theorem not_since_nil : ¬ Since step stays starts s [] := by
  rintro ⟨pre, o, post, h, -⟩
  simp at h

theorem since_concat_of_starts {o : ω} (h : starts (ops.foldl step s) o) :
    Since step stays starts s (ops ++ [o]) :=
  ⟨ops, o, [], rfl, h, fun mid o' rest hNil => by simp at hNil⟩

/-- An element of a list that is one longer is the last one or in the list before. -/
theorem concat_eq_append_cons {l pre post : List ω} {o o' : ω}
    (h : l ++ [o] = pre ++ o' :: post) :
    (l = pre ∧ o = o' ∧ post = []) ∨ ∃ rest, post = rest ++ [o] ∧ l = pre ++ o' :: rest := by
  induction post using List.reverseRecOn with
  | nil =>
    obtain ⟨rfl, hLast⟩ := List.append_inj' h rfl
    exact Or.inl ⟨rfl, List.singleton_inj.mp hLast, rfl⟩
  | append_singleton rest o'' _ =>
    rw [← List.cons_append, ← List.append_assoc] at h
    obtain ⟨rfl, hLast⟩ := List.append_inj' h rfl
    rw [List.singleton_inj.mp hLast]
    exact Or.inr ⟨rest, rfl, rfl⟩

theorem Since.concat {o : ω} (h : Since step stays starts s ops)
    (hStays : stays (ops.foldl step s) o) : Since step stays starts s (ops ++ [o]) := by
  obtain ⟨pre, o₁, post, rfl, hStarts, hRest⟩ := h
  refine ⟨pre, o₁, post ++ [o], by simp, hStarts, fun mid o' rest hSplit => ?_⟩
  rcases concat_eq_append_cons hSplit with ⟨rfl, rfl, -⟩ | ⟨rest', -, hPost⟩
  · exact hStays
  · exact hRest mid o' rest' hPost

/-- The past of a run that is one operation longer. -/
theorem since_concat {o : ω} :
    Since step stays starts s (ops ++ [o]) ↔
      starts (ops.foldl step s) o ∨
        Since step stays starts s ops ∧ stays (ops.foldl step s) o := by
  refine ⟨?_, fun h => h.elim since_concat_of_starts fun h => h.1.concat h.2⟩
  rintro ⟨pre, o₁, post, hSplit, hStarts, hRest⟩
  rcases concat_eq_append_cons hSplit with ⟨rfl, rfl, -⟩ | ⟨post', rfl, rfl⟩
  · exact Or.inl hStarts
  · refine Or.inr ⟨⟨pre, o₁, post', rfl, hStarts, fun mid o' rest hPost => ?_⟩, ?_⟩
    · exact hRest mid o' (rest ++ [o]) (by rw [hPost, List.append_assoc, List.cons_append])
    · exact hRest post' o [] rfl

/-- What the start establishes and every operation after it preserves holds now. -/
theorem Since.invariant {I : σ → Prop} (h : Since step stays starts s ops)
    (hStarts : ∀ s o, starts s o → I (step s o))
    (hStays : ∀ s o, I s → stays s o → I (step s o)) : I (ops.foldl step s) := by
  induction ops using List.reverseRecOn with
  | nil => exact absurd h not_since_nil
  | append_singleton ops o ih =>
    rw [List.foldl_append]
    rcases since_concat.mp h with h | ⟨h, hStay⟩
    · exact hStarts _ o h
    · exact hStays _ o (ih h) hStay

/-- What holds now, and did not hold at the beginning, goes back to an operation that
started it. -/
theorem since_of_holds {I : σ → Prop} (hBegin : ¬ I s)
    (hStep : ∀ s o, I (step s o) → starts s o ∨ I s ∧ stays s o) (h : I (ops.foldl step s)) :
    Since step stays starts s ops := by
  induction ops using List.reverseRecOn with
  | nil => exact absurd h hBegin
  | append_singleton ops o ih =>
    rw [List.foldl_append] at h
    rcases hStep _ o h with hStarts | ⟨hOld, hStay⟩
    · exact since_concat_of_starts hStarts
    · exact (ih hOld).concat hStay

end ShardDB.Lib
