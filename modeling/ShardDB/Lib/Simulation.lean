import ShardDB.Lib.Interleaving

/-!
# Simulation of one machine by another

Two machines that execute the same operations. If a relation between their states is kept by
every operation, and related states give equal results, then a program started in related states
ends in related states and returns the same results all along.
-/

namespace ShardDB.Lib

variable {σ τ ω ρ : Type} {exec : σ → ω → σ × ρ} {spec : τ → ω → τ × ρ}

/-- Related states stay related under the operations in question and give the same results. -/
def Simulates (exec : σ → ω → σ × ρ) (spec : τ → ω → τ × ρ) (R : σ → τ → Prop) (ok : ω → Prop) :
    Prop :=
  ∀ s m o, R s m → ok o → R (exec s o).1 (spec m o).1 ∧ (exec s o).2 = (spec m o).2

theorem Simulates.run {R : σ → τ → Prop} {ok : ω → Prop} (h : Simulates exec spec R ok) {s : σ}
    {m : τ} (hStart : R s m) {l : List ω} (hOk : ∀ o ∈ l, ok o) :
    R (runOps exec s l) (runOps spec m l) ∧ trace exec s l = trace spec m l := by
  induction l generalizing s m with
  | nil => exact ⟨hStart, rfl⟩
  | cons o l ih =>
    obtain ⟨hNext, hResult⟩ := h s m o hStart (hOk o List.mem_cons_self)
    obtain ⟨hEnd, hTrace⟩ := ih hNext fun o' ho => hOk o' (List.mem_cons_of_mem _ ho)
    refine ⟨hEnd, ?_⟩
    rw [trace, trace, hResult, hTrace]

end ShardDB.Lib
