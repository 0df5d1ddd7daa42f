import Mathlib.Data.List.Basic

/-!
# Interleavings of two programs

A program is a list of operations; executing one yields the next state and a result. When
every operation of one program commutes with every operation of the other, in the states they
lead to and in the results they return, an interleaving of the two programs is as good as
running one after the other (`Interleaves.run`), and every operation returns what it returns
there (`Interleaves.results`).
-/

namespace ShardDB.Lib

variable {σ ω ρ : Type}

/-- The third list merges the first two, each in its own order. -/
inductive Interleaves : List ω → List ω → List ω → Prop
  | nil : Interleaves [] [] []
  | left {a b l : List ω} (x : ω) (h : Interleaves a b l) : Interleaves (x :: a) b (x :: l)
  | right {a b l : List ω} (y : ω) (h : Interleaves a b l) : Interleaves a (y :: b) (y :: l)

theorem Interleaves.symm {a b l : List ω} (h : Interleaves a b l) : Interleaves b a l := by
  induction h with
  | nil => exact .nil
  | left x _ ih => exact .right x ih
  | right y _ ih => exact .left y ih

/-- A property that tells the two programs apart recovers the first one. -/
theorem Interleaves.filter {a b l : List ω} (h : Interleaves a b l) {p : ω → Bool}
    (ha : ∀ x ∈ a, p x = true) (hb : ∀ y ∈ b, p y = false) : l.filter p = a := by
  induction h with
  | nil => rfl
  | left x _ ih =>
    rw [List.filter_cons_of_pos (ha x List.mem_cons_self),
      ih (fun x hx => ha x (List.mem_cons_of_mem _ hx)) hb]
  | right y _ ih =>
    rw [List.filter_cons_of_neg (by simp [hb y List.mem_cons_self]),
      ih ha fun y hy => hb y (List.mem_cons_of_mem _ hy)]

variable (exec : σ → ω → σ × ρ)

/-- The state after a program. -/
def runOps (s : σ) (l : List ω) : σ := l.foldl (fun s o => (exec s o).1) s

/-- The operations of a program with their results. -/
def trace : σ → List ω → List (ω × ρ)
  | _, [] => []
  | s, o :: l => (o, (exec s o).2) :: trace (exec s o).1 l

theorem map_fst_trace (s : σ) (l : List ω) : (trace exec s l).map Prod.fst = l := by
  induction l generalizing s with
  | nil => rfl
  | cons o l ih => rw [trace, List.map_cons, ih]

/-- Two operations may be swapped: both orders lead to the same state, and neither changes the
result of the other. -/
def Commutes (x y : ω) : Prop :=
  ∀ s, (exec (exec s x).1 y).1 = (exec (exec s y).1 x).1 ∧
    (exec (exec s x).1 y).2 = (exec s y).2 ∧ (exec (exec s y).1 x).2 = (exec s x).2

variable {exec} {a b l : List ω}

/-- An operation that commutes with a program may be moved behind it. -/
theorem runOps_of_commutes {y : ω} (h : ∀ x ∈ a, Commutes exec x y) (s : σ) :
    runOps exec (exec s y).1 a = (exec (runOps exec s a) y).1 ∧
      trace exec (exec s y).1 a = trace exec s a ∧
      (exec (runOps exec s a) y).2 = (exec s y).2 := by
  induction a generalizing s with
  | nil => exact ⟨rfl, rfl, rfl⟩
  | cons x a ih =>
    obtain ⟨hState, hResult, hResult'⟩ := h x List.mem_cons_self s
    obtain ⟨hRun, hTrace, hLast⟩ :=
      ih (fun x hx => h x (List.mem_cons_of_mem _ hx)) (exec s x).1
    rw [hState] at hRun hTrace
    refine ⟨hRun, ?_, hLast.trans hResult⟩
    rw [trace, trace, hResult', hTrace]

theorem Interleaves.run (h : Interleaves a b l)
    (hCommutes : ∀ x ∈ a, ∀ y ∈ b, Commutes exec x y) (s : σ) :
    runOps exec s l = runOps exec (runOps exec s a) b := by
  induction h generalizing s with
  | nil => rfl
  | left x _ ih => exact ih (fun x hx => hCommutes x (List.mem_cons_of_mem _ hx)) _
  | right y _ ih =>
    refine (ih (fun x hx y hy => hCommutes x hx y (List.mem_cons_of_mem _ hy)) _).trans ?_
    rw [(runOps_of_commutes (fun x hx => hCommutes x hx y List.mem_cons_self) s).1]
    rfl

theorem Interleaves.results (h : Interleaves a b l)
    (hCommutes : ∀ x ∈ a, ∀ y ∈ b, Commutes exec x y) (s : σ) :
    Interleaves (trace exec s a) (trace exec (runOps exec s a) b) (trace exec s l) := by
  induction h generalizing s with
  | nil => exact .nil
  | left x _ ih => exact .left _ (ih (fun x hx => hCommutes x (List.mem_cons_of_mem _ hx)) _)
  | @right a b l y _ ih =>
    obtain ⟨hRun, hTrace, hResult⟩ :=
      runOps_of_commutes (fun x hx => hCommutes x hx y List.mem_cons_self) s
    have hTail := ih (fun x hx y hy => hCommutes x hx y (List.mem_cons_of_mem _ hy)) (exec s y).1
    rw [hRun, hTrace] at hTail
    rw [trace, trace, hResult]
    exact .right _ hTail

end ShardDB.Lib
