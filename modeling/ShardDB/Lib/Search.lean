import ShardDB.Lib.Bytes

/-!
# Binary search

`sort.Search`: the smallest index below `n` at which a predicate holds, or `n`. The predicate
may read out of bounds, and then the search has no result. The loop keeps an interval outside
of which the answer is known: the predicate fails before it and holds after it (`Bracket`).
-/

namespace ShardDB.Lib

/-- The loop of `sort.Search` over the indices from `i` up to `j`. -/
def searchLoop (f : Nat → Option Bool) : Nat → Nat → Nat → Option Nat
  | 0, i, _ => some i
  | fuel + 1, i, j =>
    if i < j then
      match f ((i + j) / 2) with
      | none => none
      | some false => searchLoop f fuel ((i + j) / 2 + 1) j
      | some true => searchLoop f fuel i ((i + j) / 2)
    else some i

/-- `sort.Search`. Every round shortens the interval, so `n` rounds are enough. -/
def search (n : Nat) (f : Nat → Option Bool) : Option Nat := searchLoop f n 0 n

/-- The answer lies between `i` and `j`. -/
structure Bracket (p : Nat → Bool) (n i j : Nat) : Prop where
  le : i ≤ j
  le_length : j ≤ n
  below : ∀ k < i, p k = false
  above : ∀ k, j ≤ k → k < n → p k = true

section Search

variable {f : Nat → Option Bool} {p : Nat → Bool} {n : Nat}

theorem searchLoop_bracket (hf : ∀ k < n, f k = some (p k))
    (hMono : ∀ k l, k ≤ l → l < n → p k = true → p l = true) {fuel i j : Nat}
    (h : Bracket p n i j) (hFuel : j - i ≤ fuel) :
    ∃ m, searchLoop f fuel i j = some m ∧ Bracket p n m m := by
  induction fuel generalizing i j with
  | zero =>
    obtain rfl : j = i := by
      have := h.le
      omega
    exact ⟨j, rfl, h⟩
  | succ fuel ih =>
    obtain ⟨hLe, hLength, hBelow, hAbove⟩ := h
    rw [searchLoop]
    split_ifs with hLt
    · rw [hf _ (by omega)]
      cases hMid : p ((i + j) / 2) with
      | false =>
        apply ih _ (by omega)
        refine ⟨by omega, hLength, ?_, hAbove⟩
        -- a position up to the middle where the predicate holds would make it hold there
        intro k hk
        by_contra hTrue
        have hHolds := hMono k ((i + j) / 2) (by omega) (by omega) (by simpa using hTrue)
        rw [hMid] at hHolds
        cases hHolds
      | true =>
        apply ih _ (by omega)
        refine ⟨by omega, by omega, hBelow, ?_⟩
        intro k hk hkn
        exact hMono _ k hk hkn hMid
    · obtain rfl : j = i := by omega
      exact ⟨j, rfl, le_rfl, hLength, hBelow, hAbove⟩

end Search

/-- In a list whose elements with the property come last, the search finds the first of them. -/
theorem search_append {α : Type} {q : α → Bool} {a b : List α} (ha : ∀ x ∈ a, q x = false)
    (hb : ∀ x ∈ b, q x = true) :
    search (a ++ b).length (fun i => (a ++ b)[i]?.map q) = some a.length := by
  have hf : ∀ k < (a ++ b).length,
      ((a ++ b)[k]?.map q) = some (decide (a.length ≤ k)) := by
    intro k hk
    by_cases hSide : a.length ≤ k
    · rw [List.getElem?_append_right hSide]
      rw [List.length_append] at hk
      have hIn : k - a.length < b.length := by omega
      rw [List.getElem?_eq_getElem hIn]
      simp [hSide, hb _ (List.getElem_mem hIn)]
    · have hIn : k < a.length := by omega
      rw [List.getElem?_append_left hIn, List.getElem?_eq_getElem hIn]
      simp [hSide, ha _ (List.getElem_mem hIn)]
  have hMono : ∀ k l, k ≤ l → l < (a ++ b).length → decide (a.length ≤ k) = true →
      decide (a.length ≤ l) = true := by
    intro k l hkl _ hk
    have := of_decide_eq_true hk
    exact decide_eq_true (by omega)
  have hStart : Bracket (fun k => decide (a.length ≤ k)) (a ++ b).length 0 (a ++ b).length := by
    refine ⟨Nat.zero_le _, le_rfl, ?_, ?_⟩
    · intro k hk
      omega
    · intro k hk hkn
      omega
  obtain ⟨m, hSearch, hm⟩ := searchLoop_bracket hf hMono hStart (Nat.sub_le _ _)
  rw [search, hSearch]
  congr 1
  -- the predicate is false just below the result and true from it on
  have hLength : a.length ≤ (a ++ b).length := by
    rw [List.length_append]
    omega
  by_contra hNe
  rcases Nat.lt_or_gt_of_ne hNe with hLt | hGt
  · have hHolds := of_decide_eq_true (hm.above m le_rfl (by omega))
    omega
  · have hFails := of_decide_eq_false (hm.below a.length hGt)
    omega

example : search 5 (fun i => [1, 3, 3, 7, 9][i]?.map fun x => decide (3 < x)) = some 3 := by decide

end ShardDB.Lib
