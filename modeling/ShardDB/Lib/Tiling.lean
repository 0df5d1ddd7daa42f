import Mathlib

/-!
# Intervals that tile a linear order

A list of intervals is given by a lower bound `lo` and an upper bound `hi` for its elements,
where `⊥` and `⊤` are no bounds. If the lower bounds increase from `⊥`, the last element
that starts at or before a key (`served`) splits the list in two (`Ordered.around`), and
replacing it by two elements only changes what serves the keys it served
(`Around.served_split`).

`Tiles` says more: every element ends where the next one starts, and no element is empty. Then
every key lies in exactly one element (`Tiles.existsUnique`), and the first element that
contains a key is the last one that starts at or before it (`Tiles.find?_eq`).
-/

namespace ShardDB.Lib.Tiling

variable {ρ α : Type} [LinearOrder α] (lo : ρ → WithBot α) (hi : ρ → WithTop α)

/-! ## Increasing lower bounds -/

/-- The lower bounds increase, and the first one is no bound. -/
structure Ordered (l : List ρ) : Prop where
  first : ∃ r rest, l = r :: rest ∧ lo r = ⊥
  sorted : l.Pairwise fun r r' => lo r ≤ lo r'

/-- The last element that starts at or before a key. -/
def served (l : List ρ) (key : α) : Option ρ := (l.filter fun r => lo r ≤ key).getLast?

/-- The element at the position is the last one that starts at or before the key. -/
def Serves (l : List ρ) (key : α) (i : Nat) : Prop :=
  (∃ r, l[i]? = some r ∧ lo r ≤ key) ∧ ∀ j r, i < j → l[j]? = some r → ¬ lo r ≤ key

/-- The list around the last element `t` that starts at or before a key. -/
structure Around (l : List ρ) (key : α) (pre : List ρ) (t : ρ) (post : List ρ) : Prop where
  eq : l = pre ++ t :: post
  before : ∀ r ∈ pre, lo r ≤ key
  at_key : lo t ≤ key
  after : ∀ r ∈ post, ¬ lo r ≤ key

section Ordered

variable {lo} {l pre post : List ρ} {r t r₁ r₂ : ρ} {key k : α}

theorem exists_append_of_sorted (h : l.Pairwise fun r r' => lo r ≤ lo r') (key : α) :
    ∃ pre post, l = pre ++ post ∧ (∀ r ∈ pre, lo r ≤ key) ∧ ∀ r ∈ post, ¬ lo r ≤ key := by
  induction l with
  | nil => exact ⟨[], [], rfl, by simp, by simp⟩
  | cons r l ih =>
    obtain ⟨hFirst, hRest⟩ := List.pairwise_cons.mp h
    by_cases hr : lo r ≤ key
    · obtain ⟨pre, post, rfl, hPre, hPost⟩ := ih hRest
      refine ⟨r :: pre, post, rfl, ?_, hPost⟩
      intro x hx
      rcases List.mem_cons.mp hx with rfl | hx
      · exact hr
      · exact hPre x hx
    · refine ⟨[], r :: l, rfl, by simp, ?_⟩
      intro x hx
      rcases List.mem_cons.mp hx with rfl | hx
      · exact hr
      · exact fun hLe => hr ((hFirst x hx).trans hLe)

/-- Some element starts at or before every key, since the first one does. -/
theorem Ordered.around (h : Ordered lo l) (key : α) : ∃ pre t post, Around lo l key pre t post := by
  obtain ⟨pre, post, rfl, hPre, hPost⟩ := exists_append_of_sorted h.sorted key
  rcases List.eq_nil_or_concat' pre with rfl | ⟨pre, t, rfl⟩
  · obtain ⟨r, rest, hEq, hr⟩ := h.first
    rw [List.nil_append] at hEq
    refine (hPost r ?_ ?_).elim
    · rw [hEq]
      exact List.mem_cons_self
    · rw [hr]
      exact bot_le
  · refine ⟨pre, t, post, by simp, ?_, ?_, hPost⟩
    · intro r hr
      exact hPre r (List.mem_append_left _ hr)
    · exact hPre t (by simp)

theorem served_append (a b : List ρ) :
    served lo (a ++ b) key = (served lo b key).or (served lo a key) := by
  rw [served, List.filter_append, List.getLast?_append]
  rfl

theorem served_cons (l : List ρ) :
    served lo (r :: l) key = (served lo l key).or (if lo r ≤ key then some r else none) := by
  rw [← List.singleton_append, served_append]
  congr 1
  by_cases hr : lo r ≤ key <;> simp [served, hr]

theorem served_eq_none_iff : served lo l key = none ↔ ∀ r ∈ l, ¬ lo r ≤ key := by
  simp [served]

theorem Around.served_eq (h : Around lo l key pre t post) : served lo l key = some t := by
  rw [h.eq, served_append, served_cons, served_eq_none_iff.mpr h.after, if_pos h.at_key]
  rfl

theorem serves_length :
    Serves lo (pre ++ t :: post) key pre.length ↔ lo t ≤ key ∧ ∀ r ∈ post, ¬ lo r ≤ key := by
  constructor
  · rintro ⟨⟨r, hGet, hr⟩, hLater⟩
    have hHere : (pre ++ t :: post)[pre.length]? = some t := by simp
    rw [hHere] at hGet
    cases hGet
    refine ⟨hr, fun x hx => ?_⟩
    obtain ⟨j, hj⟩ := List.mem_iff_getElem?.mp hx
    apply hLater (pre.length + (j + 1)) x (by omega)
    rw [List.getElem?_append_right (by omega)]
    simpa using hj
  · rintro ⟨ht, hPost⟩
    refine ⟨⟨t, by simp, ht⟩, fun j r hj hGet => ?_⟩
    obtain ⟨d, rfl⟩ := Nat.exists_eq_add_of_lt hj
    rw [List.getElem?_append_right (by omega), show pre.length + d + 1 - pre.length = d + 1 by omega,
      List.getElem?_cons_succ] at hGet
    exact hPost r (List.mem_of_getElem? hGet)

/-- At most one position serves a key. -/
theorem Serves.unique {i j : Nat} (hi : Serves lo l key i) (hj : Serves lo l key j) : i = j := by
  obtain ⟨⟨r, hr, hrKey⟩, hiLater⟩ := hi
  obtain ⟨⟨r', hr', hrKey'⟩, hjLater⟩ := hj
  rcases Nat.lt_trichotomy i j with h | h | h
  · exact (hiLater j r' h hr' hrKey').elim
  · exact h
  · exact (hjLater i r h hr hrKey).elim

theorem Around.serves (h : Around lo l key pre t post) : Serves lo l key pre.length := by
  rw [h.eq]
  exact serves_length.mpr ⟨h.at_key, h.after⟩

/-- The keys that are served by the element that serves `k`. -/
theorem Around.same_iff (h : Around lo l k pre t post) :
    (∃ i, Serves lo l key i ∧ Serves lo l k i) ↔ lo t ≤ key ∧ ∀ r ∈ post, ¬ lo r ≤ key := by
  constructor
  · rintro ⟨i, hKey, hk⟩
    obtain rfl := hk.unique h.serves
    rw [h.eq] at hKey
    exact serves_length.mp hKey
  · intro hSame
    refine ⟨pre.length, ?_, h.serves⟩
    rw [h.eq]
    exact serves_length.mpr hSame

/-- Two elements in the place of the one that serves `k`, the second of which starts at `k`. -/
theorem Around.served_split (h : Around lo l k pre t post) (h₁ : lo r₁ = lo t)
    (h₂ : ∀ key : α, lo r₂ ≤ key ↔ k ≤ key) (key : α) :
    ((∃ i, Serves lo l key i ∧ Serves lo l k i) →
      served lo (pre ++ r₁ :: r₂ :: post) key = some (if key < k then r₁ else r₂)) ∧
    ((¬ ∃ i, Serves lo l key i ∧ Serves lo l k i) →
      served lo (pre ++ r₁ :: r₂ :: post) key = served lo l key) := by
  rw [h.same_iff, h.eq, served_append, served_append, served_cons, served_cons, served_cons, h₁]
  simp only [h₂]
  constructor
  · rintro ⟨ht, hPost⟩
    rw [served_eq_none_iff.mpr hPost, if_pos ht]
    by_cases hk : k ≤ key
    · simp [hk, not_lt.mpr hk]
    · simp [hk, not_le.mp hk]
  · intro hOther
    cases hPost : served lo post key with
    | some r => simp
    | none =>
      -- then the key is before `t`, and so before `k`
      have ht : ¬ lo t ≤ key := fun ht => hOther ⟨ht, served_eq_none_iff.mp hPost⟩
      have hk : ¬ k ≤ key := fun hk => ht (h.at_key.trans (WithBot.coe_le_coe.mpr hk))
      simp [ht, hk]

/-- The lower bounds still increase after such a step. -/
theorem Ordered.split (h : Ordered lo (pre ++ t :: post)) (h₁ : lo r₁ = lo t) (h₂ : lo t ≤ lo r₂)
    (hPost : ∀ r ∈ post, lo r₂ ≤ lo r) : Ordered lo (pre ++ r₁ :: r₂ :: post) := by
  obtain ⟨hFirst, hSorted⟩ := h
  constructor
  · obtain ⟨r, rest, hEq, hr⟩ := hFirst
    cases pre with
    | nil =>
      cases hEq
      exact ⟨r₁, _, rfl, h₁.trans hr⟩
    | cons x pre =>
      cases hEq
      exact ⟨_, _, rfl, hr⟩
  · simp only [List.pairwise_append, List.pairwise_cons, List.mem_cons] at hSorted ⊢
    obtain ⟨hPre, ⟨hAfter, hRest⟩, hCross⟩ := hSorted
    refine ⟨hPre, ⟨?_, hPost, hRest⟩, ?_⟩
    · rintro r (rfl | hr)
      · exact h₁.trans_le h₂
      · exact h₁.trans_le (hAfter r hr)
    · rintro x hx r (rfl | rfl | hr)
      · exact (hCross x hx t (Or.inl rfl)).trans_eq h₁.symm
      · exact (hCross x hx t (Or.inl rfl)).trans h₂
      · exact hCross x hx r (Or.inr hr)

end Ordered

/-! ## Tilings -/

/-- The elements cover everything from the bound on, one after the other. -/
inductive Tiles : WithBot α → List ρ → Prop
  | last (r : ρ) (hTop : hi r = ⊤) : Tiles (lo r) [r]
  | cons (r : ρ) (rest : List ρ) (b : α) (hEnd : hi r = b) (hLt : lo r < b)
      (hRest : Tiles b rest) : Tiles (lo r) (r :: rest)

namespace Tiles

variable {lo hi} {a : WithBot α} {l pre post : List ρ} {t r₁ r₂ : ρ} {key k : α}

theorem first (h : Tiles lo hi a l) : ∃ r rest, l = r :: rest ∧ lo r = a := by
  cases h with
  | last r => exact ⟨r, [], rfl, rfl⟩
  | cons r rest => exact ⟨r, rest, rfl, rfl⟩

theorem getLast (h : Tiles lo hi a l) : ∃ r, l.getLast? = some r ∧ hi r = ⊤ := by
  induction h with
  | last r hTop => exact ⟨r, rfl, hTop⟩
  | cons r rest b _ _ hRest ih =>
    obtain ⟨x, hLast, hx⟩ := ih
    refine ⟨x, ?_, hx⟩
    rw [List.getLast?_cons, hLast]
    rfl

/-- Every element ends where the next one starts. -/
theorem isChain (h : Tiles lo hi a l) :
    l.IsChain fun r r' => ∃ b : α, hi r = b ∧ lo r' = b := by
  induction h with
  | last r => exact List.IsChain.singleton r
  | cons r rest b hEnd _ hRest ih =>
    obtain ⟨x, rest, rfl, hx⟩ := hRest.first
    exact List.IsChain.cons_cons ⟨b, hEnd, hx⟩ ih

theorem le_lo (h : Tiles lo hi a l) : ∀ r ∈ l, a ≤ lo r := by
  induction h with
  | last r =>
    intro x hx
    rw [List.mem_singleton.mp hx]
  | cons r rest b _ hLt _ ih =>
    intro x hx
    rcases List.mem_cons.mp hx with rfl | hx
    · exact le_rfl
    · exact hLt.le.trans (ih x hx)

theorem pairwise_lt (h : Tiles lo hi a l) : l.Pairwise fun r r' => lo r < lo r' := by
  induction h with
  | last r => exact List.pairwise_singleton _ r
  | cons r rest b _ hLt hRest ih =>
    refine List.pairwise_cons.mpr ⟨?_, ih⟩
    intro x hx
    exact hLt.trans_le (hRest.le_lo x hx)

theorem ordered (h : Tiles lo hi ⊥ l) : Ordered lo l :=
  ⟨h.first, h.pairwise_lt.imp le_of_lt⟩

/-- Every key from the bound on lies in exactly one element. -/
theorem existsUnique (h : Tiles lo hi a l) (hKey : a ≤ key) :
    ∃! i : Nat, ∃ r, l[i]? = some r ∧ lo r ≤ key ∧ key < hi r := by
  induction h with
  | last r hTop =>
    refine ⟨0, ⟨r, rfl, hKey, hTop ▸ WithTop.coe_lt_top key⟩, ?_⟩
    rintro i ⟨x, hGet, -⟩
    have := (List.getElem?_eq_some_iff.mp hGet).1
    rw [List.length_singleton] at this
    omega
  | cons r rest b hEnd hLt hRest ih =>
    by_cases hb : key < b
    · refine ⟨0, ⟨r, rfl, hKey, hEnd ▸ WithTop.coe_lt_coe.mpr hb⟩, ?_⟩
      rintro i ⟨x, hGet, hx, -⟩
      cases i with
      | zero => rfl
      | succ i =>
        -- a later element starts at `b` or later
        have hLater := hRest.le_lo x (List.mem_of_getElem? hGet)
        exact (not_le.mpr hb (WithBot.coe_le_coe.mp (hLater.trans hx))).elim
    · obtain ⟨i, ⟨x, hGet, hx⟩, hUnique⟩ := ih (WithBot.coe_le_coe.mpr (not_lt.mp hb))
      refine ⟨i + 1, ⟨x, hGet, hx⟩, ?_⟩
      rintro j ⟨y, hGetJ, hy⟩
      cases j with
      | zero =>
        cases hGetJ
        rw [hEnd, WithTop.coe_lt_coe] at hy
        exact (hb hy.2).elim
      | succ j => rw [hUnique j ⟨y, hGetJ, hy⟩]

/-- The first element that contains a key is the last one that starts at or before it. -/
theorem find?_eq (h : Tiles lo hi a l) (hKey : a ≤ key) {contains : ρ → Bool}
    (hContains : ∀ r, contains r = true ↔ lo r ≤ key ∧ key < hi r) :
    l.find? contains = served lo l key := by
  induction h with
  | last r hTop => simp [served, hKey, hTop, hContains]
  | cons r rest b hEnd hLt hRest ih =>
    have hHere := hContains r
    rw [hEnd, WithTop.coe_lt_coe] at hHere
    rw [served_cons, List.find?_cons]
    by_cases hb : key < b
    · have hNone : served lo rest key = none := by
        rw [served_eq_none_iff]
        intro x hx hLe
        have hLater := (hRest.le_lo x hx).trans hLe
        exact not_le.mpr hb (WithBot.coe_le_coe.mp hLater)
      simp [hHere.mpr ⟨hKey, hb⟩, hKey, hNone]
    · have hStart : (b : WithBot α) ≤ key := WithBot.coe_le_coe.mpr (not_lt.mp hb)
      obtain ⟨x, tail, rfl, hx⟩ := hRest.first
      have hSome : served lo (x :: tail) key ≠ none := by
        rw [Ne, served_eq_none_iff]
        intro hAll
        exact hAll x List.mem_cons_self (hx.trans_le hStart)
      rw [← ih hStart] at hSome ⊢
      obtain ⟨y, hy⟩ := Option.ne_none_iff_exists'.mp hSome
      simp [Bool.eq_false_iff.mpr (mt hHere.mp fun hIn => hb hIn.2), hy]

/-- An element that is cut in two at a key inside of it. -/
theorem split (h : Tiles lo hi a (pre ++ t :: post)) (h₁ : lo r₁ = lo t) (hEnd₁ : hi r₁ = k)
    (hLo : lo t < k) (h₂ : lo r₂ = k) (hEnd₂ : hi r₂ = hi t) (hHi : k < hi t) :
    Tiles lo hi a (pre ++ r₁ :: r₂ :: post) := by
  induction pre generalizing a with
  | nil =>
    rw [List.nil_append] at h ⊢
    have hSecond : Tiles lo hi k (r₂ :: post) := by
      rw [← h₂]
      cases h with
      | last _ hTop => exact .last r₂ (hEnd₂.trans hTop)
      | cons _ _ b hEnd _ hRest =>
        refine .cons r₂ post b (hEnd₂.trans hEnd) ?_ hRest
        rw [hEnd, WithTop.coe_lt_coe] at hHi
        rw [h₂]
        exact WithBot.coe_lt_coe.mpr hHi
    obtain ⟨x, rest, hEq, hx⟩ := h.first
    cases hEq
    rw [← hx, ← h₁]
    exact .cons r₁ _ k hEnd₁ (h₁.trans_lt hLo) hSecond
  | cons r pre ih =>
    rw [List.cons_append] at h ⊢
    generalize hTail : pre ++ t :: post = rest at h
    cases h with
    | last => simp at hTail
    | cons _ _ b hEnd hLt hRest => exact .cons r _ b hEnd hLt (ih (hTail ▸ hRest))

end Tiles

end ShardDB.Lib.Tiling
