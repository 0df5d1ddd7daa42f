import Mathlib

/-!
# Finite maps as sorted association lists

A finite map over a linearly ordered key type is stored as the list of its bindings in
strictly increasing key order. The invariant is a field, so two maps with the same
lookups are equal (`SortedMap.ext_find?`), and the ascending iteration of an ordered
tree is the list itself. Iteration from a pivot and iteration with a callback that may
stop early are the two ways such a tree is read.
-/

namespace ShardDB.Lib

/-- A finite map, as its bindings in strictly increasing key order. -/
structure SortedMap (α β : Type) [LinearOrder α] where
  entries : List (α × β)
  sorted : entries.Pairwise fun a b => a.1 < b.1
  deriving DecidableEq

namespace SortedMap

variable {α β : Type} [LinearOrder α]

/-! ## Operations on the list of bindings -/

/-- Put a binding at its place, replacing a binding of the same key. -/
def insertEntry (k : α) (v : β) : List (α × β) → List (α × β)
  | [] => [(k, v)]
  | e :: rest =>
    if k < e.1 then (k, v) :: e :: rest
    else if k = e.1 then (k, v) :: rest
    else e :: insertEntry k v rest

theorem mem_insertEntry {k : α} {v : β} {l : List (α × β)} {e : α × β}
    (h : e ∈ insertEntry k v l) : e = (k, v) ∨ e ∈ l := by
  induction l with
  | nil => exact Or.inl (List.mem_singleton.mp h)
  | cons a rest ih =>
    unfold insertEntry at h
    split_ifs at h with hlt heq
    · exact List.mem_cons.mp h
    · rcases List.mem_cons.mp h with h | h
      · exact Or.inl h
      · exact Or.inr (List.mem_cons_of_mem _ h)
    · rcases List.mem_cons.mp h with h | h
      · exact Or.inr (h ▸ List.mem_cons_self)
      · exact (ih h).imp_right (List.mem_cons_of_mem _)

theorem insertEntry_sorted (k : α) (v : β) {l : List (α × β)}
    (h : l.Pairwise fun a b => a.1 < b.1) :
    (insertEntry k v l).Pairwise fun a b => a.1 < b.1 := by
  induction l with
  | nil => exact List.pairwise_singleton _ _
  | cons a rest ih =>
    obtain ⟨hHead, hTail⟩ := List.pairwise_cons.mp h
    unfold insertEntry
    split_ifs with hlt heq
    · refine List.pairwise_cons.mpr ⟨?_, h⟩
      intro b hb
      rcases List.mem_cons.mp hb with rfl | hb
      · exact hlt
      · exact hlt.trans (hHead b hb)
    · refine List.pairwise_cons.mpr ⟨?_, hTail⟩
      intro b hb
      rw [heq]
      exact hHead b hb
    · refine List.pairwise_cons.mpr ⟨?_, ih hTail⟩
      intro b hb
      rcases mem_insertEntry hb with rfl | hb
      · exact lt_of_le_of_ne (not_lt.mp hlt) (Ne.symm heq)
      · exact hHead b hb

/-- The value bound to a key in a list of bindings. -/
def lookup (k : α) : List (α × β) → Option β
  | [] => none
  | e :: rest => if e.1 = k then some e.2 else lookup k rest

theorem lookup_insertEntry (k k' : α) (v : β) {l : List (α × β)}
    (h : l.Pairwise fun a b => a.1 < b.1) :
    lookup k' (insertEntry k v l) = if k' = k then some v else lookup k' l := by
  induction l with
  | nil => simp [insertEntry, lookup, eq_comm]
  | cons a rest ih =>
    obtain ⟨hHead, hTail⟩ := List.pairwise_cons.mp h
    unfold insertEntry
    by_cases hlt : k < a.1
    · rw [if_pos hlt, lookup]
      simp only [eq_comm]
    · rw [if_neg hlt]
      by_cases heq : k = a.1
      · rw [if_pos heq, lookup, lookup, ← heq]
        simp only [eq_comm]
        split_ifs <;> rfl
      · rw [if_neg heq, lookup, lookup, ih hTail]
        split_ifs with ha hk
        · exact absurd (hk.symm.trans ha.symm) heq
        · rfl
        · rfl
        · rfl

theorem lookup_eq_some_iff {k : α} {v : β} {l : List (α × β)}
    (h : l.Pairwise fun a b => a.1 < b.1) : lookup k l = some v ↔ (k, v) ∈ l := by
  induction l with
  | nil => simp [lookup]
  | cons a rest ih =>
    obtain ⟨hHead, hTail⟩ := List.pairwise_cons.mp h
    rw [lookup, List.mem_cons]
    split_ifs with hk
    · subst hk
      have hNot : (a.1, v) ∉ rest := fun hm => lt_irrefl _ (hHead (a.1, v) hm)
      simp [hNot, Prod.ext_iff, eq_comm]
    · rw [ih hTail]
      have hNe : (k, v) ≠ a := fun e => hk (by rw [← e])
      simp [hNe]

/-! ## Maps -/

/-- The empty map. -/
def empty : SortedMap α β := ⟨[], List.Pairwise.nil⟩

instance : Inhabited (SortedMap α β) := ⟨empty⟩

/-- The value bound to a key. -/
def find? (m : SortedMap α β) (k : α) : Option β := lookup k m.entries

/-- Bind a key, replacing its old binding. -/
def insert (m : SortedMap α β) (k : α) (v : β) : SortedMap α β :=
  ⟨insertEntry k v m.entries, insertEntry_sorted k v m.sorted⟩

/-- Remove the binding of a key. -/
def erase (m : SortedMap α β) (k : α) : SortedMap α β :=
  ⟨m.entries.filter fun e => e.1 ≠ k, m.sorted.filter _⟩

/-- Insert a list of bindings one after another; of two bindings of a key the later wins. -/
def insertAll (m : SortedMap α β) (l : List (α × β)) : SortedMap α β :=
  l.foldl (fun m e => m.insert e.1 e.2) m

theorem mem_entries_iff {m : SortedMap α β} {k : α} {v : β} :
    (k, v) ∈ m.entries ↔ m.find? k = some v := (lookup_eq_some_iff m.sorted).symm

@[ext]
theorem ext_find? {m m' : SortedMap α β} (h : ∀ k, m.find? k = m'.find? k) : m = m' := by
  have hMem : ∀ e, e ∈ m.entries ↔ e ∈ m'.entries := by
    rintro ⟨k, v⟩
    rw [mem_entries_iff, mem_entries_iff, h]
  have hIrrefl : Std.Irrefl (fun a b : α × β => a.1 < b.1) := ⟨fun a => lt_irrefl a.1⟩
  have hAntisymm : Std.Antisymm (fun a b : α × β => a.1 < b.1) :=
    ⟨fun a b hab hba => absurd hba hab.asymm⟩
  have hEntries : m.entries = m'.entries := m.sorted.eq_of_mem_iff m'.sorted hMem
  cases m
  cases m'
  cases hEntries
  rfl

@[simp]
theorem find?_empty (k : α) : (empty : SortedMap α β).find? k = none := rfl

theorem find?_insert (m : SortedMap α β) (k k' : α) (v : β) :
    (m.insert k v).find? k' = if k' = k then some v else m.find? k' :=
  lookup_insertEntry k k' v m.sorted

@[simp]
theorem find?_insert_self (m : SortedMap α β) (k : α) (v : β) :
    (m.insert k v).find? k = some v := by
  rw [find?_insert, if_pos rfl]

theorem find?_insert_of_ne (m : SortedMap α β) {k k' : α} (v : β) (h : k' ≠ k) :
    (m.insert k v).find? k' = m.find? k' := by
  rw [find?_insert, if_neg h]

theorem find?_erase (m : SortedMap α β) (k k' : α) :
    (m.erase k).find? k' = if k' = k then none else m.find? k' := by
  refine Option.ext fun v => ?_
  rw [← mem_entries_iff]
  simp only [erase, List.mem_filter, mem_entries_iff]
  split_ifs with hk <;> simp [hk]

@[simp]
theorem find?_erase_self (m : SortedMap α β) (k : α) : (m.erase k).find? k = none := by
  rw [find?_erase, if_pos rfl]

theorem find?_erase_of_ne (m : SortedMap α β) {k k' : α} (h : k' ≠ k) :
    (m.erase k).find? k' = m.find? k' := by
  rw [find?_erase, if_neg h]

theorem insert_insert_self (m : SortedMap α β) (k : α) (v : β) :
    (m.insert k v).insert k v = m.insert k v := by
  ext1 k'
  rw [find?_insert, find?_insert]
  split_ifs <;> rfl

theorem erase_erase_self (m : SortedMap α β) (k : α) : (m.erase k).erase k = m.erase k := by
  ext1 k'
  rw [find?_erase, find?_erase]
  split_ifs <;> rfl

/-! ## Inserting a list of bindings -/

/-- The value the last binding of a key in a list carries. -/
def lastBinding (l : List (α × β)) (k : α) : Option β :=
  l.foldl (fun acc e => if e.1 = k then some e.2 else acc) none

@[simp]
theorem lastBinding_nil (k : α) : lastBinding ([] : List (α × β)) k = none := rfl

theorem lastBinding_concat (l : List (α × β)) (e : α × β) (k : α) :
    lastBinding (l ++ [e]) k = if e.1 = k then some e.2 else lastBinding l k := by
  simp [lastBinding, List.foldl_append]

theorem lastBinding_append (l l' : List (α × β)) (k : α) :
    lastBinding (l ++ l') k = (lastBinding l' k).or (lastBinding l k) := by
  induction l' using List.reverseRecOn with
  | nil => simp
  | append_singleton l' e ih =>
    rw [← List.append_assoc, lastBinding_concat, lastBinding_concat, ih]
    split_ifs <;> rfl

theorem lastBinding_eq_none_iff {l : List (α × β)} {k : α} :
    lastBinding l k = none ↔ k ∉ l.map Prod.fst := by
  induction l using List.reverseRecOn with
  | nil => simp
  | append_singleton l e ih =>
    rw [lastBinding_concat]
    split_ifs with he
    · simp [he]
    · simp [ih, Ne.symm he]

theorem lastBinding_map_key {γ : Type} [LinearOrder γ] {f : α → γ} (hf : Function.Injective f)
    (l : List (α × β)) (k : α) :
    lastBinding (l.map fun e => (f e.1, e.2)) (f k) = lastBinding l k := by
  induction l using List.reverseRecOn with
  | nil => rfl
  | append_singleton l e ih =>
    rw [List.map_append, List.map_singleton, lastBinding_concat, lastBinding_concat, ih]
    simp only [hf.eq_iff]

theorem mem_of_lastBinding {l : List (α × β)} {k : α} {v : β} (h : lastBinding l k = some v) :
    (k, v) ∈ l := by
  induction l using List.reverseRecOn with
  | nil => cases h
  | append_singleton l e ih =>
    rw [lastBinding_concat] at h
    split_ifs at h with he
    · cases h
      simp [← he]
    · exact List.mem_append_left _ (ih h)

theorem find?_insertAll (m : SortedMap α β) (l : List (α × β)) (k : α) :
    (m.insertAll l).find? k = (lastBinding l k).or (m.find? k) := by
  induction l using List.reverseRecOn with
  | nil => rfl
  | append_singleton l e ih =>
    rw [insertAll, List.foldl_append] at *
    simp only [List.foldl_cons, List.foldl_nil, find?_insert, lastBinding_concat]
    by_cases he : e.1 = k
    · rw [if_pos he.symm, if_pos he]
      rfl
    · rw [if_neg (Ne.symm he), if_neg he]
      exact ih

/-- Where no key is bound twice, every binding is the last one of its key. -/
theorem lastBinding_of_nodup {l : List (α × β)} (hNodup : (l.map Prod.fst).Nodup) {k : α} {v : β}
    (h : (k, v) ∈ l) : lastBinding l k = some v := by
  obtain ⟨v', hv'⟩ := Option.ne_none_iff_exists'.mp fun hNone =>
    lastBinding_eq_none_iff.mp hNone (List.mem_map_of_mem h)
  have hSame := List.inj_on_of_nodup_map hNodup (mem_of_lastBinding hv') h rfl
  rw [hv', (Prod.mk.inj hSame).2]

/-- The bindings of a map, in whatever order, bind every key as the map does. -/
theorem lastBinding_of_perm {m : SortedMap α β} {l : List (α × β)} (h : l.Perm m.entries) (k : α) :
    lastBinding l k = m.find? k := by
  cases hLast : lastBinding l k with
  | some v => exact (mem_entries_iff.mp (h.mem_iff.mp (mem_of_lastBinding hLast))).symm
  | none =>
    refine (Option.eq_none_iff_forall_ne_some.mpr fun v hFind => ?_).symm
    have hMem : (k, v) ∈ l := h.mem_iff.mpr (mem_entries_iff.mpr hFind)
    exact lastBinding_eq_none_iff.mp hLast (List.mem_map_of_mem hMem)

theorem insertAll_of_perm {m : SortedMap α β} {l : List (α × β)} (h : l.Perm m.entries) :
    (empty : SortedMap α β).insertAll l = m := by
  ext1 k
  rw [find?_insertAll, find?_empty, Option.or_none, lastBinding_of_perm h]

/-- The bindings of a map, inserted into the empty map, give the map back. -/
theorem insertAll_entries (m : SortedMap α β) : (empty : SortedMap α β).insertAll m.entries = m := by
  ext1 k
  rw [find?_insertAll, find?_empty, Option.or_none, lastBinding_of_perm (List.Perm.refl _)]

theorem nodup_entries (m : SortedMap α β) : m.entries.Nodup :=
  m.sorted.imp fun hLt hEq => hLt.ne (congrArg Prod.fst hEq)

/-- A new key adds its binding. -/
theorem entries_insert_perm {m : SortedMap α β} {k : α} (h : m.find? k = none) (v : β) :
    (m.insert k v).entries.Perm ((k, v) :: m.entries) := by
  have hNew : (k, v) ∉ m.entries := by
    rw [mem_entries_iff, h]
    exact (Option.some_ne_none v).symm
  refine (List.perm_ext_iff_of_nodup (nodup_entries _)
    (List.nodup_cons.mpr ⟨hNew, nodup_entries m⟩)).mpr fun e => ?_
  rw [mem_entries_iff, List.mem_cons, mem_entries_iff, find?_insert]
  by_cases hKey : e.1 = k
  · rw [if_pos hKey, hKey, h]
    simp [Prod.ext_iff, hKey, eq_comm]
  · rw [if_neg hKey]
    simp [Prod.ext_iff, hKey]

theorem lastBinding_filter_key (p : α → Bool) (l : List (α × β)) (k : α) :
    lastBinding (l.filter fun e => p e.1) k = if p k then lastBinding l k else none := by
  induction l using List.reverseRecOn with
  | nil => simp
  | append_singleton l e ih =>
    rw [List.filter_append, lastBinding_append, ih, lastBinding_concat]
    by_cases he : e.1 = k
    · subst he
      by_cases hp : p e.1 <;> simp [hp, lastBinding]
    · by_cases hp : p e.1 <;> simp [hp, he, lastBinding]

/-- Leaving out items that do not bind the key changes nothing for it. -/
theorem lastBinding_map_filter {γ : Type} (f : γ → α × β) (p : γ → Bool) {l : List γ} {k : α}
    (h : ∀ e ∈ l, (f e).1 = k → p e = true) :
    lastBinding ((l.filter p).map f) k = lastBinding (l.map f) k := by
  induction l using List.reverseRecOn with
  | nil => rfl
  | append_singleton l e ih =>
    have hInit := ih fun e' he' => h e' (List.mem_append_left _ he')
    rw [List.filter_append, List.map_append, List.map_append, lastBinding_append, hInit,
      lastBinding_append]
    by_cases hp : p e
    · rw [List.filter_cons_of_pos hp, List.filter_nil]
    · have hKey : (f e).1 ≠ k := fun hk => hp (h e (by simp) hk)
      simp [hp, hKey, lastBinding]

/-- Bindings that are split by a function of their key make maps which together have the bindings
of the one map. -/
theorem entries_fibers_perm {ι : Type} [DecidableEq ι] (l : List (α × β)) (home : α → ι)
    {ids : List ι} (hNodup : ids.Nodup) (hCovers : ∀ e ∈ l, home e.1 ∈ ids) :
    (ids.flatMap fun id =>
      ((empty : SortedMap α β).insertAll (l.filter fun e => home e.1 = id)).entries).Perm
      ((empty : SortedMap α β).insertAll l).entries := by
  have hMem : ∀ id k v, (k, v) ∈ ((empty : SortedMap α β).insertAll
      (l.filter fun e => home e.1 = id)).entries ↔ home k = id ∧ lastBinding l k = some v := by
    intro id k v
    rw [mem_entries_iff, find?_insertAll, find?_empty, Option.or_none,
      lastBinding_filter_key (fun k => decide (home k = id))]
    by_cases hk : home k = id <;> simp [hk]
  rw [List.perm_ext_iff_of_nodup _ (nodup_entries _)]
  · rintro ⟨k, v⟩
    rw [List.mem_flatMap, mem_entries_iff, find?_insertAll, find?_empty, Option.or_none]
    constructor
    · rintro ⟨id, -, hEntry⟩
      exact ((hMem id k v).mp hEntry).2
    · intro hLast
      exact ⟨home k, hCovers _ (mem_of_lastBinding hLast), (hMem _ k v).mpr ⟨rfl, hLast⟩⟩
  · refine List.nodup_flatMap.mpr ⟨fun id _ => nodup_entries _, hNodup.imp fun hNe => ?_⟩
    rintro ⟨k, v⟩ h h'
    exact hNe (((hMem _ k v).mp h).1.symm.trans ((hMem _ k v).mp h').1)

/-- In the bindings of a map, in whatever order, a key occurs at most once. -/
theorem filter_key_of_perm {m : SortedMap α β} {l : List (α × β)} (h : l.Perm m.entries) {k : α}
    {p : α × β → Bool} (hp : ∀ e, p e = true ↔ e.1 = k) :
    l.filter p = (m.find? k).toList.map fun v => (k, v) := by
  have hMem : ∀ e, e ∈ l.filter p ↔ m.find? k = some e.2 ∧ e.1 = k := by
    rintro ⟨k', v⟩
    rw [List.mem_filter, h.mem_iff, mem_entries_iff, hp]
    constructor
    · rintro ⟨hFind, rfl⟩
      exact ⟨hFind, rfl⟩
    · rintro ⟨hFind, rfl⟩
      exact ⟨hFind, rfl⟩
  have hNodup : (l.filter p).Nodup :=
    (h.nodup_iff.mpr (m.sorted.imp fun hlt hEq => absurd (hEq ▸ hlt) (lt_irrefl _))).filter _
  cases hFind : m.find? k with
  | none =>
    rw [Option.toList_none, List.map_nil, List.eq_nil_iff_forall_not_mem]
    intro e he
    rw [hMem, hFind] at he
    cases he.1
  | some v =>
    refine List.perm_singleton.mp
      ((List.perm_ext_iff_of_nodup hNodup (List.nodup_singleton _)).mpr fun e => ?_)
    rw [hMem, hFind, List.mem_singleton]
    constructor
    · rintro ⟨hv, hk⟩
      exact Prod.ext hk (Option.some.inj hv).symm
    · rintro rfl
      exact ⟨rfl, rfl⟩

/-! ## Ascending iteration -/

/-- The bindings at or above a pivot, in ascending order. -/
def ascendFrom (m : SortedMap α β) (pivot : α) : List (α × β) :=
  m.entries.filter fun e => pivot ≤ e.1

theorem mem_ascendFrom {m : SortedMap α β} {pivot k : α} {v : β} :
    (k, v) ∈ m.ascendFrom pivot ↔ m.find? k = some v ∧ pivot ≤ k := by
  simp only [ascendFrom, List.mem_filter, mem_entries_iff, decide_eq_true_eq]

/-- The first binding met from a pivot is the least one at or above it. -/
theorem head?_ascendFrom_eq_some {m : SortedMap α β} {pivot k : α} {v : β}
    (h : (m.ascendFrom pivot).head? = some (k, v)) :
    m.find? k = some v ∧ pivot ≤ k ∧
      ∀ k' v', m.find? k' = some v' → pivot ≤ k' → k ≤ k' := by
  obtain ⟨rest, hRest⟩ := List.head?_eq_some_iff.mp h
  have hMem : (k, v) ∈ m.ascendFrom pivot := hRest ▸ List.mem_cons_self
  obtain ⟨hFind, hPivot⟩ := mem_ascendFrom.mp hMem
  refine ⟨hFind, hPivot, ?_⟩
  intro k' v' hFind' hPivot'
  have hSorted : ((k, v) :: rest).Pairwise fun a b => a.1 < b.1 := by
    rw [← hRest]
    exact m.sorted.filter _
  have hMem' : (k', v') ∈ (k, v) :: rest := hRest ▸ mem_ascendFrom.mpr ⟨hFind', hPivot'⟩
  rcases List.mem_cons.mp hMem' with he | he
  · exact (congrArg Prod.fst he).ge
  · exact ((List.pairwise_cons.mp hSorted).1 _ he).le

/-- Iteration from a pivot meets something as soon as a key at or above it is bound. -/
theorem exists_head?_ascendFrom {m : SortedMap α β} {pivot k : α} {v : β}
    (hFind : m.find? k = some v) (hPivot : pivot ≤ k) :
    ∃ e, (m.ascendFrom pivot).head? = some e := by
  have hMem : (k, v) ∈ m.ascendFrom pivot := mem_ascendFrom.mpr ⟨hFind, hPivot⟩
  cases hList : m.ascendFrom pivot with
  | nil => simp [hList] at hMem
  | cons e rest => exact ⟨e, rfl⟩

/-- In a list that ascends strictly, the part before the first item that fails a test: the items
with nothing that fails at or before them. -/
theorem mem_takeWhile_iff {l : List (α × β)} (hSorted : l.Pairwise fun a b => a.1 < b.1)
    {p : α × β → Bool} {e : α × β} :
    e ∈ l.takeWhile p ↔ e ∈ l ∧ ∀ e' ∈ l, e'.1 ≤ e.1 → p e' = true := by
  induction l with
  | nil => simp
  | cons a l ih =>
    obtain ⟨hHead, hTail⟩ := List.pairwise_cons.mp hSorted
    have hFirst : ∀ e' ∈ a :: l, a.1 ≤ e'.1 := by
      intro e' he'
      rcases List.mem_cons.mp he' with rfl | he'
      · exact le_rfl
      · exact (hHead e' he').le
    cases hp : p a with
    | false =>
      rw [List.takeWhile_cons_of_neg (by simp [hp])]
      constructor
      · intro h
        cases h
      · rintro ⟨he, hAll⟩
        rw [hAll a List.mem_cons_self (hFirst e he)] at hp
        cases hp
    | true =>
      rw [List.takeWhile_cons_of_pos hp, List.mem_cons, List.mem_cons, ih hTail]
      constructor
      · rintro (rfl | ⟨he, hAll⟩)
        · refine ⟨Or.inl rfl, ?_⟩
          intro e' he' hLe
          rcases List.mem_cons.mp he' with rfl | he'
          · exact hp
          · exact absurd (hHead e' he') (not_lt.mpr hLe)
        · refine ⟨Or.inr he, ?_⟩
          intro e' he' hLe
          rcases List.mem_cons.mp he' with rfl | he'
          · exact hp
          · exact hAll e' he' hLe
      · rintro ⟨rfl | he, hAll⟩
        · exact Or.inl rfl
        · exact Or.inr ⟨he, fun e' he' => hAll e' (List.mem_cons_of_mem _ he')⟩

/-- A walk over items in ascending order: what one visit keeps, given that everything visited
before is less, holds after the whole walk. -/
theorem foldl_ascending {σ : Type} {f : σ → α × β → σ} {I : List (α × β) → σ → Prop}
    (hVisit : ∀ visited acc it, I visited acc → (∀ x ∈ visited, x.1 < it.1) →
      I (visited ++ [it]) (f acc it))
    {items : List (α × β)} (hSorted : items.Pairwise fun a b => a.1 < b.1) {acc : σ}
    (hStart : I [] acc) : I items (items.foldl f acc) := by
  induction items using List.reverseRecOn with
  | nil => exact hStart
  | append_singleton items it ih =>
    obtain ⟨hInit, -, hLast⟩ := List.pairwise_append.mp hSorted
    rw [List.foldl_concat]
    exact hVisit _ _ it (ih hInit) fun x hx => hLast x hx it (List.mem_singleton_self it)

end SortedMap

/-- Call `f` on the items of a list in order, threading a state, until it returns `false`. -/
def iterate {σ γ : Type} (f : σ → γ → σ × Bool) : σ → List γ → σ
  | acc, [] => acc
  | acc, x :: rest =>
    match f acc x with
    | (acc, true) => iterate f acc rest
    | (acc, false) => acc

/-- A callback that stops at once sees only the first item. -/
theorem iterate_of_stop {σ γ : Type} {f : σ → γ → σ × Bool} (h : ∀ acc x, (f acc x).2 = false)
    (acc : σ) (l : List γ) :
    iterate f acc l = match l.head? with
      | none => acc
      | some x => (f acc x).1 := by
  cases l with
  | nil => rfl
  | cons x rest =>
    have hStop := h acc x
    generalize hf : f acc x = r at hStop
    obtain ⟨acc', go⟩ := r
    cases hStop
    simp [iterate, hf]

/-- A callback that goes on until it meets an item that it stops at. -/
theorem iterate_until {σ γ : Type} {f : σ → γ → σ × Bool} {go : σ → γ → σ} {stop : γ → Bool}
    (h : ∀ acc x, f acc x = if stop x then (acc, false) else (go acc x, true)) (acc : σ)
    (l : List γ) : iterate f acc l = (l.takeWhile fun x => !stop x).foldl go acc := by
  induction l generalizing acc with
  | nil => rfl
  | cons x l ih =>
    rw [iterate, h]
    cases hx : stop x with
    | true => simp [hx]
    | false => simp [hx, ih]

end ShardDB.Lib
