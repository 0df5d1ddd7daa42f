import Mathlib

/-!
# Byte strings

Byte strings with the lexicographic order of their bytes, which is the order of
`bytes.Compare` (`compareBytes_eq_lt_iff`). Strings and byte slices of Go are both byte
strings here; a slice that may also be nil is a `Slice`. The order is the one of `List` over
the unsigned order of `UInt8`, so every fact about comparing byte strings comes from the
list order of Mathlib.
-/

namespace ShardDB.Lib

instance instLinearOrderUInt8 : LinearOrder UInt8 where
  le_refl a := UInt8.le_refl a
  le_trans a b c := UInt8.le_trans
  le_antisymm a b := UInt8.le_antisymm
  lt_iff_le_not_ge a b := by simp only [UInt8.lt_iff_toNat_lt, UInt8.le_iff_toNat_le]; omega
  le_total a b := UInt8.le_total a b
  toDecidableLE := inferInstance
  toDecidableLT := inferInstance

instance instLinearOrderUInt64 : LinearOrder UInt64 where
  le_refl a := UInt64.le_refl a
  le_trans a b c := UInt64.le_trans
  le_antisymm a b := UInt64.le_antisymm
  lt_iff_le_not_ge a b := by simp only [UInt64.lt_iff_toNat_lt, UInt64.le_iff_toNat_le]; omega
  le_total a b := UInt64.le_total a b
  toDecidableLE := inferInstance
  toDecidableLT := inferInstance

/-- A Go string, or the contents of a byte slice. -/
abbrev Bytes := List UInt8

instance instLawfulBEqBytes : LawfulBEq Bytes := inferInstance

/-- A byte slice that may be nil: `none` is nil, `some []` is empty but not nil. -/
abbrev Slice := Option Bytes

/-- The bytes of a string literal of ASCII characters. -/
def ascii (s : String) : Bytes := s.toList.map fun c => UInt8.ofNat c.toNat

/-- A common prefix does not matter for the order. -/
theorem append_lt_append_left_iff (p a b : Bytes) : p ++ a < p ++ b ↔ a < b := by
  induction p with
  | nil => rfl
  | cons x p ih => simpa [List.cons_lt_cons_iff] using ih

/-- A byte string is at most another one if it is a prefix of it, or smaller at the first byte
where they differ; then it stays smaller whatever is appended to the two. -/
theorem prefix_or_append_lt_of_le {a b : Bytes} (h : a ≤ b) : a <+: b ∨ ∀ x y, a ++ x < b ++ y := by
  induction a generalizing b with
  | nil => exact Or.inl List.nil_prefix
  | cons c a ih =>
    cases b with
    | nil => exact absurd (List.nil_lt_cons c a) (not_lt.mpr h)
    | cons d b =>
      rcases lt_trichotomy c d with hLt | rfl | hGt
      · exact Or.inr fun x y => List.cons_lt_cons_iff.mpr (Or.inl hLt)
      · have hTail : a ≤ b := by
          apply not_lt.mp
          intro hLt
          exact not_lt.mpr h (List.cons_lt_cons_iff.mpr (Or.inr ⟨rfl, hLt⟩))
        rcases ih hTail with hPrefix | hAppend
        · exact Or.inl (List.cons_prefix_cons.mpr ⟨rfl, hPrefix⟩)
        · exact Or.inr fun x y => List.cons_lt_cons_iff.mpr (Or.inr ⟨rfl, hAppend x y⟩)
      · exact absurd (List.cons_lt_cons_iff.mpr (Or.inl hGt)) (not_lt.mpr h)

theorem le_of_isPrefix {a b : Bytes} (h : a <+: b) : a ≤ b := by
  obtain ⟨c, rfl⟩ := h
  apply not_lt.mp
  intro hLt
  have hNil : c < [] := (append_lt_append_left_iff a c []).mp (by rwa [List.append_nil])
  exact List.not_lt_nil c hNil

/-! ## Comparison -/

/-- `bytes.Compare`: the first byte that differs decides, and a proper prefix is less. -/
def compareBytes : Bytes → Bytes → Ordering
  | [], [] => .eq
  | [], _ :: _ => .lt
  | _ :: _, [] => .gt
  | c :: a, d :: b => if c < d then .lt else if d < c then .gt else compareBytes a b

/-- Less is less in the list order. -/
theorem compareBytes_eq_lt_iff {a b : Bytes} : compareBytes a b = .lt ↔ a < b := by
  induction a generalizing b with
  | nil => cases b <;> simp [compareBytes]
  | cons c a ih =>
    cases b with
    | nil => simp [compareBytes]
    | cons d b =>
      rw [compareBytes, List.cons_lt_cons_iff]
      rcases lt_trichotomy c d with hLt | rfl | hGt
      · simp [hLt]
      · simp [ih]
      · simp [hGt, hGt.asymm, hGt.ne']

theorem compareBytes_swap (a b : Bytes) : (compareBytes a b).swap = compareBytes b a := by
  induction a generalizing b with
  | nil => cases b <;> rfl
  | cons c a ih =>
    cases b with
    | nil => rfl
    | cons d b =>
      rw [compareBytes, compareBytes]
      rcases lt_trichotomy c d with hLt | rfl | hGt
      · simp [hLt, hLt.asymm]
      · simp [ih]
      · simp [hGt, hGt.asymm]

theorem compareBytes_eq_gt_iff {a b : Bytes} : compareBytes a b = .gt ↔ b < a := by
  rw [← compareBytes_eq_lt_iff, ← compareBytes_swap a b]
  cases compareBytes a b <;> simp [Ordering.swap]

/-- What is appended to two byte strings does not matter if neither is a prefix of the other. -/
theorem compareBytes_append {a b : Bytes} (h : ¬ a <+: b) (h' : ¬ b <+: a) (x y : Bytes) :
    compareBytes (a ++ x) (b ++ y) = compareBytes a b := by
  rcases le_total a b with hLe | hLe
  · have hAppend := (prefix_or_append_lt_of_le hLe).resolve_left h
    have hLt : a < b := by simpa using hAppend [] []
    rw [compareBytes_eq_lt_iff.mpr (hAppend x y), compareBytes_eq_lt_iff.mpr hLt]
  · have hAppend := (prefix_or_append_lt_of_le hLe).resolve_left h'
    have hLt : b < a := by simpa using hAppend [] []
    rw [compareBytes_eq_gt_iff.mpr (hAppend y x), compareBytes_eq_gt_iff.mpr hLt]

end ShardDB.Lib
