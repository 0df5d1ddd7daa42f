import ShardDB.Lib.Bytes

/-!
# Valid UTF-8

Which byte strings are valid UTF-8, and the coercion of an arbitrary byte string to valid
UTF-8 that replaces every byte which does not start a well-formed character by U+FFFD.
`toValidUtf8 b = b` exactly for the valid strings, and its result is always valid.

Both functions read one byte at a time; the number they carry counts the bytes of the
current character that are still to come.
-/

namespace ShardDB.Lib

/-- A continuation byte. -/
def isTail (b : UInt8) : Bool := 0x80 ≤ b && b ≤ 0xBF

/-- The well-formed encodings of one character. -/
def isRune : Bytes → Bool
  | [a] => a ≤ 0x7F
  | [a, b] => 0xC2 ≤ a && a ≤ 0xDF && isTail b
  | [a, b, c] =>
    ((a == 0xE0 && 0xA0 ≤ b && b ≤ 0xBF) || (0xE1 ≤ a && a ≤ 0xEC && isTail b) ||
      (a == 0xED && 0x80 ≤ b && b ≤ 0x9F) || (0xEE ≤ a && a ≤ 0xEF && isTail b)) && isTail c
  | [a, b, c, d] =>
    ((a == 0xF0 && 0x90 ≤ b && b ≤ 0xBF) || (0xF1 ≤ a && a ≤ 0xF3 && isTail b) ||
      (a == 0xF4 && 0x80 ≤ b && b ≤ 0x8F)) && isTail c && isTail d
  | _ => false

/-- The length of the character at the front of a byte string, zero if there is none. -/
def runeLen (l : Bytes) : Nat :=
  if isRune (l.take 1) then 1
  else if isRune (l.take 2) then 2
  else if isRune (l.take 3) then 3
  else if isRune (l.take 4) then 4
  else 0

/-- The encoding of U+FFFD. -/
def replacement : Bytes := [0xEF, 0xBF, 0xBD]

def validFrom : Nat → Bytes → Bool
  | _, [] => true
  | n + 1, _ :: rest => validFrom n rest
  | 0, b :: rest =>
    match runeLen (b :: rest) with
    | 0 => false
    | n + 1 => validFrom n rest

def toValidFrom : Nat → Bytes → Bytes
  | _, [] => []
  | n + 1, b :: rest => b :: toValidFrom n rest
  | 0, b :: rest =>
    match runeLen (b :: rest) with
    | 0 => replacement ++ toValidFrom 0 rest
    | n + 1 => b :: toValidFrom n rest

/-- A byte string is a sequence of well-formed characters. -/
def validUtf8 (b : Bytes) : Bool := validFrom 0 b

/-- Replace every byte that does not belong to a well-formed character by U+FFFD. -/
def toValidUtf8 (b : Bytes) : Bytes := toValidFrom 0 b

/-- The character at the front is determined by its own bytes. -/
theorem runeLen_congr {l l' : Bytes} {n : Nat} (h : runeLen l = n + 1)
    (hTake : l.take (n + 1) = l'.take (n + 1)) : runeLen l' = n + 1 := by
  have hLess : ∀ m, m ≤ n + 1 → l'.take m = l.take m := by
    intro m hm
    have := congrArg (List.take m) hTake
    rw [List.take_take, List.take_take, Nat.min_eq_left hm] at this
    exact this.symm
  unfold runeLen at h ⊢
  split_ifs at h with h1 h2 h3 h4
  · obtain rfl : n = 0 := by omega
    rw [hLess 1 (by omega), if_pos h1]
  · obtain rfl : n = 1 := by omega
    rw [hLess 1 (by omega), if_neg h1, hLess 2 (by omega), if_pos h2]
  · obtain rfl : n = 2 := by omega
    rw [hLess 1 (by omega), if_neg h1, hLess 2 (by omega), if_neg h2, hLess 3 (by omega), if_pos h3]
  · obtain rfl : n = 3 := by omega
    rw [hLess 1 (by omega), if_neg h1, hLess 2 (by omega), if_neg h2, hLess 3 (by omega),
      if_neg h3, hLess 4 (by omega), if_pos h4]

theorem take_toValidFrom (n : Nat) (b : Bytes) : (toValidFrom n b).take n = b.take n := by
  induction b generalizing n with
  | nil => simp [toValidFrom]
  | cons x rest ih =>
    cases n with
    | zero => simp
    | succ n => rw [toValidFrom, List.take_succ_cons, List.take_succ_cons, ih]

/-- A valid string is not changed. -/
theorem toValidFrom_of_valid {n : Nat} {b : Bytes} (h : validFrom n b = true) :
    toValidFrom n b = b := by
  induction b generalizing n with
  | nil => simp [toValidFrom]
  | cons x rest ih =>
    cases n with
    | succ n =>
      rw [validFrom] at h
      rw [toValidFrom, ih h]
    | zero =>
      rw [validFrom] at h
      rw [toValidFrom]
      cases hLen : runeLen (x :: rest) with
      | zero => simp [hLen] at h
      | succ m =>
        rw [hLen] at h
        exact congrArg (x :: ·) (ih h)

/-- The coerced string is valid. -/
theorem validFrom_toValidFrom (n : Nat) (b : Bytes) : validFrom n (toValidFrom n b) = true := by
  induction b generalizing n with
  | nil => simp [toValidFrom, validFrom]
  | cons x rest ih =>
    cases n with
    | succ n =>
      rw [toValidFrom, validFrom]
      exact ih n
    | zero =>
      rw [toValidFrom]
      cases hLen : runeLen (x :: rest) with
      | zero =>
        have hRune : runeLen (replacement ++ toValidFrom 0 rest) = 3 :=
          runeLen_congr (l := replacement) (n := 2) (by decide) (by simp [replacement])
        change validFrom 0 (0xEF :: 0xBF :: 0xBD :: toValidFrom 0 rest) = true
        rw [validFrom]
        change runeLen (0xEF :: 0xBF :: 0xBD :: toValidFrom 0 rest) = 3 at hRune
        rw [hRune]
        exact ih 0
      | succ m =>
        have hRune : runeLen (x :: toValidFrom m rest) = m + 1 := by
          refine runeLen_congr hLen ?_
          rw [List.take_succ_cons, List.take_succ_cons, take_toValidFrom]
        dsimp only
        rw [validFrom, hRune]
        exact ih m

theorem validUtf8_toValidUtf8 (b : Bytes) : validUtf8 (toValidUtf8 b) = true :=
  validFrom_toValidFrom 0 b

/-- The coercion changes exactly the strings that are not valid. -/
theorem toValidUtf8_eq_self_iff {b : Bytes} : toValidUtf8 b = b ↔ validUtf8 b = true := by
  constructor
  · intro h
    rw [← h]
    exact validUtf8_toValidUtf8 b
  · exact toValidFrom_of_valid

/-- The coercion adds only bytes of U+FFFD. -/
theorem count_toValidFrom_le {c : UInt8} (hc : c ∉ replacement) (n : Nat) (b : Bytes) :
    (toValidFrom n b).count c ≤ b.count c := by
  have hNone : replacement.count c = 0 := List.count_eq_zero.mpr hc
  induction b generalizing n with
  | nil => simp [toValidFrom]
  | cons x rest ih =>
    cases n with
    | succ n =>
      have hRest := ih n
      rw [toValidFrom, List.count_cons, List.count_cons]
      omega
    | zero =>
      rw [toValidFrom]
      cases runeLen (x :: rest) with
      | zero =>
        have hRest := ih 0
        dsimp only
        rw [List.count_append, hNone, List.count_cons]
        omega
      | succ m =>
        have hRest := ih m
        dsimp only
        rw [List.count_cons, List.count_cons]
        omega

theorem count_toValidUtf8_le {c : UInt8} (hc : c ∉ replacement) (b : Bytes) :
    (toValidUtf8 b).count c ≤ b.count c := count_toValidFrom_le hc 0 b

/-- The bytes of the character at the front. -/
theorem isRune_of_runeLen {l : Bytes} {n : Nat} (h : runeLen l = n + 1) :
    isRune (l.take (n + 1)) = true := by
  unfold runeLen at h
  split_ifs at h with h1 h2 h3 h4
  · obtain rfl : n = 0 := by omega
    exact h1
  · obtain rfl : n = 1 := by omega
    exact h2
  · obtain rfl : n = 2 := by omega
    exact h3
  · obtain rfl : n = 3 := by omega
    exact h4

theorem runeLen_le_length (l : Bytes) : runeLen l ≤ l.length := by
  -- a shorter string would have been recognised at a smaller length
  have hShort : ∀ n, l.length ≤ n → l.take (n + 1) = l.take n := fun n hn => by
    rw [List.take_of_length_le hn, List.take_of_length_le (Nat.le_succ_of_le hn)]
  have hOne : isRune (l.take 1) = true → 1 ≤ l.length := by
    intro h
    by_contra hLt
    rw [hShort 0 (by omega)] at h
    cases h
  unfold runeLen
  split_ifs with h1 h2 h3 h4
  · exact hOne h1
  · by_contra hLt
    exact h1 (hShort 1 (by omega) ▸ h2)
  · by_contra hLt
    exact h2 (hShort 2 (by omega) ▸ h3)
  · by_contra hLt
    exact h3 (hShort 3 (by omega) ▸ h4)
  · exact Nat.zero_le _

theorem toValidFrom_append {n : Nat} {b : Bytes} (h : validFrom n b = true) (hn : n ≤ b.length)
    (l : Bytes) : toValidFrom n (b ++ l) = b ++ toValidFrom 0 l := by
  induction b generalizing n with
  | nil =>
    obtain rfl : n = 0 := Nat.le_zero.mp hn
    rfl
  | cons x rest ih =>
    cases n with
    | succ n =>
      rw [validFrom] at h
      rw [List.cons_append, toValidFrom, ih h (Nat.le_of_succ_le_succ hn)]
      rfl
    | zero =>
      rw [validFrom] at h
      cases hLen : runeLen (x :: rest) with
      | zero => simp [hLen] at h
      | succ m =>
        rw [hLen] at h
        have hLe : m + 1 ≤ (x :: rest).length := hLen ▸ runeLen_le_length (x :: rest)
        have hRune : runeLen (x :: rest ++ l) = m + 1 :=
          runeLen_congr hLen (List.take_append_of_le_length hLe).symm
        rw [List.cons_append] at hRune ⊢
        rw [toValidFrom, hRune]
        exact congrArg (x :: ·) (ih h (Nat.le_of_succ_le_succ hLe))

/-- A valid beginning is kept, and the rest is coerced. -/
theorem toValidUtf8_append {b : Bytes} (h : validUtf8 b = true) (l : Bytes) :
    toValidUtf8 (b ++ l) = b ++ toValidUtf8 l := toValidFrom_append h (Nat.zero_le _) l

theorem ff_not_mem_of_isRune {l : Bytes} (h : isRune l = true) : 0xFF ∉ l := by
  intro hMem
  unfold isRune at h
  split at h
  case h_5 => cases h
  all_goals
    simp only [List.mem_cons, List.not_mem_nil, or_false] at hMem
    -- the byte is at one of the places of the character, and each of them excludes it
    rcases hMem with rfl | rfl | rfl | rfl <;> simp [isTail] at h

theorem ff_not_mem_of_validFrom {n : Nat} {b : Bytes} (hTake : 0xFF ∉ b.take n)
    (h : validFrom n b = true) : 0xFF ∉ b := by
  induction b generalizing n with
  | nil => exact List.not_mem_nil
  | cons x rest ih =>
    cases n with
    | succ n =>
      rw [validFrom] at h
      rw [List.take_succ_cons, List.mem_cons, not_or] at hTake
      rw [List.mem_cons, not_or]
      exact ⟨hTake.1, ih hTake.2 h⟩
    | zero =>
      rw [validFrom] at h
      cases hLen : runeLen (x :: rest) with
      | zero => simp [hLen] at h
      | succ m =>
        rw [hLen] at h
        have hRune := ff_not_mem_of_isRune (isRune_of_runeLen hLen)
        rw [List.take_succ_cons, List.mem_cons, not_or] at hRune
        rw [List.mem_cons, not_or]
        exact ⟨hRune.1, ih hRune.2 h⟩

/-- The byte `FF` occurs in no valid string. -/
theorem ff_not_mem_of_validUtf8 {b : Bytes} (h : validUtf8 b = true) : 0xFF ∉ b :=
  ff_not_mem_of_validFrom List.not_mem_nil h

end ShardDB.Lib
