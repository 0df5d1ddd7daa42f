import Mathlib.Data.Nat.Digits.Defs
import ShardDB.Lib.Codec

/-!
# Decimal text

The digits of a number, most significant first, and a scanner that reads the digits at the
front of a text, as `%d` writes and scans numbers.
-/

namespace ShardDB.Lib

/-- The text of a number, as `%d` writes it. -/
def decimal (n : Nat) : Bytes :=
  if n = 0 then [48] else (Nat.digits 10 n).reverse.map fun d => UInt8.ofNat (48 + d)

def isDigit (c : UInt8) : Bool := 48 ≤ c && c ≤ 57

/-- The number a string of digits denotes. -/
def digitsValue (text : Bytes) : Nat := text.foldl (fun n c => n * 10 + (c.toNat - 48)) 0

theorem toNat_digit {d : Nat} (h : d < 10) : (UInt8.ofNat (48 + d)).toNat = 48 + d :=
  UInt8.toNat_ofNat_of_lt' (by change 48 + d < 256; omega)

theorem isDigit_of_mem_decimal {n : Nat} {c : UInt8} (h : c ∈ decimal n) : isDigit c = true := by
  have hDigit : ∀ d < 10, isDigit (UInt8.ofNat (48 + d)) = true := by decide
  unfold decimal at h
  split_ifs at h with hn
  · rw [List.mem_singleton.mp h]
    decide
  · obtain ⟨d, hd, rfl⟩ := List.mem_map.mp h
    exact hDigit d (Nat.digits_lt_base (by decide) (List.mem_reverse.mp hd))

theorem decimal_ne_nil (n : Nat) : decimal n ≠ [] := by
  unfold decimal
  split_ifs with hn
  · exact List.cons_ne_nil _ _
  · simpa using Nat.digits_ne_nil_iff_ne_zero.mpr hn

theorem digitsValue_decimal (n : Nat) : digitsValue (decimal n) = n := by
  -- the digits are stored low-order first, so the fold over them becomes `Nat.ofDigits`
  have hDigits : ∀ l : List Nat, (∀ d ∈ l, d < 10) →
      digitsValue (l.reverse.map fun d => UInt8.ofNat (48 + d)) = Nat.ofDigits 10 l := by
    intro l hl
    induction l with
    | nil => rfl
    | cons d l ih =>
      have hd : d < 10 := hl d List.mem_cons_self
      have hRest := ih fun d hd => hl d (List.mem_cons_of_mem _ hd)
      rw [List.reverse_cons, List.map_append, digitsValue, List.foldl_append, ← digitsValue, hRest,
        Nat.ofDigits_cons]
      simp only [List.map_cons, List.map_nil, List.foldl_cons, List.foldl_nil, toNat_digit hd]
      omega
  unfold decimal
  split_ifs with hn
  · rw [hn]
    rfl
  · rw [hDigits _ fun d hd => Nat.digits_lt_base (by decide) hd, Nat.ofDigits_digits]

/-- A number followed by a comma. -/
def decimalField : WireField Nat where
  enc n := decimal n ++ [44]
  dec input :=
    match input.dropWhile isDigit with
    | 44 :: rest => some (digitsValue (input.takeWhile isDigit), rest)
    | _ => none
  dec_enc n rest := by
    have hAll : ∀ c ∈ decimal n, isDigit c = true := fun c hc => isDigit_of_mem_decimal hc
    rw [List.append_assoc, List.dropWhile_append_of_pos hAll, List.takeWhile_append_of_pos hAll]
    simp [isDigit, digitsValue_decimal]

/-- A 64-bit number followed by a byte that is not a digit. -/
def numberField (stop : UInt8) (hStop : isDigit stop = false) : WireField UInt64 where
  enc n := decimal n.toNat ++ [stop]
  dec input :=
    match input.dropWhile isDigit with
    | c :: rest =>
      if c = stop ∧ digitsValue (input.takeWhile isDigit) < 2 ^ 64 then
        some (UInt64.ofNat (digitsValue (input.takeWhile isDigit)), rest)
      else none
    | [] => none
  dec_enc n rest := by
    have hAll : ∀ c ∈ decimal n.toNat, isDigit c = true := fun c hc => isDigit_of_mem_decimal hc
    rw [List.append_assoc, List.dropWhile_append_of_pos hAll, List.takeWhile_append_of_pos hAll]
    simp [hStop, digitsValue_decimal, n.toNat_lt]

end ShardDB.Lib
