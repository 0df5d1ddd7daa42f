import ShardDB.Lib.Bytes

/-!
# Big-endian numbers

`encode w n` is the `w`-byte big-endian form of `n`, most significant byte first, and
`decode` reads such a form back. A number below `256 ^ w` survives the round trip, every
byte string is the form of the number it denotes, and two numbers of one width compare
as their forms do.
-/

namespace ShardDB.Lib.BigEndian

open ShardDB.Lib

/-- The `w` low-order bytes of `n`, most significant first. -/
def encode : Nat → Nat → Bytes
  | 0, _ => []
  | w + 1, n => UInt8.ofNat (n / 256 ^ w) :: encode w n

/-- The number a big-endian byte string denotes. -/
def decode : Bytes → Nat
  | [] => 0
  | b :: rest => b.toNat * 256 ^ rest.length + decode rest

@[simp]
theorem length_encode (w n : Nat) : (encode w n).length = w := by
  induction w with
  | zero => rfl
  | succ w ih => simp [encode, ih]

theorem decode_lt (b : Bytes) : decode b < 256 ^ b.length := by
  induction b with
  | nil => simp [decode]
  | cons x rest ih =>
    have hx : x.toNat + 1 ≤ 256 := x.toNat_lt
    calc decode (x :: rest) = x.toNat * 256 ^ rest.length + decode rest := rfl
      _ < (x.toNat + 1) * 256 ^ rest.length := by rw [Nat.add_mul, Nat.one_mul]; omega
      _ ≤ 256 * 256 ^ rest.length := Nat.mul_le_mul_right _ hx
      _ = 256 ^ (x :: rest).length := by rw [List.length_cons, Nat.pow_succ, Nat.mul_comm]

theorem decode_cons_pos {b : UInt8} (h : b ≠ 0) (rest : Bytes) : 0 < decode (b :: rest) := by
  have hByte : 0 < b.toNat := Nat.pos_of_ne_zero fun hZero => h (UInt8.toNat_inj.mp hZero)
  have hWeight : 0 < 256 ^ rest.length := Nat.pow_pos (by omega)
  have hProduct := Nat.mul_pos hByte hWeight
  rw [decode]
  omega

/-- Only the low-order part of a number enters its form. -/
theorem decode_encode_mod (w n : Nat) : decode (encode w n) = n % 256 ^ w := by
  induction w with
  | zero => simp [encode, decode, Nat.mod_one]
  | succ w ih =>
    have hByte : (UInt8.ofNat (n / 256 ^ w)).toNat = n / 256 ^ w % 256 := UInt8.toNat_ofNat'
    rw [encode, decode, hByte, length_encode, ih, Nat.pow_succ, Nat.mod_mul]
    ring

theorem decode_encode {w n : Nat} (h : n < 256 ^ w) : decode (encode w n) = n := by
  rw [decode_encode_mod, Nat.mod_eq_of_lt h]

theorem encode_mod (w n : Nat) : encode w (n % 256 ^ w) = encode w n := by
  suffices h : ∀ v, v ≤ w → encode v (n % 256 ^ w) = encode v n from h w le_rfl
  intro v hv
  induction v with
  | zero => rfl
  | succ v ih =>
    have hSplit : 256 ^ w = 256 ^ v * (256 * 256 ^ (w - (v + 1))) := by
      rw [← Nat.pow_succ', ← Nat.pow_add]
      congr 1
      omega
    have hDiv : n % 256 ^ w / 256 ^ v % 256 = n / 256 ^ v % 256 := by
      rw [hSplit, Nat.mod_mul_right_div_self, Nat.mod_mul_right_mod]
    rw [encode, encode, ih (by omega)]
    congr 1
    apply UInt8.toNat_inj.mp
    simpa only [UInt8.toNat_ofNat'] using hDiv

theorem encode_decode (b : Bytes) : encode b.length (decode b) = b := by
  induction b with
  | nil => rfl
  | cons x rest ih =>
    have hPos : 0 < 256 ^ rest.length := Nat.pow_pos (by norm_num)
    have hDiv : decode (x :: rest) / 256 ^ rest.length = x.toNat := by
      rw [decode, Nat.mul_comm, Nat.mul_add_div hPos, Nat.div_eq_of_lt (decode_lt rest),
        Nat.add_zero]
    have hMod : decode (x :: rest) % 256 ^ rest.length = decode rest := by
      rw [decode, Nat.mul_comm, Nat.mul_add_mod, Nat.mod_eq_of_lt (decode_lt rest)]
    rw [List.length_cons, encode, hDiv, UInt8.ofNat_toNat, ← encode_mod, hMod, ih]

/-- Byte strings of one length compare as the numbers they denote. -/
theorem lt_iff_decode_lt {a b : Bytes} (h : a.length = b.length) : a < b ↔ decode a < decode b := by
  induction a generalizing b with
  | nil =>
    cases b with
    | nil => simp [decode]
    | cons y rest => simp at h
  | cons x as ih =>
    cases b with
    | nil => simp at h
    | cons y bs =>
      have hLen : as.length = bs.length := by simpa using h
      have hA := decode_lt as
      have hB := decode_lt bs
      rw [List.cons_lt_cons_iff, ih hLen, decode, decode, ← hLen]
      rw [← hLen] at hB
      rw [UInt8.lt_iff_toNat_lt, ← UInt8.toNat_inj]
      generalize 256 ^ as.length = p at hA hB
      constructor
      · rintro (hLt | ⟨hEq, hLt⟩)
        · have hStep : (x.toNat + 1) * p ≤ y.toNat * p := Nat.mul_le_mul_right p hLt
          rw [Nat.add_mul, Nat.one_mul] at hStep
          omega
        · rw [hEq]
          omega
      · intro hLt
        rcases Nat.lt_trichotomy x.toNat y.toNat with hx | hx | hx
        · exact Or.inl hx
        · rw [hx] at hLt
          exact Or.inr ⟨hx, by omega⟩
        · have hStep : (y.toNat + 1) * p ≤ x.toNat * p := Nat.mul_le_mul_right p hx
          rw [Nat.add_mul, Nat.one_mul] at hStep
          omega

/-- Numbers of one width compare as their forms do. -/
theorem encode_lt_encode_iff {w m n : Nat} (hm : m < 256 ^ w) (hn : n < 256 ^ w) :
    encode w m < encode w n ↔ m < n := by
  rw [lt_iff_decode_lt (by simp), decode_encode hm, decode_encode hn]

end ShardDB.Lib.BigEndian
