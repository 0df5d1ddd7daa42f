import ShardDB.Lib.Utf8

/-!
# Encodings that can be read back

A `Codec` writes values as byte strings and reads them back. A `WireField` is a
self-delimiting codec: it also reads its value back when more bytes follow, so fields can
be put one after another. Fields for numbers, byte strings, pairs and lists are combined
into codecs of whole messages; `base64` and JSON string literals are fields that end at
their closing quote.
-/

namespace ShardDB.Lib

/-- An encoding of values as byte strings, with the reader that inverts it. -/
structure Codec (α : Type) where
  enc : α → Bytes
  dec : Bytes → Option α
  dec_enc : ∀ a, dec (enc a) = some a

/-- A self-delimiting encoding: the reader returns the value and the bytes after it. -/
structure WireField (α : Type) where
  enc : α → Bytes
  dec : Bytes → Option (α × Bytes)
  dec_enc : ∀ a rest, dec (enc a ++ rest) = some (a, rest)

namespace WireField

variable {α β : Type}

/-- A field alone is a codec; nothing may follow it. -/
def toCodec (f : WireField α) : Codec α where
  enc := f.enc
  dec b :=
    match f.dec b with
    | some (a, []) => some a
    | _ => none
  dec_enc a := by
    have h := f.dec_enc a []
    rw [List.append_nil] at h
    rw [h]

/-- Fixed bytes. -/
def literal (b : Bytes) : WireField Unit where
  enc _ := b
  dec input := if input.take b.length = b then some ((), input.drop b.length) else none
  dec_enc _ rest := by simp

/-- Two fields, one after the other. -/
def pair (f : WireField α) (g : WireField β) : WireField (α × β) where
  enc p := f.enc p.1 ++ g.enc p.2
  dec input := do
    let (a, input) ← f.dec input
    let (b, input) ← g.dec input
    return ((a, b), input)
  dec_enc p rest := by
    rw [List.append_assoc, f.dec_enc]
    simp [g.dec_enc]

/-- A field of values that correspond to the values of another field. -/
def imap (f : WireField α) (g : α → β) (g' : β → α) (h : ∀ b, g (g' b) = b) : WireField β where
  enc b := f.enc (g' b)
  dec input := (f.dec input).map fun p => (g p.1, p.2)
  dec_enc b rest := by simp [f.dec_enc, h]

/-- A field after fixed bytes. -/
def tagged (tag : Bytes) (f : WireField α) : WireField α :=
  ((literal tag).pair f).imap Prod.snd (fun a => ((), a)) fun _ => rfl

/-! ## Numbers and byte strings -/

/-- Seven bits a byte, low-order first; all but the last byte have the high bit set. -/
def encVarint : Nat → Nat → Bytes
  | 0, _ => []
  | fuel + 1, n =>
    if n < 128 then [UInt8.ofNat n]
    else UInt8.ofNat (n % 128 + 128) :: encVarint fuel (n / 128)

def decVarint : Bytes → Option (Nat × Bytes)
  | [] => none
  | b :: rest =>
    if b < 128 then some (b.toNat, rest)
    else (decVarint rest).map fun p => (b.toNat - 128 + 128 * p.1, p.2)

theorem decVarint_encVarint {fuel n : Nat} (h : n < fuel) (rest : Bytes) :
    decVarint (encVarint fuel n ++ rest) = some (n, rest) := by
  induction fuel generalizing n with
  | zero => omega
  | succ fuel ih =>
    unfold encVarint
    split_ifs with hn
    · have hByte : (UInt8.ofNat n).toNat = n := UInt8.toNat_ofNat_of_lt' (by change n < 256; omega)
      have hSmall : UInt8.ofNat n < 128 := by
        rw [UInt8.lt_iff_toNat_lt, hByte]
        exact hn
      simp [decVarint, hSmall, hByte]
    · have hByte : (UInt8.ofNat (n % 128 + 128)).toNat = n % 128 + 128 :=
        UInt8.toNat_ofNat_of_lt' (by change n % 128 + 128 < 256; omega)
      have hLarge : ¬ UInt8.ofNat (n % 128 + 128) < 128 := by
        rw [UInt8.lt_iff_toNat_lt, hByte]
        change ¬ n % 128 + 128 < 128
        omega
      rw [List.cons_append, decVarint, if_neg hLarge, ih (by omega), hByte]
      simp only [Option.map_some, Option.some.injEq, Prod.mk.injEq, and_true]
      omega

/-- A natural number as a varint. -/
def varint : WireField Nat where
  enc n := encVarint (n + 1) n
  dec := decVarint
  dec_enc n rest := decVarint_encVarint (Nat.lt_succ_self n) rest

/-- A byte string after its length. -/
def bytes : WireField Bytes where
  enc b := varint.enc b.length ++ b
  dec input := do
    let (n, input) ← varint.dec input
    if n ≤ input.length then return (input.take n, input.drop n) else none
  dec_enc b rest := by
    rw [List.append_assoc, varint.dec_enc]
    simp

/-- Read `n` values of a field. -/
def decMany (f : WireField α) : Nat → Bytes → Option (List α × Bytes)
  | 0, input => some ([], input)
  | n + 1, input => do
    let (a, input) ← f.dec input
    let (l, input) ← decMany f n input
    return (a :: l, input)

theorem decMany_flatMap (f : WireField α) (l : List α) (rest : Bytes) :
    f.decMany l.length (l.flatMap f.enc ++ rest) = some (l, rest) := by
  induction l with
  | nil => rfl
  | cons a l ih =>
    rw [List.flatMap_cons, List.append_assoc, List.length_cons, decMany, f.dec_enc]
    simp [ih]

/-- A list after its length. -/
def list (f : WireField α) : WireField (List α) where
  enc l := varint.enc l.length ++ l.flatMap f.enc
  dec input := do
    let (n, input) ← varint.dec input
    f.decMany n input
  dec_enc l rest := by
    rw [List.append_assoc, varint.dec_enc]
    exact f.decMany_flatMap l rest

/-- A value that may be missing, as a list of at most one value. -/
def optional (f : WireField α) : WireField (Option α) :=
  f.list.imap List.head? Option.toList fun o => by cases o <;> rfl

end WireField

end ShardDB.Lib
