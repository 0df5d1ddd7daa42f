import ShardDB.Lib.Codec

/-!
# JSON text

The parts of JSON text that carry byte strings: base64 strings, string literals with their
escapes, and objects. A string of a JSON document consists of characters, so it is a valid
UTF-8 string by its type (`JsonString`); writing an arbitrary byte string coerces it
(`JsonString.ofBytes`). An object is the list of its members in the order of the text, in
which a name may occur more than once.
-/

namespace ShardDB.Lib

/-- A string of a JSON document. -/
abbrev JsonString := { b : Bytes // validUtf8 b = true }

/-- Write a byte string as a JSON string. -/
def JsonString.ofBytes (b : Bytes) : JsonString := ⟨toValidUtf8 b, validUtf8_toValidUtf8 b⟩

/-- The members of an object whose values are byte strings or null. -/
abbrev JsonObject := List (JsonString × Slice)

/-! ## Base64 -/

/-- The character of a six-bit digit. -/
def base64Char (n : Nat) : UInt8 :=
  if n < 26 then UInt8.ofNat (65 + n)
  else if n < 52 then UInt8.ofNat (71 + n)
  else if n < 62 then UInt8.ofNat (n - 4)
  else if n = 62 then 43
  else 47

/-- The digit of a character. -/
def base64Digit (c : UInt8) : Option Nat :=
  if 65 ≤ c && c ≤ 90 then some (c.toNat - 65)
  else if 97 ≤ c && c ≤ 122 then some (c.toNat - 71)
  else if 48 ≤ c && c ≤ 57 then some (c.toNat + 4)
  else if c == 43 then some 62
  else if c == 47 then some 63
  else none

/-- Four characters for every three bytes, the last group padded with `=`. -/
def base64Encode : Bytes → Bytes
  | a :: b :: c :: rest =>
    base64Char (a.toNat / 4) :: base64Char (a.toNat % 4 * 16 + b.toNat / 16) ::
      base64Char (b.toNat % 16 * 4 + c.toNat / 64) :: base64Char (c.toNat % 64) ::
      base64Encode rest
  | [a, b] =>
    [base64Char (a.toNat / 4), base64Char (a.toNat % 4 * 16 + b.toNat / 16),
      base64Char (b.toNat % 16 * 4), 61]
  | [a] => [base64Char (a.toNat / 4), base64Char (a.toNat % 4 * 16), 61, 61]
  | [] => []

def base64Decode : Bytes → Option Bytes
  | [] => some []
  | [w, x, 61, 61] => do
    let w ← base64Digit w
    let x ← base64Digit x
    return [UInt8.ofNat (w * 4 + x / 16)]
  | [w, x, y, 61] => do
    let w ← base64Digit w
    let x ← base64Digit x
    let y ← base64Digit y
    return [UInt8.ofNat (w * 4 + x / 16), UInt8.ofNat (x % 16 * 16 + y / 4)]
  | w :: x :: y :: z :: rest => do
    let w ← base64Digit w
    let x ← base64Digit x
    let y ← base64Digit y
    let z ← base64Digit z
    let tail ← base64Decode rest
    return UInt8.ofNat (w * 4 + x / 16) :: UInt8.ofNat (x % 16 * 16 + y / 4) ::
      UInt8.ofNat (y % 4 * 64 + z) :: tail
  | _ => none

theorem base64Digit_char : ∀ n < 64, base64Digit (base64Char n) = some n := by decide

/-- No character of base64 text is a padding sign or a quote. -/
theorem base64Char_ne : ∀ n < 64, base64Char n ≠ 61 ∧ base64Char n ≠ 34 := by decide

theorem base64Decode_encode (b : Bytes) : base64Decode (base64Encode b) = some b := by
  induction b using base64Encode.induct with
  | case1 a b c rest ih =>
    have ha := a.toNat_lt
    have hb := b.toNat_lt
    have hc := c.toNat_lt
    have hz := (base64Char_ne (c.toNat % 64) (by omega)).1
    rw [base64Encode]
    generalize hZ : base64Char (c.toNat % 64) = z at hz
    have hDigit : base64Digit z = some (c.toNat % 64) := by
      rw [← hZ, base64Digit_char _ (by omega)]
    rw [base64Decode, base64Digit_char _ (by omega), base64Digit_char _ (by omega),
      base64Digit_char _ (by omega), hDigit, ih]
    · simp only [Option.bind_eq_bind, Option.bind_some, Option.pure_def, Option.some.injEq,
        List.cons.injEq, and_true]
      refine ⟨?_, ?_, ?_⟩ <;> apply UInt8.toNat_inj.mp <;> rw [UInt8.toNat_ofNat'] <;> omega
    · intro h
      exact absurd h (base64Char_ne _ (by omega)).1
    · intro h
      exact absurd h hz
  | case2 a b =>
    have ha := a.toNat_lt
    have hb := b.toNat_lt
    have hy := (base64Char_ne (b.toNat % 16 * 4) (by omega)).1
    rw [base64Encode]
    generalize hY : base64Char (b.toNat % 16 * 4) = y at hy
    have hDigit : base64Digit y = some (b.toNat % 16 * 4) := by
      rw [← hY, base64Digit_char _ (by omega)]
    rw [base64Decode, base64Digit_char _ (by omega), base64Digit_char _ (by omega), hDigit]
    · simp only [Option.bind_eq_bind, Option.bind_some, Option.pure_def, Option.some.injEq,
        List.cons.injEq, and_true]
      refine ⟨?_, ?_⟩ <;> apply UInt8.toNat_inj.mp <;> rw [UInt8.toNat_ofNat'] <;> omega
    · intro h
      exact absurd h hy
  | case3 a =>
    have ha := a.toNat_lt
    rw [base64Encode, base64Decode, base64Digit_char _ (by omega), base64Digit_char _ (by omega)]
    simp only [Option.bind_eq_bind, Option.bind_some, Option.pure_def, Option.some.injEq,
      List.cons.injEq, and_true]
    apply UInt8.toNat_inj.mp
    rw [UInt8.toNat_ofNat']
    omega
  | case4 => rfl

theorem ne_quote_of_mem_base64Encode {b : Bytes} {c : UInt8} (h : c ∈ base64Encode b) : c ≠ 34 := by
  have hChar : ∀ n < 64, c = base64Char n → c ≠ 34 := fun n hn hc => hc ▸ (base64Char_ne n hn).2
  induction b using base64Encode.induct with
  | case1 x y z rest ih =>
    have hx := x.toNat_lt
    have hy := y.toNat_lt
    have hz := z.toNat_lt
    simp only [base64Encode, List.mem_cons] at h
    rcases h with h | h | h | h | h
    · exact hChar _ (by omega) h
    · exact hChar _ (by omega) h
    · exact hChar _ (by omega) h
    · exact hChar _ (by omega) h
    · exact ih h
  | case2 x y =>
    have hx := x.toNat_lt
    have hy := y.toNat_lt
    simp only [base64Encode, List.mem_cons, List.not_mem_nil, or_false] at h
    rcases h with h | h | h | h
    · exact hChar _ (by omega) h
    · exact hChar _ (by omega) h
    · exact hChar _ (by omega) h
    · rw [h]
      decide
  | case3 x =>
    have hx := x.toNat_lt
    simp only [base64Encode, List.mem_cons, List.not_mem_nil, or_false] at h
    rcases h with h | h | h | h
    · exact hChar _ (by omega) h
    · exact hChar _ (by omega) h
    · rw [h]
      decide
    · rw [h]
      decide
  | case4 => cases h

/-- A base64 string with its closing quote. -/
def base64Field : WireField Bytes where
  enc b := base64Encode b ++ [34]
  dec input :=
    match input.dropWhile (· ≠ 34) with
    | [] => none
    | _ :: rest => (base64Decode (input.takeWhile (· ≠ 34))).map fun b => (b, rest)
  dec_enc b rest := by
    have hAll : ∀ c ∈ base64Encode b, decide (c ≠ 34) = true := fun c hc => by
      simpa using ne_quote_of_mem_base64Encode hc
    rw [List.append_assoc, List.dropWhile_append_of_pos hAll, List.takeWhile_append_of_pos hAll]
    simp [base64Decode_encode]

/-- A byte string as a base64 string, a nil slice as `null`. -/
def sliceField : WireField Slice where
  enc
    | none => ascii "null"
    | some b => 34 :: base64Field.enc b
  dec
    | 34 :: input => (base64Field.dec input).map fun p => (some p.1, p.2)
    | 110 :: 117 :: 108 :: 108 :: input => some (none, input)
    | _ => none
  dec_enc
    | none, rest => rfl
    | some b, rest => by
      rw [List.cons_append]
      simp [base64Field.dec_enc]

/-! ## String literals -/

def hexChar (n : Nat) : UInt8 := if n < 10 then UInt8.ofNat (48 + n) else UInt8.ofNat (87 + n)

def hexDigit (c : UInt8) : Option Nat :=
  if 48 ≤ c && c ≤ 57 then some (c.toNat - 48)
  else if 97 ≤ c && c ≤ 102 then some (c.toNat - 87)
  else none

theorem hexDigit_char : ∀ n < 16, hexDigit (hexChar n) = some n := by decide

/-- The escapes of one letter. -/
def shortEscapes : List (UInt8 × UInt8) :=
  [(34, 34), (92, 92), (8, 98), (12, 102), (10, 110), (13, 114), (9, 116)]

/-- A character that must not stand for itself, as a letter or as four hexadecimal digits. -/
def escapeByte (b : UInt8) : Bytes :=
  match shortEscapes.find? fun e => e.1 == b with
  | some e => [92, e.2]
  | none =>
    if b < 32 || b == 60 || b == 62 || b == 38 then
      [92, 117, 48, 48, hexChar (b.toNat / 16), hexChar (b.toNat % 16)]
    else [b]

/-- The inside of a string literal. The separators U+2028 and U+2029 are escaped too. -/
def escape : Bytes → Bytes
  | 0xE2 :: 0x80 :: 0xA8 :: rest => [92, 117, 50, 48, 50, 56] ++ escape rest
  | 0xE2 :: 0x80 :: 0xA9 :: rest => [92, 117, 50, 48, 50, 57] ++ escape rest
  | b :: rest => escapeByte b ++ escape rest
  | [] => []

/-- Read up to the closing quote. -/
def unescape : Bytes → Option (Bytes × Bytes)
  | [] => none
  | 92 :: 117 :: 50 :: 48 :: 50 :: 56 :: rest =>
    (unescape rest).map fun p => (0xE2 :: 0x80 :: 0xA8 :: p.1, p.2)
  | 92 :: 117 :: 50 :: 48 :: 50 :: 57 :: rest =>
    (unescape rest).map fun p => (0xE2 :: 0x80 :: 0xA9 :: p.1, p.2)
  | 92 :: 117 :: 48 :: 48 :: c :: d :: rest => do
    let c ← hexDigit c
    let d ← hexDigit d
    let p ← unescape rest
    return (UInt8.ofNat (c * 16 + d) :: p.1, p.2)
  | 92 :: c :: rest => do
    let e ← shortEscapes.find? fun e => e.2 == c
    let p ← unescape rest
    return (e.1 :: p.1, p.2)
  | b :: rest =>
    if b == 34 then some ([], rest) else (unescape rest).map fun p => (b :: p.1, p.2)

theorem unescape_escapeByte (b : UInt8) (input : Bytes) :
    unescape (escapeByte b ++ input) = (unescape input).map fun p => (b :: p.1, p.2) := by
  have hb := b.toNat_lt
  unfold escapeByte
  cases hFind : shortEscapes.find? fun e => e.1 == b with
  | some e =>
    -- seven letters, each with its own meaning
    have hMem := List.mem_of_find?_eq_some hFind
    have hEq : e.1 = b := by simpa using List.find?_some hFind
    subst hEq
    simp only [shortEscapes, List.mem_cons, List.not_mem_nil, or_false] at hMem
    rcases hMem with rfl | rfl | rfl | rfl | rfl | rfl | rfl <;>
      (simp [unescape, shortEscapes]; cases unescape input <;> rfl)
  | none =>
    dsimp only
    split_ifs with hHex
    · rw [List.cons_append, List.cons_append, List.cons_append, List.cons_append,
        List.cons_append, List.cons_append, List.nil_append, unescape,
        hexDigit_char _ (by omega), hexDigit_char _ (by omega)]
      have hByte : UInt8.ofNat (b.toNat / 16 * 16 + b.toNat % 16) = b := by
        apply UInt8.toNat_inj.mp
        rw [UInt8.toNat_ofNat']
        omega
      simp only [Option.bind_eq_bind, Option.bind_some, hByte]
      cases unescape input <;> rfl
    · have hQuote : b ≠ 34 := by
        rintro rfl
        simp [shortEscapes] at hFind
      have hSlash : b ≠ 92 := by
        rintro rfl
        simp [shortEscapes] at hFind
      rw [List.cons_append, List.nil_append, unescape]
      · simp [hQuote]
      all_goals intros; exact absurd ‹b = 92› hSlash

theorem unescape_escape (s rest : Bytes) : unescape (escape s ++ 34 :: rest) = some (s, rest) := by
  induction s using escape.induct with
  | case1 tail ih =>
    rw [escape, List.append_assoc]
    simp [unescape, ih]
  | case2 tail ih =>
    rw [escape, List.append_assoc]
    simp [unescape, ih]
  | case3 b tail h₁ h₂ ih =>
    rw [escape, List.append_assoc, unescape_escapeByte, ih]
    · rfl
    · exact h₁
    · exact h₂
  | case4 => simp [escape, unescape]

/-- A string literal with both quotes. -/
def stringField : WireField JsonString where
  enc s := 34 :: (escape s.1 ++ [34])
  dec
    | 34 :: input =>
      match unescape input with
      | some (b, rest) => if h : validUtf8 b = true then some (⟨b, h⟩, rest) else none
      | none => none
    | _ => none
  dec_enc s rest := by
    have h := unescape_escape s.1 rest
    rw [List.cons_append, List.append_assoc, List.singleton_append]
    simp [h, s.2]

/-! ## Sequences and objects -/

section Sequence

variable {α : Type} (f : WireField α) (close : UInt8)

/-- The elements after the first, each after a comma, and the closing bracket. -/
def encTail : List α → Bytes
  | [] => [close]
  | a :: l => 44 :: (f.enc a ++ encTail l)

def decTail : Nat → Bytes → Option (List α × Bytes)
  | 0, _ => none
  | fuel + 1, input =>
    match input with
    | [] => none
    | c :: input =>
      if c == close then some ([], input)
      else if c == 44 then do
        let (a, input) ← f.dec input
        let (l, input) ← decTail fuel input
        return (a :: l, input)
      else none

theorem length_lt_length_encTail (l : List α) : l.length < (encTail f close l).length := by
  induction l with
  | nil => simp [encTail]
  | cons a l ih =>
    simp only [encTail, List.length_cons, List.length_append]
    omega

theorem decTail_encTail (hClose : close ≠ 44) (l : List α) (rest : Bytes) {fuel : Nat}
    (hFuel : l.length < fuel) : decTail f close fuel (encTail f close l ++ rest) = some (l, rest) := by
  induction l generalizing fuel with
  | nil =>
    obtain ⟨fuel, rfl⟩ := Nat.exists_eq_succ_of_ne_zero (by omega : fuel ≠ 0)
    simp [encTail, decTail]
  | cons a l ih =>
    obtain ⟨fuel, rfl⟩ := Nat.exists_eq_succ_of_ne_zero (by omega : fuel ≠ 0)
    have hTail := @ih fuel (by simp only [List.length_cons] at hFuel; omega)
    simp [encTail, decTail, hClose.symm, f.dec_enc, hTail]

/-- Elements between brackets, separated by commas. The first byte of an element tells it
apart from the closing bracket. -/
def sequence (left : UInt8) (hClose : close ≠ 44)
    (hFirst : ∀ a, ∃ c t, f.enc a = c :: t ∧ c ≠ close) : WireField (List α) where
  enc
    | [] => [left, close]
    | a :: l => left :: (f.enc a ++ encTail f close l)
  dec input :=
    match input with
    | b :: c :: rest =>
      if b ≠ left then none
      else if c = close then some ([], rest)
      else do
        let (a, input) ← f.dec (c :: rest)
        let (l, input) ← decTail f close input.length input
        return (a :: l, input)
    | _ => none
  dec_enc l rest := by
    cases l with
    | nil => simp
    | cons a l =>
      obtain ⟨c, t, hEnc, hc⟩ := hFirst a
      have hDec := f.dec_enc a (encTail f close l ++ rest)
      have hLen := length_lt_length_encTail f close l
      have hTail := decTail_encTail f close hClose l rest
        (by rw [List.length_append]; omega : l.length < (encTail f close l ++ rest).length)
      rw [hEnc, List.cons_append] at hDec
      simp only [hEnc, List.cons_append, List.append_assoc, ne_eq, not_true_eq_false, ↓reduceIte,
        hc, hDec, Option.bind_eq_bind, Option.bind_some, hTail]
      rfl

/-- The text of a sequence begins with its opening bracket. -/
theorem sequence_first {f : WireField α} {close opening c : UInt8} {hClose : close ≠ 44}
    {hFirst : ∀ a, ∃ b t, f.enc a = b :: t ∧ b ≠ close} (l : List α) (hc : opening ≠ c) :
    ∃ b t, (sequence f close opening hClose hFirst).enc l = b :: t ∧ b ≠ c := by
  cases l with
  | nil => exact ⟨opening, _, rfl, hc⟩
  | cons a l => exact ⟨opening, _, rfl, hc⟩

end Sequence

/-- A value or `null`. The first byte of a value tells it apart from `null`. -/
def nullable {α : Type} (f : WireField α) (hFirst : ∀ a, ∃ c t, f.enc a = c :: t ∧ c ≠ 110) :
    WireField (Option α) where
  enc
    | none => ascii "null"
    | some a => f.enc a
  dec
    | 110 :: 117 :: 108 :: 108 :: input => some (none, input)
    | input => (f.dec input).map fun p => (some p.1, p.2)
  dec_enc
    | none, rest => rfl
    | some a, rest => by
      obtain ⟨c, t, hEnc, hc⟩ := hFirst a
      have hDec := f.dec_enc a rest
      rw [hEnc, List.cons_append] at hDec
      simp only [hEnc, List.cons_append]
      split
      · next h =>
        simp only [List.cons.injEq] at h
        exact absurd h.1 hc
      · rw [hDec]
        rfl

/-- A member `"name":"base64"` or `"name":null`. -/
def memberField : WireField (JsonString × Slice) := stringField.pair (sliceField.tagged [58])

/-- An object on a line of its own. -/
def objectLine : Codec JsonObject :=
  (((sequence memberField 125 123 (by decide) fun _ => ⟨34, _, rfl, by decide⟩).pair
    (WireField.literal [10])).imap Prod.fst (fun l => (l, ())) fun _ => rfl).toCodec

theorem bracket_ne_comma : (93 : UInt8) ≠ 44 := by decide

theorem brace_ne_comma : (125 : UInt8) ≠ 44 := by decide

theorem bracket_ne_null : (91 : UInt8) ≠ 110 := by decide

theorem stringField_first (s : JsonString) : ∃ c t, stringField.enc s = c :: t ∧ c ≠ 93 :=
  ⟨34, _, rfl, by decide⟩

/-- An array of strings. -/
def stringsField : WireField (List JsonString) :=
  sequence stringField 93 91 bracket_ne_comma stringField_first

theorem stringsField_first (l : List JsonString) : ∃ c t, stringsField.enc l = c :: t ∧ c ≠ 93 :=
  sequence_first l (by decide)

/-- An array of strings or `null`. -/
def nullableStrings : WireField (Option (List JsonString)) :=
  nullable stringsField fun l => sequence_first l bracket_ne_null

def tableField : WireField (List (List JsonString)) :=
  sequence stringsField 93 91 bracket_ne_comma stringsField_first

/-- An array of arrays of strings, or `null`, on a line of its own. -/
def tableLine : Codec (Option (List (List JsonString))) :=
  (((nullable tableField fun l => sequence_first l bracket_ne_null).pair
    (WireField.literal [10])).imap Prod.fst (fun l => (l, ())) fun _ => rfl).toCodec

theorem tableLine_first (rows : Option (List (List JsonString))) :
    ∃ c t, tableLine.enc rows = c :: t ∧ (c = 91 ∨ c = 110) := by
  cases rows with
  | none => exact ⟨110, _, rfl, Or.inr rfl⟩
  | some l =>
    cases l with
    | nil => exact ⟨91, _, rfl, Or.inl rfl⟩
    | cons a l => exact ⟨91, _, rfl, Or.inl rfl⟩

example : objectLine.enc [(JsonString.ofBytes (ascii "a<"), some (ascii "val")),
      (JsonString.ofBytes [255], none)] =
    ascii "\x7b\"a\\u003c\":\"dmFs\",\"" ++ [0xEF, 0xBF, 0xBD] ++ ascii "\":null\x7d\n" := by
  decide

end ShardDB.Lib
