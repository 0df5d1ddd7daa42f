import ShardDB.Lib.BigEndian

/-!
# The write-ahead log

The log file is a byte string. `append` adds one frame, `Len(4) | Data(N) | CRC(4)`, and
`iterate` reads the frames from the start and hands their data to a handler, until the file
ends at a frame boundary, something cannot be read, or the handler fails. `iterate` returns
the handler's last state and the error, if there is one.

Whatever follows them, the frames of data shorter than `2 ^ 32` bytes are read back one by
one (`iterate_frames`).
-/

namespace ShardDB.Storage.Wal

open ShardDB.Lib

/-! ## Checksum -/

/-- One bit of the reflected division by the IEEE polynomial. -/
def crcBit (crc : UInt32) : UInt32 :=
  if crc &&& 1 = 1 then (crc >>> 1) ^^^ 0xEDB88320 else crc >>> 1

def crcByte (crc : UInt32) (b : UInt8) : UInt32 := crcBit^[8] (crc ^^^ b.toUInt32)

/-- `crc32.ChecksumIEEE`. -/
def checksumIEEE (data : Bytes) : UInt32 := data.foldl crcByte 0xFFFFFFFF ^^^ 0xFFFFFFFF

example : checksumIEEE (ascii "123456789") = 0xCBF43926 := by decide +kernel

/-! ## Writing -/

/-- The frame of an entry. A length that does not fit four bytes is cut off. -/
def frame (data : Bytes) : Bytes :=
  BigEndian.encode 4 data.length ++ data ++ BigEndian.encode 4 (checksumIEEE data).toNat

/-- `Append`, when every write succeeds. -/
def append (file data : Bytes) : Bytes := file ++ frame data

/-! ## Reading -/

/-- The errors of `io.ReadFull`. -/
inductive ReadError where
  | eof
  | unexpectedEOF
  deriving DecidableEq

/-- `io.ReadFull` with a buffer of `n` bytes: what was read and the rest of the file. -/
def readFull (n : Nat) (input : Bytes) : Except ReadError (Bytes × Bytes) :=
  if n ≤ input.length then .ok (input.take n, input.drop n)
  else if input = [] then .error .eof
  else .error .unexpectedEOF

/-- The data of an entry of the given length, its checksum, and the rest of the file. -/
def readEntry (length : Nat) (input : Bytes) : Except ReadError (Bytes × Bytes) :=
  match readFull length input with
  | .error e => .error e
  | .ok (data, input) =>
    match readFull 4 input with
    | .error e => .error e
    | .ok (crcBuf, input) =>
      if (checksumIEEE data).toNat = BigEndian.decode crcBuf then .ok (data, input)
      else .error .unexpectedEOF

/-- One round of the loop up to the call of the handler: nothing at the end of the file,
otherwise the data of the next frame and the rest of the file. -/
def readFrame (input : Bytes) : Except ReadError (Option (Bytes × Bytes)) :=
  match readFull 4 input with
  | .error .eof => .ok none
  | .error e => .error e
  | .ok (lenBuf, input) => (readEntry (BigEndian.decode lenBuf) input).map some

theorem readFull_append (a rest : Bytes) : readFull a.length (a ++ rest) = .ok (a, rest) := by
  simp [readFull]

theorem readFull_length {n : Nat} {input a rest : Bytes} (h : readFull n input = .ok (a, rest)) :
    rest.length + n = input.length := by
  unfold readFull at h
  split_ifs at h with hLen
  cases h
  rw [List.length_drop]
  omega

theorem readFrame_nil : readFrame [] = .ok none := rfl

theorem readEntry_eq {length : Nat} {input data crcBuf tail rest : Bytes}
    (hData : readFull length input = .ok (data, tail)) (hCrc : readFull 4 tail = .ok (crcBuf, rest))
    (hSum : BigEndian.decode crcBuf = (checksumIEEE data).toNat) :
    readEntry length input = .ok (data, rest) := by
  simp only [readEntry, hData, hCrc, hSum, if_true]

theorem readFrame_eq {input lenBuf rest : Bytes} (h : readFull 4 input = .ok (lenBuf, rest)) :
    readFrame input = (readEntry (BigEndian.decode lenBuf) rest).map some := by
  rw [readFrame, h]

theorem readFull_encode (n : Nat) (rest : Bytes) :
    readFull 4 (BigEndian.encode 4 n ++ rest) = .ok (BigEndian.encode 4 n, rest) := by
  have h := readFull_append (BigEndian.encode 4 n) rest
  rwa [BigEndian.length_encode] at h

theorem decode_encode_four {n : Nat} (h : n < 2 ^ 32) :
    BigEndian.decode (BigEndian.encode 4 n) = n :=
  BigEndian.decode_encode (h.trans_eq (by norm_num))

theorem readFrame_frame {data : Bytes} (hLen : data.length < 2 ^ 32) (rest : Bytes) :
    readFrame (frame data ++ rest) = .ok (some (data, rest)) := by
  rw [frame, List.append_assoc, List.append_assoc, readFrame_eq (readFull_encode _ _),
    decode_encode_four hLen, readEntry_eq (readFull_append _ _) (readFull_encode _ _)
      (decode_encode_four (UInt32.toNat_lt _))]
  rfl

/-- An entry that was read is its data and the checksum of the data. -/
theorem exists_of_readEntry {length : Nat} {input data rest : Bytes}
    (h : readEntry length input = .ok (data, rest)) :
    ∃ tail crcBuf, readFull length input = .ok (data, tail) ∧
      readFull 4 tail = .ok (crcBuf, rest) ∧
      BigEndian.decode crcBuf = (checksumIEEE data).toNat := by
  unfold readEntry at h
  split at h
  · cases h
  · next tail hData =>
    split at h
    · cases h
    · next crcBuf _ hCrc =>
      split_ifs at h with hSum
      cases h
      exact ⟨tail, crcBuf, hData, hCrc, hSum.symm⟩

/-- A frame that was read is a length and an entry of that length. -/
theorem exists_of_readFrame {input data rest : Bytes}
    (h : readFrame input = .ok (some (data, rest))) :
    ∃ lenBuf tail, readFull 4 input = .ok (lenBuf, tail) ∧
      readEntry (BigEndian.decode lenBuf) tail = .ok (data, rest) := by
  unfold readFrame at h
  split at h
  · cases h
  · cases h
  · next lenBuf tail hHead =>
    refine ⟨lenBuf, tail, hHead, ?_⟩
    cases hEntry : readEntry (BigEndian.decode lenBuf) tail with
    | error e => simp [hEntry, Except.map] at h
    | ok p =>
      simp only [hEntry, Except.map, Except.ok.injEq, Option.some.injEq] at h
      rw [h]

theorem readEntry_length {length : Nat} {input data rest : Bytes}
    (h : readEntry length input = .ok (data, rest)) : rest.length < input.length := by
  obtain ⟨tail, crcBuf, hData, hCrc, -⟩ := exists_of_readEntry h
  have := readFull_length hData
  have := readFull_length hCrc
  omega

theorem readFrame_length {input data rest : Bytes}
    (h : readFrame input = .ok (some (data, rest))) : rest.length < input.length := by
  obtain ⟨lenBuf, tail, hHead, hEntry⟩ := exists_of_readFrame h
  have := readFull_length hHead
  have := readEntry_length hEntry
  omega

/-- Why `Iterate` stops early. -/
inductive IterateError (ε : Type) where
  | read (e : ReadError)
  | handler (e : ε)
  deriving DecidableEq

/-- `Iterate`. A handler that fails leaves its state as it was. -/
def iterate {σ ε : Type} (handler : σ → Bytes → Except ε σ) (s : σ) (input : Bytes) :
    σ × Option (IterateError ε) :=
  match h : readFrame input with
  | .ok none => (s, none)
  | .error e => (s, some (.read e))
  | .ok (some (data, rest)) =>
    match handler s data with
    | .error e => (s, some (.handler e))
    | .ok s =>
      have := readFrame_length h
      iterate handler s rest
termination_by input.length

section Iterate

variable {σ ε : Type} {handler : σ → Bytes → Except ε σ} {s s' : σ}

/-- The loop, without the proof that it ends. -/
theorem iterate_eq (input : Bytes) :
    iterate handler s input =
      match readFrame input with
      | .ok none => (s, none)
      | .error e => (s, some (.read e))
      | .ok (some (data, rest)) =>
        match handler s data with
        | .error e => (s, some (.handler e))
        | .ok s => iterate handler s rest := by
  rw [iterate]
  split <;> next h => simp only [h]

theorem iterate_nil : iterate handler s [] = (s, none) := by
  rw [iterate_eq, readFrame_nil]

theorem iterate_of_readFrame {input data rest : Bytes}
    (h : readFrame input = .ok (some (data, rest))) :
    iterate handler s input =
      match handler s data with
      | .error e => (s, some (.handler e))
      | .ok s => iterate handler s rest := by
  rw [iterate_eq, h]

theorem iterate_error {input : Bytes} {e : ReadError} (h : readFrame input = .error e) :
    iterate handler s input = (s, some (.read e)) := by
  rw [iterate_eq, h]

theorem iterate_frame {data : Bytes} (hLen : data.length < 2 ^ 32) (rest : Bytes) :
    iterate handler s (frame data ++ rest) =
      match handler s data with
      | .error e => (s, some (.handler e))
      | .ok s => iterate handler s rest :=
  iterate_of_readFrame (readFrame_frame hLen rest)

/-- Frames that the handler accepts are consumed, whatever follows them. -/
theorem iterate_frames {datas : List Bytes} (hLen : ∀ d ∈ datas, d.length < 2 ^ 32)
    (rest : Bytes) (h : datas.foldlM handler s = .ok s') :
    iterate handler s (datas.flatMap frame ++ rest) = iterate handler s' rest := by
  induction datas generalizing s with
  | nil =>
    cases h
    rfl
  | cons d datas ih =>
    rw [List.flatMap_cons, List.append_assoc, iterate_frame (hLen d List.mem_cons_self)]
    rw [List.foldlM_cons] at h
    cases hStep : handler s d with
    | error e =>
      rw [hStep] at h
      cases h
    | ok s₁ =>
      rw [hStep] at h
      exact ih (fun d' hd => hLen d' (List.mem_cons_of_mem _ hd)) h

/-- The first frame that the handler refuses ends the loop. -/
theorem iterate_frames_error {datas : List Bytes} (hLen : ∀ d ∈ datas, d.length < 2 ^ 32)
    (rest : Bytes) {e : ε} (h : datas.foldlM handler s = .error e) :
    (iterate handler s (datas.flatMap frame ++ rest)).2 = some (.handler e) := by
  induction datas generalizing s with
  | nil => cases h
  | cons d datas ih =>
    rw [List.flatMap_cons, List.append_assoc, iterate_frame (hLen d List.mem_cons_self)]
    rw [List.foldlM_cons] at h
    cases hStep : handler s d with
    | error e' =>
      rw [hStep] at h
      cases h
      rfl
    | ok s₁ =>
      rw [hStep] at h
      exact ih (fun d' hd => hLen d' (List.mem_cons_of_mem _ hd)) h

end Iterate

end ShardDB.Storage.Wal
