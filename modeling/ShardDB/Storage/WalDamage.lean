import ShardDB.Lib.ShiftRegister
import ShardDB.Storage.WalCut

/-!
# Damaged log files

The checksum of a frame is a shift register with the IEEE polynomial (`toBitVec_crcByte`), so it
tells apart any two data that differ in one window of at most four bytes
(`checksumIEEE_injective`). `overwrite` changes a window of a file. If the window lies in the
data or in the checksum of one frame and anything has changed, `iterate` hands out the entries
before that frame and fails there (`iterate_damaged`): the damaged entry and everything after it
are never delivered.

Nothing of the sort holds for the length field, which no checksum covers.
-/

namespace ShardDB.Storage.Wal

open ShardDB.Lib

/-! ## The checksum as a shift register -/

/-- The IEEE polynomial, lowest power in the highest bit. -/
def ieee : BitVec 32 := 0xEDB88320

theorem msb_ieee : ieee.msb = true := by decide

theorem low_bit_iff (c : UInt32) : c &&& 1 = 1 ↔ c.toBitVec.getLsbD 0 = true := by
  have hLow : (c &&& 1).toBitVec = BitVec.setWidth 32 (BitVec.ofBool (c.toBitVec.getLsbD 0)) := by
    rw [UInt32.toBitVec_and]
    exact BitVec.and_one_eq_setWidth_ofBool_getLsbD
  rw [← UInt32.toBitVec_inj, hLow]
  cases c.toBitVec.getLsbD 0 <;> decide

theorem toBitVec_crcBit (c : UInt32) :
    (crcBit c).toBitVec = ShiftRegister.shift ieee c.toBitVec := by
  unfold crcBit ShiftRegister.shift
  simp only [low_bit_iff]
  split <;> simp [ieee]

theorem toBitVec_crcByte (c : UInt32) (b : UInt8) :
    (crcByte c b).toBitVec = ShiftRegister.feed ieee c.toBitVec b.toBitVec := by
  have hSteps (n : Nat) (c : UInt32) :
      (crcBit^[n] c).toBitVec = (ShiftRegister.shift ieee)^[n] c.toBitVec := by
    induction n generalizing c with
    | zero => rfl
    | succ n ih =>
      rw [Function.iterate_succ_apply, ih, toBitVec_crcBit, Function.iterate_succ_apply]
  rw [crcByte, hSteps, ShiftRegister.feed, UInt32.toBitVec_xor]
  rfl

theorem toBitVec_foldl_crcByte (data : Bytes) (c : UInt32) :
    (data.foldl crcByte c).toBitVec =
      (data.map UInt8.toBitVec).foldl (ShiftRegister.feed ieee) c.toBitVec := by
  induction data generalizing c with
  | nil => rfl
  | cons b data ih => rw [List.foldl_cons, ih, toBitVec_crcByte, List.map_cons, List.foldl_cons]

/-- A change within four consecutive bytes changes the checksum. -/
theorem checksumIEEE_injective {pre post a b : Bytes} (hLen : a.length = b.length)
    (hFour : a.length ≤ 4)
    (h : checksumIEEE (pre ++ a ++ post) = checksumIEEE (pre ++ b ++ post)) : a = b := by
  have hSum := congrArg UInt32.toBitVec ((UInt32.xor_left_inj _).mp h)
  simp only [toBitVec_foldl_crcByte, List.foldl_append] at hSum
  -- The bytes after the window keep the two registers apart, so they agree right behind it.
  have hWindow := ShiftRegister.foldl_feed_left_injective msb_ieee _ hSum
  have hBytes := ShiftRegister.foldl_feed_injective msb_ieee _ (by simpa using hLen)
    (by rw [List.length_map]; omega) hWindow
  exact List.map_injective_iff.mpr (fun _ _ => UInt8.toBitVec_inj.mp) hBytes

/-! ## Overwriting part of a file -/

/-- The file with `patch` written over the bytes from position `i` on. -/
def overwrite (file : Bytes) (i : Nat) (patch : Bytes) : Bytes :=
  file.take i ++ patch ++ file.drop (i + patch.length)

theorem overwrite_append_right (a b : Bytes) (i : Nat) (patch : Bytes) :
    overwrite (a ++ b) (a.length + i) patch = a ++ overwrite b i patch := by
  rw [overwrite, overwrite, Nat.add_assoc, List.take_length_add_append,
    List.drop_length_add_append, List.append_assoc, List.append_assoc, List.append_assoc]

theorem overwrite_append_left {a : Bytes} (b : Bytes) {i : Nat} {patch : Bytes}
    (h : i + patch.length ≤ a.length) : overwrite (a ++ b) i patch = overwrite a i patch ++ b := by
  have hTake : (a ++ b).take i = a.take i := List.take_append_of_le_length (by omega)
  have hDrop : (a ++ b).drop (i + patch.length) = a.drop (i + patch.length) ++ b :=
    List.drop_append_of_le_length h
  rw [overwrite, hTake, hDrop, overwrite, List.append_assoc _ _ b]

theorem length_overwrite {file : Bytes} {i : Nat} {patch : Bytes}
    (h : i + patch.length ≤ file.length) : (overwrite file i patch).length = file.length := by
  simp only [overwrite, List.length_append, List.length_take, List.length_drop]
  omega

/-- Data overwritten in at most four bytes keep their checksum only if nothing changed. -/
theorem checksumIEEE_overwrite {data : Bytes} {i : Nat} {patch : Bytes}
    (hIn : i + patch.length ≤ data.length) (hFour : patch.length ≤ 4)
    (h : checksumIEEE (overwrite data i patch) = checksumIEEE data) :
    overwrite data i patch = data := by
  have hSplit : data.take i ++ (data.drop i).take patch.length ++
      data.drop (i + patch.length) = data := by
    rw [List.append_assoc, ← List.drop_drop, List.take_append_drop, List.take_append_drop]
  have hLen : patch.length = ((data.drop i).take patch.length).length := by
    simp only [List.length_take, List.length_drop]
    omega
  have hSame : patch = (data.drop i).take patch.length := by
    apply checksumIEEE_injective hLen hFour
    rw [hSplit]
    exact h
  calc overwrite data i patch
      = data.take i ++ (data.drop i).take patch.length ++ data.drop (i + patch.length) := by
        rw [← hSame, overwrite]
    _ = data := hSplit

/-! ## A damaged frame -/

/-- The window lies in the data of the frame. -/
def InData (data : Bytes) (i n : Nat) : Prop := 4 ≤ i ∧ i + n ≤ 4 + data.length

/-- The window lies in the checksum of the frame. -/
def InChecksum (data : Bytes) (i n : Nat) : Prop :=
  4 + data.length ≤ i ∧ i + n ≤ 4 + data.length + 4

theorem readEntry_mismatch {data crcBuf rest : Bytes} (hBuf : crcBuf.length = 4)
    (hSum : BigEndian.decode crcBuf ≠ (checksumIEEE data).toNat) :
    readEntry data.length (data ++ crcBuf ++ rest) = .error .unexpectedEOF := by
  have hCrc := readFull_append crcBuf rest
  rw [hBuf] at hCrc
  rw [List.append_assoc]
  simp only [readEntry, readFull_append, hCrc, Ne.symm hSum, if_false]

theorem readFrame_damaged {data : Bytes} (hLen : data.length < 2 ^ 32) (rest : Bytes) {i : Nat}
    {patch : Bytes} (hFour : patch.length ≤ 4)
    (hWhere : InData data i patch.length ∨ InChecksum data i patch.length)
    (hChanged : overwrite (frame data) i patch ≠ frame data) :
    readFrame (overwrite (frame data) i patch ++ rest) = .error .unexpectedEOF := by
  have hHead (k : Nat) (b : Bytes) : overwrite (BigEndian.encode 4 data.length ++ b) (4 + k) patch =
      BigEndian.encode 4 data.length ++ overwrite b k patch := by
    have := overwrite_append_right (BigEndian.encode 4 data.length) b k patch
    rwa [BigEndian.length_encode] at this
  obtain ⟨k, rfl⟩ : ∃ k, i = 4 + k := by
    refine Nat.exists_eq_add_of_le ?_
    obtain hWhere | hWhere := hWhere
    · exact hWhere.1
    · exact (Nat.le_add_right 4 _).trans hWhere.1
  rw [frame, List.append_assoc, hHead] at hChanged ⊢
  rw [ne_eq, List.append_cancel_left_eq] at hChanged
  rw [List.append_assoc, readFrame_eq (readFull_encode _ _), decode_encode_four hLen]
  obtain ⟨-, hEnd⟩ | ⟨hStart, hEnd⟩ := hWhere
  · have hIn : k + patch.length ≤ data.length := by omega
    rw [overwrite_append_left _ hIn] at hChanged ⊢
    -- The length is intact, so the damaged data are compared with the checksum of the old ones.
    have hSum : BigEndian.decode (BigEndian.encode 4 (checksumIEEE data).toNat) ≠
        (checksumIEEE (overwrite data k patch)).toNat := by
      rw [decode_encode_four (UInt32.toNat_lt _)]
      intro h
      apply hChanged
      rw [checksumIEEE_overwrite hIn hFour (UInt32.toNat_inj.mp h).symm]
    rw [← length_overwrite hIn, readEntry_mismatch (BigEndian.length_encode _ _) hSum]
    rfl
  · obtain ⟨l, rfl⟩ : ∃ l, k = data.length + l := Nat.exists_eq_add_of_le (by omega)
    rw [overwrite_append_right] at hChanged ⊢
    rw [List.append_cancel_left_eq] at hChanged
    have hLength := @length_overwrite (BigEndian.encode 4 (checksumIEEE data).toNat) l patch
      (by rw [BigEndian.length_encode]; omega)
    rw [BigEndian.length_encode] at hLength
    have hSum :
        BigEndian.decode (overwrite (BigEndian.encode 4 (checksumIEEE data).toNat) l patch) ≠
          (checksumIEEE data).toNat := by
      intro h
      have hBytes := BigEndian.encode_decode
        (overwrite (BigEndian.encode 4 (checksumIEEE data).toNat) l patch)
      rw [hLength, h] at hBytes
      exact hChanged hBytes.symm
    rw [readEntry_mismatch hLength hSum]
    rfl

/-! ## A damaged log -/

/-- The window lies in the data or in the checksum of frame `j` of the log. Positions are
counted from the start of the frame. -/
structure Hits (datas : List Bytes) (j i n : Nat) (data : Bytes) : Prop where
  frame : datas[j]? = some data
  within : InData data i n ∨ InChecksum data i n

/-- The log is intact up to the damaged frame, which cannot be read. -/
theorem exists_damaged_tail {datas : List Bytes} (hLen : ∀ d ∈ datas, d.length < 2 ^ 32)
    {j i : Nat} {data patch : Bytes} (hHits : Hits datas j i patch.length data)
    (hFour : patch.length ≤ 4)
    (hChanged : overwrite (datas.flatMap frame) (frameEnd datas j + i) patch ≠
      datas.flatMap frame) :
    ∃ tail, overwrite (datas.flatMap frame) (frameEnd datas j + i) patch =
        (datas.take j).flatMap frame ++ tail ∧
      readFrame tail = .error .unexpectedEOF := by
  obtain ⟨hData, hWithin⟩ := hHits
  have hSplit : datas = datas.take j ++ data :: datas.drop (j + 1) := by
    obtain ⟨hj, rfl⟩ := List.getElem?_eq_some_iff.mp hData
    rw [← List.drop_eq_getElem_cons hj, List.take_append_drop]
  have hFile : datas.flatMap frame = (datas.take j).flatMap frame ++
      (frame data ++ (datas.drop (j + 1)).flatMap frame) := by
    rw [← List.flatMap_cons, ← List.flatMap_append, ← hSplit]
  have hIn : i + patch.length ≤ (frame data).length := by
    simp only [frame, List.length_append, BigEndian.length_encode]
    obtain ⟨-, hEnd⟩ | ⟨-, hEnd⟩ := hWithin <;> omega
  rw [hFile, frameEnd, overwrite_append_right, overwrite_append_left _ hIn] at hChanged ⊢
  rw [ne_eq, List.append_cancel_left_eq, List.append_cancel_right_eq] at hChanged
  exact ⟨_, rfl, readFrame_damaged (hLen data (List.mem_of_getElem? hData)) _ hFour hWithin
    hChanged⟩

section Iterate

variable {σ ε : Type} {handler : σ → Bytes → Except ε σ} {s s' : σ}

/-- A damaged log is never read to its end. -/
theorem iterate_damaged_ne_none {datas : List Bytes} (hLen : ∀ d ∈ datas, d.length < 2 ^ 32)
    {j i : Nat} {data patch : Bytes} (hHits : Hits datas j i patch.length data)
    (hFour : patch.length ≤ 4)
    (hChanged : overwrite (datas.flatMap frame) (frameEnd datas j + i) patch ≠
      datas.flatMap frame) :
    (iterate handler s (overwrite (datas.flatMap frame) (frameEnd datas j + i) patch)).2 ≠
      none := by
  obtain ⟨tail, hFile, hTail⟩ := exists_damaged_tail hLen hHits hFour hChanged
  have hLen' : ∀ d ∈ datas.take j, d.length < 2 ^ 32 := fun d hd => hLen d (List.mem_of_mem_take hd)
  rw [hFile]
  cases hBefore : (datas.take j).foldlM handler s with
  | error e =>
    rw [iterate_frames_error hLen' tail hBefore]
    exact Option.some_ne_none _
  | ok s' =>
    rw [iterate_frames hLen' tail hBefore, iterate_error hTail]
    exact Option.some_ne_none _

/-- A log in which at most four consecutive bytes of the data or of the checksum of one frame
have been changed is read up to that frame and refused there. -/
theorem iterate_damaged (f : σ → Bytes → σ) (s : σ) {datas : List Bytes}
    (hLen : ∀ d ∈ datas, d.length < 2 ^ 32) {j i : Nat} {data patch : Bytes}
    (hHits : Hits datas j i patch.length data) (hFour : patch.length ≤ 4)
    (hChanged : overwrite (datas.foldl append []) (frameEnd datas j + i) patch ≠
      datas.foldl append []) :
    iterate (fun s d => (.ok (f s d) : Except ε σ)) s
        (overwrite (datas.foldl append []) (frameEnd datas j + i) patch) =
      ((datas.take j).foldl f s, some (.read .unexpectedEOF)) := by
  rw [foldl_append, List.nil_append] at hChanged ⊢
  obtain ⟨tail, hFile, hTail⟩ := exists_damaged_tail hLen hHits hFour hChanged
  rw [hFile, iterate_frames (fun d hd => hLen d (List.mem_of_mem_take hd)) tail (foldlM_ok f _)]
  exact iterate_error hTail

/-- The second byte of the second of three entries is changed. -/
theorem iterate_damaged_second :
    iterate (fun s d => (.ok (s ++ [d]) : Except Unit (List Bytes))) []
        (overwrite ([[1, 2], [3, 4, 5], [6]].foldl append []) (10 + 5) [9]) =
      ([[1, 2]], some (.read .unexpectedEOF)) := by
  have hHits : Hits [[1, 2], [3, 4, 5], [6]] 1 5 ([9] : Bytes).length [3, 4, 5] :=
    ⟨rfl, .inl (by constructor <;> decide)⟩
  exact iterate_damaged (fun (s : List Bytes) d => s ++ [d]) [] (by decide) hHits (by decide)
    (by decide +kernel)

end Iterate

end ShardDB.Storage.Wal
