import ShardDB.Storage.Wal

/-!
# A log that was cut off

After a crash the log file is a prefix of what was written. Reading more of a file never
changes what has been read (`readFrame_more`), so a frame that is cut off anywhere cannot
be read as any frame: it would still be read so once its last bytes are there. It is not the
end of the file either, since something of it is there. So `Iterate` delivers the whole
frames of the prefix and fails, unless the cut is between two frames.
-/

namespace ShardDB.Storage.Wal

open ShardDB.Lib

/-! ## Reading with more bytes to come -/

section More

variable {n : Nat} {input a data rest : Bytes}

theorem readFull_more (h : readFull n input = .ok (a, rest)) (more : Bytes) :
    readFull n (input ++ more) = .ok (a, rest ++ more) := by
  unfold readFull at h
  split_ifs at h with hLen
  cases h
  have hMore : n ≤ (input ++ more).length := by
    rw [List.length_append]
    omega
  rw [readFull, if_pos hMore, List.take_append_of_le_length hLen, List.drop_append_of_le_length hLen]

theorem readEntry_more (h : readEntry n input = .ok (data, rest)) (more : Bytes) :
    readEntry n (input ++ more) = .ok (data, rest ++ more) := by
  obtain ⟨tail, crcBuf, hData, hCrc, hSum⟩ := exists_of_readEntry h
  exact readEntry_eq (readFull_more hData more) (readFull_more hCrc more) hSum

theorem readFrame_more (h : readFrame input = .ok (some (data, rest))) (more : Bytes) :
    readFrame (input ++ more) = .ok (some (data, rest ++ more)) := by
  obtain ⟨lenBuf, tail, hHead, hEntry⟩ := exists_of_readFrame h
  rw [readFrame_eq (readFull_more hHead more), readEntry_more hEntry more]
  rfl

/-- Only the end of the file is taken for the end of the log. -/
theorem eq_nil_of_readFrame (h : readFrame input = .ok none) : input = [] := by
  unfold readFrame at h
  split at h
  · next hHead =>
    by_contra hNil
    unfold readFull at hHead
    rw [if_neg hNil] at hHead
    split_ifs at hHead
    cases hHead
  · cases h
  · next lenBuf tail _ =>
    cases hEntry : readEntry (BigEndian.decode lenBuf) tail <;> simp [hEntry, Except.map] at h

end More

/-! ## A frame that was cut off -/

theorem frame_ne_nil (data : Bytes) : frame data ≠ [] := by
  intro h
  have hLen := congrArg List.length h
  rw [frame, List.length_append, List.length_append, BigEndian.length_encode] at hLen
  rw [List.length_nil] at hLen
  omega

/-- A part of a frame, not empty and not all of it, cannot be read. -/
theorem readFrame_cut {data torn more : Bytes} (hLen : data.length < 2 ^ 32)
    (hFrame : frame data = torn ++ more) (hTorn : torn ≠ []) (hMore : more ≠ []) :
    ∃ e, readFrame torn = .error e := by
  cases hRead : readFrame torn with
  | error e => exact ⟨e, rfl⟩
  | ok r =>
    exfalso
    cases r with
    | none => exact hTorn (eq_nil_of_readFrame hRead)
    | some p =>
      -- the missing bytes would be left over, but nothing is left of a whole frame
      have hWhole := readFrame_more hRead more
      have hFrameRead := readFrame_frame hLen []
      rw [List.append_nil, hFrame, hWhole] at hFrameRead
      simp only [Except.ok.injEq, Option.some.injEq, Prod.mk.injEq] at hFrameRead
      exact hMore (List.append_eq_nil_iff.mp hFrameRead.2).2

/-! ## A length that does not fit -/

theorem readEntry_zero {input : Bytes} (hLen : 4 ≤ input.length)
    (hSum : BigEndian.decode (input.take 4) ≠ 0) : readEntry 0 input = .error .unexpectedEOF := by
  have hData : readFull 0 input = .ok ([], input) := by simp [readFull]
  have hCrc : readFull 4 input = .ok (input.take 4, input.drop 4) := by rw [readFull, if_pos hLen]
  have hNe : ¬ (checksumIEEE []).toNat = BigEndian.decode (input.take 4) := fun h => hSum h.symm
  simp only [readEntry, hData, hCrc, if_neg hNe]

/-- A length that is a multiple of `2 ^ 32` is written as zero, and the start of the data is
taken for the checksum of no data. -/
theorem readFrame_overflow {b : UInt8} {data : Bytes} (hLen : (b :: data).length % 256 ^ 4 = 0)
    (hFirst : b ≠ 0) (rest : Bytes) :
    readFrame (frame (b :: data) ++ rest) = .error .unexpectedEOF := by
  rw [frame, List.append_assoc, List.append_assoc, readFrame_eq (readFull_encode _ _),
    BigEndian.decode_encode_mod, hLen, readEntry_zero]
  · rfl
  · rw [List.length_append, List.length_append, BigEndian.length_encode]
    omega
  · rw [List.cons_append, List.take_succ_cons]
    exact (BigEndian.decode_cons_pos hFirst _).ne'

/-! ## A prefix of a log -/

/-- The position in the file where the first `j` frames end. -/
def frameEnd (datas : List Bytes) (j : Nat) : Nat := ((datas.take j).flatMap frame).length

theorem frameEnd_zero (datas : List Bytes) : frameEnd datas 0 = 0 := rfl

theorem frameEnd_cons_succ (d : Bytes) (datas : List Bytes) (j : Nat) :
    frameEnd (d :: datas) (j + 1) = (frame d).length + frameEnd datas j := by
  simp [frameEnd]

/-- The first `p` bytes of the log are `k` whole frames and a tail. The tail is empty if the
log was cut between two frames, and cannot be read otherwise. -/
structure Cut (datas : List Bytes) (p k : Nat) (tail : Bytes) : Prop where
  le_length : k ≤ datas.length
  split : (datas.flatMap frame).take p = (datas.take k).flatMap frame ++ tail
  whole : ∀ i < datas.length, frameEnd datas (i + 1) ≤ p ↔ i < k
  clean : (∃ j ≤ datas.length, p = frameEnd datas j) → tail = []
  torn : (¬ ∃ j ≤ datas.length, p = frameEnd datas j) → ∃ e, readFrame tail = .error e

theorem cut_cons {d : Bytes} {datas : List Bytes} {p k : Nat} {tail : Bytes}
    (hCut : Cut datas p k tail) : Cut (d :: datas) ((frame d).length + p) (k + 1) tail := by
  have hBoundary : (∃ j ≤ (d :: datas).length, (frame d).length + p = frameEnd (d :: datas) j) ↔
      ∃ j ≤ datas.length, p = frameEnd datas j := by
    constructor
    · rintro ⟨j, hj, hp⟩
      cases j with
      | zero =>
        have := List.length_pos_iff.mpr (frame_ne_nil d)
        rw [frameEnd_zero] at hp
        omega
      | succ j =>
        rw [frameEnd_cons_succ] at hp
        rw [List.length_cons] at hj
        exact ⟨j, by omega, by omega⟩
    · rintro ⟨j, hj, hp⟩
      refine ⟨j + 1, ?_, ?_⟩
      · rw [List.length_cons]
        omega
      · rw [frameEnd_cons_succ]
        omega
  refine ⟨Nat.succ_le_succ hCut.le_length, ?_, ?_, fun h => hCut.clean (hBoundary.mp h),
    fun h => hCut.torn (mt hBoundary.mpr h)⟩
  · rw [List.flatMap_cons, List.take_length_add_append, hCut.split, List.take_succ_cons,
      List.flatMap_cons, List.append_assoc]
  · intro i hi
    cases i with
    | zero =>
      rw [frameEnd_cons_succ, frameEnd_zero]
      omega
    | succ i =>
      rw [List.length_cons] at hi
      have := hCut.whole i (by omega)
      rw [frameEnd_cons_succ]
      omega

/-- A log that ends in its first frame. -/
theorem cut_first {d : Bytes} {datas : List Bytes} {p : Nat} (hLen : d.length < 2 ^ 32)
    (hp : p < (frame d).length) : Cut (d :: datas) p 0 ((frame d).take p) := by
  have hEnd : ∀ j, frameEnd (d :: datas) (j + 1) > p := by
    intro j
    rw [frameEnd_cons_succ]
    omega
  refine ⟨Nat.zero_le _, ?_, ?_, ?_, ?_⟩
  · rw [List.flatMap_cons, List.take_append_of_le_length hp.le]
    rfl
  · intro i _
    have := hEnd i
    omega
  · rintro ⟨j, -, hj⟩
    cases j with
    | zero => rw [hj, frameEnd_zero, List.take_zero]
    | succ j =>
      have := hEnd j
      omega
  · intro hNot
    apply readFrame_cut hLen (List.take_append_drop p _).symm
    · intro hNil
      refine hNot ⟨0, Nat.zero_le _, ?_⟩
      rcases List.take_eq_nil_iff.mp hNil with h | h
      · rw [h, frameEnd_zero]
      · exact (frame_ne_nil d h).elim
    · intro hNil
      have := List.drop_eq_nil_iff.mp hNil
      omega

/-- Every prefix of a log is cut somewhere. -/
theorem exists_cut {datas : List Bytes} (hLen : ∀ d ∈ datas, d.length < 2 ^ 32) {p : Nat}
    (hp : p ≤ (datas.flatMap frame).length) : ∃ k tail, Cut datas p k tail := by
  induction datas generalizing p with
  | nil =>
    obtain rfl : p = 0 := by simpa using hp
    refine ⟨0, [], le_rfl, rfl, ?_, fun _ => rfl, fun h => (h ⟨0, le_rfl, rfl⟩).elim⟩
    intro i hi
    cases hi
  | cons d datas ih =>
    by_cases hWhole : (frame d).length ≤ p
    · rw [List.flatMap_cons, List.length_append] at hp
      obtain ⟨q, rfl⟩ := Nat.exists_eq_add_of_le hWhole
      have hRest : ∀ d' ∈ datas, d'.length < 2 ^ 32 :=
        fun d' hd => hLen d' (List.mem_cons_of_mem _ hd)
      obtain ⟨k, tail, hCut⟩ := ih hRest (show q ≤ (datas.flatMap frame).length by omega)
      exact ⟨k + 1, tail, cut_cons hCut⟩
    · exact ⟨0, _, cut_first (hLen d List.mem_cons_self) (by omega)⟩

/-! ## Recovery -/

theorem foldl_append (datas : List Bytes) (file : Bytes) :
    datas.foldl append file = file ++ datas.flatMap frame := by
  induction datas generalizing file with
  | nil => simp
  | cons d datas ih => rw [List.foldl_cons, ih, append, List.append_assoc, List.flatMap_cons]

section Iterate

variable {σ ε : Type} {s : σ}

theorem foldlM_ok (f : σ → Bytes → σ) (datas : List Bytes) :
    datas.foldlM (fun s d => (.ok (f s d) : Except ε σ)) s = .ok (datas.foldl f s) := by
  induction datas generalizing s with
  | nil => rfl
  | cons d datas ih => exact ih

/-- What a handler that never fails is called for: the frames that are wholly in the file. -/
theorem Cut.iterate_eq (f : σ → Bytes → σ) (s : σ) {datas : List Bytes}
    (hLen : ∀ d ∈ datas, d.length < 2 ^ 32) {p k : Nat} {tail : Bytes}
    (hCut : Cut datas p k tail) :
    iterate (fun s d => (.ok (f s d) : Except ε σ)) s ((datas.flatMap frame).take p) =
      iterate (fun s d => .ok (f s d)) ((datas.take k).foldl f s) tail := by
  rw [hCut.split]
  exact iterate_frames (fun d hd => hLen d (List.mem_of_mem_take hd)) tail (foldlM_ok f _)

/-- Whatever is left of a log after a crash, a handler that never fails is called for the
frames that are wholly there, and `Iterate` fails unless the log was cut between frames. -/
theorem iterate_truncated (f : σ → Bytes → σ) (s : σ) (datas : List Bytes)
    (hLen : ∀ d ∈ datas, d.length < 2 ^ 32) :
    (∀ p ≤ (datas.foldl append []).length,
      ∃ k ≤ datas.length, (∀ i < datas.length, frameEnd datas (i + 1) ≤ p ↔ i < k) ∧
        ∃ err : Option (IterateError ε),
          iterate (fun s d => .ok (f s d)) s ((datas.foldl append []).take p) =
            ((datas.take k).foldl f s, err) ∧
          (err = none ↔ ∃ j ≤ datas.length, p = frameEnd datas j)) ∧
    iterate (fun s d => (.ok (f s d) : Except ε σ)) s (datas.foldl append []) =
      (datas.foldl f s, none) := by
  rw [foldl_append, List.nil_append]
  constructor
  · intro p hp
    obtain ⟨k, tail, hCut⟩ := exists_cut hLen hp
    refine ⟨k, hCut.le_length, hCut.whole, ?_⟩
    rw [hCut.iterate_eq f s hLen]
    by_cases hBoundary : ∃ j ≤ datas.length, p = frameEnd datas j
    · rw [hCut.clean hBoundary, iterate_nil]
      exact ⟨none, rfl, iff_of_true rfl hBoundary⟩
    · obtain ⟨e, hTail⟩ := hCut.torn hBoundary
      rw [iterate_error hTail]
      exact ⟨some (.read e), rfl, iff_of_false (Option.some_ne_none _) hBoundary⟩
  · have hAll := @iterate_frames _ ε _ s _ datas hLen [] (foldlM_ok f datas)
    rwa [List.append_nil, iterate_nil] at hAll

/-- An empty entry and one of two bytes, cut after the length of the second. -/
theorem iterate_truncated_after_length : ∃ e : IterateError Unit,
    iterate (fun s d => .ok (s ++ [d])) [] (([[], [7, 7]].foldl append []).take 12) =
      ([[]], some e) := by
  have hLen : ∀ d ∈ ([[], [7, 7]] : List Bytes), d.length < 2 ^ 32 := by decide
  obtain ⟨k, hk, hWhole, err, hIter, hErr⟩ :=
    (iterate_truncated (fun (s : List Bytes) d => s ++ [d]) [] _ hLen).1 12 (by decide)
  have hFirst : 0 < k := (hWhole 0 (by decide)).mp (by decide)
  have hSecond : ¬ 1 < k := mt (hWhole 1 (by decide)).mpr (by decide)
  obtain rfl : k = 1 := by omega
  cases err with
  | none => exact absurd (hErr.mp rfl) (by decide)
  | some e => exact ⟨e, hIter⟩

end Iterate

end ShardDB.Storage.Wal
