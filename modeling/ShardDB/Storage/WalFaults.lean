import ShardDB.Storage.Wal

/-!
# Appending when writes fail

`Append` writes the length, the data and the checksum with three writes and then syncs the
file. A write may fail after some of its bytes; `Append` then returns the error and leaves in
the file what was written so far. The next `Append` writes right behind it, and the reader,
which knows only lengths, takes the new frame for the rest of the old one.

An acknowledged entry is one whose `Append` returned nil. `acked_sublist_delivered` is the
condition under which no acknowledged entry is lost: up to the last of them, every failed
`Append` leaves nothing or all of its frame.
-/

namespace ShardDB.Storage.Wal

open ShardDB.Lib

/-! ## Writes that fail -/

/-- How a write ends: with success, or with an error after some of its bytes. -/
inductive WriteResult where
  | ok
  | fails (written : Nat)
  deriving DecidableEq

/-- `f.Write`: the file afterwards, and whether the error is nil. -/
def write (file bytes : Bytes) : WriteResult → Bytes × Bool
  | .ok => (file ++ bytes, true)
  | .fails n => (file ++ bytes.take n, false)

/-- The write puts all of its `n` bytes into the file, even if it then fails. -/
def WriteResult.Complete (n : Nat) : WriteResult → Prop
  | ok => True
  | fails written => n ≤ written

instance (n : Nat) : (r : WriteResult) → Decidable (r.Complete n)
  | .ok => .isTrue trivial
  | .fails written => inferInstanceAs (Decidable (n ≤ written))

/-- A call of `Append` with what the operating system answers to it. -/
structure AppendCall where
  data : Bytes
  lenWrite : WriteResult
  dataWrite : WriteResult
  crcWrite : WriteResult
  sync : Bool
  deriving DecidableEq

namespace AppendCall

/-- `Append`: the file afterwards, and whether it returns nil. -/
def append (file : Bytes) (c : AppendCall) : Bytes × Bool :=
  match write file (BigEndian.encode 4 c.data.length) c.lenWrite with
  | (file, false) => (file, false)
  | (file, true) =>
    match write file c.data c.dataWrite with
    | (file, false) => (file, false)
    | (file, true) =>
      match write file (BigEndian.encode 4 (checksumIEEE c.data).toNat) c.crcWrite with
      | (file, false) => (file, false)
      | (file, true) => (file, c.sync)

/-- The call returns nil. -/
def Succeeds (c : AppendCall) : Prop :=
  c.lenWrite = .ok ∧ c.dataWrite = .ok ∧ c.crcWrite = .ok ∧ c.sync = true

instance (c : AppendCall) : Decidable c.Succeeds :=
  inferInstanceAs (Decidable (_ ∧ _ ∧ _ ∧ _))

/-- The call leaves the file at a frame boundary: it fails before its first byte, or it writes
a whole frame, whose length fits the length field. -/
def Clean (c : AppendCall) : Prop :=
  c.lenWrite = .fails 0 ∨
    c.lenWrite = .ok ∧ c.dataWrite = .ok ∧ c.crcWrite.Complete 4 ∧ c.data.length < 2 ^ 32

instance (c : AppendCall) : Decidable c.Clean :=
  inferInstanceAs (Decidable (_ ∨ _ ∧ _ ∧ _ ∧ _))

/-- What a call adds to the file does not depend on the file. -/
theorem append_eq (file : Bytes) (c : AppendCall) :
    c.append file = (file ++ (c.append []).1, (c.append []).2) := by
  obtain ⟨data, lenWrite, dataWrite, crcWrite, sync⟩ := c
  cases lenWrite with
  | fails n => simp [append, write]
  | ok =>
    cases dataWrite with
    | fails n => simp [append, write]
    | ok => cases crcWrite <;> simp [append, write]

theorem append_snd_iff {file : Bytes} {c : AppendCall} : (c.append file).2 = true ↔ c.Succeeds := by
  obtain ⟨data, lenWrite, dataWrite, crcWrite, sync⟩ := c
  cases lenWrite with
  | fails n => simp [append, write, Succeeds]
  | ok =>
    cases dataWrite with
    | fails n => simp [append, write, Succeeds]
    | ok => cases crcWrite <;> simp [append, write, Succeeds]

theorem Succeeds.append_eq {c : AppendCall} (h : c.Succeeds) (file : Bytes) :
    c.append file = (Wal.append file c.data, true) := by
  obtain ⟨hLen, hData, hCrc, hSync⟩ := h
  simp [append, write, hLen, hData, hCrc, hSync, Wal.append, frame]

/-- A clean call adds nothing, and fails, or it adds its frame. -/
theorem Clean.append_eq {c : AppendCall} (h : c.Clean) :
    c.append [] = ([], false) ∨ (c.append []).1 = frame c.data ∧ c.data.length < 2 ^ 32 := by
  rcases h with hLen | ⟨hLen, hData, hCrc, hSize⟩
  · left
    simp [append, write, hLen]
  · right
    refine ⟨?_, hSize⟩
    cases hWrite : c.crcWrite with
    | ok => simp [append, write, hLen, hData, hWrite, frame]
    | fails n =>
      rw [hWrite] at hCrc
      have hAll : (BigEndian.encode 4 (checksumIEEE c.data).toNat).take n =
          BigEndian.encode 4 (checksumIEEE c.data).toNat := by
        apply List.take_of_length_le
        rw [BigEndian.length_encode]
        exact hCrc
      simp [append, write, hLen, hData, hWrite, frame, hAll]

end AppendCall

/-! ## Sequences of calls -/

/-- The file, and the entries whose `Append` returned nil, after a sequence of calls. -/
def appends (calls : List AppendCall) : Bytes × List Bytes :=
  calls.foldl (fun log c =>
    match c.append log.1 with
    | (file, true) => (file, log.2 ++ [c.data])
    | (file, false) => (file, log.2)) ([], [])

/-- The entries for which `Iterate` calls a handler that never fails. -/
def delivered (file : Bytes) : List Bytes :=
  (iterate (fun calls data => (.ok (calls ++ [data]) : Except Empty _)) [] file).1

/-- No call succeeds after one that was not clean. -/
def KeepsFrames : List AppendCall → Prop
  | [] => True
  | c :: calls => c.Clean ∧ KeepsFrames calls ∨ ∀ b ∈ c :: calls, ¬ b.Succeeds

instance instDecidableKeepsFrames : (calls : List AppendCall) → Decidable (KeepsFrames calls)
  | [] => .isTrue trivial
  | c :: calls =>
    have := instDecidableKeepsFrames calls
    inferInstanceAs (Decidable (c.Clean ∧ KeepsFrames calls ∨ ∀ b ∈ c :: calls, ¬ b.Succeeds))

/-- The acknowledged entries of a sequence of calls. -/
def acked (calls : List AppendCall) : List Bytes :=
  (calls.filter fun c => decide c.Succeeds).map AppendCall.data

theorem appends_eq (calls : List AppendCall) :
    appends calls = (calls.flatMap fun c => (c.append []).1, acked calls) := by
  suffices h : ∀ (file : Bytes) (entries : List Bytes),
      calls.foldl (fun log c =>
        match c.append log.1 with
        | (file, true) => (file, log.2 ++ [c.data])
        | (file, false) => (file, log.2)) (file, entries) =
      (file ++ calls.flatMap fun c => (c.append []).1, entries ++ acked calls) by
    exact h [] []
  induction calls with
  | nil => simp [acked]
  | cons c calls ih =>
    intro file entries
    rw [List.foldl_cons, AppendCall.append_eq]
    by_cases hSucc : c.Succeeds
    · rw [AppendCall.append_snd_iff.mpr hSucc, ih]
      simp [acked, hSucc]
    · rw [Bool.eq_false_iff.mpr (mt AppendCall.append_snd_iff.mp hSucc), ih]
      simp [acked, hSucc]

/-- What has been delivered stays delivered. -/
theorem iterate_collect (entries : List Bytes) (file : Bytes) :
    (iterate (fun calls data => (.ok (calls ++ [data]) : Except Empty _)) entries file).1 =
      entries ++ delivered file := by
  -- on the length of what is still to be read, for both starts of the loop at once
  suffices h : ∀ (n : Nat) (file : Bytes), file.length ≤ n → ∃ rest, ∀ entries : List Bytes,
      (iterate (fun calls data => (.ok (calls ++ [data]) : Except Empty _)) entries file).1 =
        entries ++ rest by
    obtain ⟨rest, hRest⟩ := h file.length file le_rfl
    rw [delivered, hRest, hRest, List.nil_append]
  intro n
  induction n with
  | zero =>
    intro file hLen
    obtain rfl := List.length_eq_zero_iff.mp (Nat.le_zero.mp hLen)
    exact ⟨[], fun entries => by rw [iterate_nil, List.append_nil]⟩
  | succ n ih =>
    intro file hLen
    cases hRead : readFrame file with
    | error e => exact ⟨[], fun entries => by rw [iterate_error hRead, List.append_nil]⟩
    | ok r =>
      cases r with
      | none => exact ⟨[], fun entries => by rw [iterate_eq, hRead, List.append_nil]⟩
      | some p =>
        have hShorter := readFrame_length hRead
        obtain ⟨rest, hRest⟩ := ih p.2 (by omega)
        refine ⟨p.1 :: rest, fun entries => ?_⟩
        rw [iterate_of_readFrame hRead]
        show (iterate _ (entries ++ [p.1]) p.2).1 = _
        rw [hRest, List.append_assoc, List.singleton_append]

theorem delivered_frame {data : Bytes} (hLen : data.length < 2 ^ 32) (file : Bytes) :
    delivered (frame data ++ file) = data :: delivered file := by
  rw [delivered, iterate_frame hLen]
  exact iterate_collect [data] file

/-- No acknowledged entry is lost as long as no call succeeds after one that was not clean. -/
theorem acked_sublist_delivered {calls : List AppendCall} (h : KeepsFrames calls) :
    (appends calls).2.Sublist (delivered (appends calls).1) := by
  rw [appends_eq]
  induction calls with
  | nil => exact List.nil_sublist _
  | cons c calls ih =>
    rcases h with ⟨hClean, hRest⟩ | hNone
    · rw [List.flatMap_cons]
      rcases hClean.append_eq with hNothing | ⟨hFrame, hLen⟩
      · -- the call failed before it wrote anything
        have hFails : ¬ c.Succeeds := by
          rw [← @AppendCall.append_snd_iff [] c, hNothing]
          decide
        simpa [acked, hFails, hNothing] using ih hRest
      · rw [hFrame, delivered_frame hLen]
        by_cases hSucc : c.Succeeds
        · simpa [acked, hSucc] using ih hRest
        · -- all of the frame is there, but the call returned an error
          have hSkip := (ih hRest).cons c.data
          simpa [acked, hSucc] using hSkip
    · have hEmpty : acked (c :: calls) = [] := by
        simpa [acked] using hNone
      rw [hEmpty]
      exact List.nil_sublist _

/-- An append that fails before its first byte, one that cannot sync, and a good one. -/
theorem acked_sublist_delivered_sync :
    ([[3]] : List Bytes).Sublist (delivered (appends [⟨[1], .fails 0, .ok, .ok, true⟩,
      ⟨[2], .ok, .ok, .ok, false⟩, ⟨[3], .ok, .ok, .ok, true⟩]).1) :=
  @acked_sublist_delivered [⟨[1], .fails 0, .ok, .ok, true⟩, ⟨[2], .ok, .ok, .ok, false⟩,
    ⟨[3], .ok, .ok, .ok, true⟩] (by decide)

/-- The length of the first entry is in the file, its data is not. The second `Append`
succeeds, and nothing can be read. -/
theorem not_acked_sublist_delivered :
    ¬ ∀ calls : List AppendCall, (appends calls).2.Sublist (delivered (appends calls).1) := by
  intro hAll
  have hSub := hAll [⟨[1], .ok, .fails 0, .ok, true⟩, ⟨[2], .ok, .ok, .ok, true⟩]
  have hRead : readFrame (appends [⟨[1], .ok, .fails 0, .ok, true⟩,
      ⟨[2], .ok, .ok, .ok, true⟩]).1 = .error .unexpectedEOF := by decide +kernel
  rw [delivered, iterate_error hRead] at hSub
  exact absurd (List.sublist_nil.mp hSub) (by decide)

end ShardDB.Storage.Wal
