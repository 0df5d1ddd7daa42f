import ShardDB.Storage.Scan

/-!
# The second reader of versions

`MVCCGet` of `internal/storage/mvcc.go` reads a key at a timestamp through `Scan`, while `GetTxn`
seeks in the tree itself. `MVCCGet` hands the seek key to `Scan` as a start, and `Scan` encodes
its start once more, so the position from which it looks is the seek key followed by eight zero
bytes. The version at exactly the read timestamp is stored under the seek key and is passed over.
`mvccGetAgrees_iff` says when the two readers return the same value all the same.
-/

namespace ShardDB.Storage

open ShardDB.Lib

namespace MemoryStore

/-- `MVCCGet`. The end key that it builds and the timestamp that it decodes are not used, and the
error of `Scan` is always nil. -/
def mvccGet (s : MemoryStore) (key : Bytes) (readTs : UInt64) : Slice :=
  let start := encodeKey key readTs
  let (val, found) := s.scan (some start) none
    (fun acc k v => if (decodeKey k).1 ≠ key then (acc, false) else ((v, true), false))
    (none, false)
  if found then val else none

/-- The position from which `MVCCGet` looks. -/
def rescanKey (key : Bytes) (readTs : UInt64) : Bytes := encodeKey (encodeKey key readTs) maxUint64

/-! ## Values at a position -/

/-- The value of the first item at or after a position if that is a version of the key, and
nil otherwise. -/
def ValueFrom (s : MemoryStore) (pos key : Bytes) (v : Slice) : Prop :=
  (∃ ts, s.FirstFrom pos key ts v) ∨ v = none ∧ ∀ ts w, ¬ s.FirstFrom pos key ts w

section Values

variable {s : MemoryStore} {pos key : Bytes} {readTs : UInt64} {v : Slice}

theorem lookupAt_eq_firstFrom_iff (hPos : encodeKey key readTs ≤ pos) :
    s.lookupAt pos key = (v, true) ↔ ∃ ts, s.FirstFrom pos key ts v := by
  rw [lookupAt_eq_iff hPos]
  constructor
  · rintro ⟨ts, -, hFirst⟩
    exact ⟨ts, hFirst⟩
  · rintro ⟨ts, hFirst⟩
    exact ⟨ts, (encodeKey_le_encodeKey_iff ..).mp (hPos.trans hFirst.2.1), hFirst⟩

theorem lookupAt_fst_eq_iff (hPos : encodeKey key readTs ≤ pos) :
    (s.lookupAt pos key).1 = v ↔ s.ValueFrom pos key v := by
  by_cases hFound : ∃ w, s.lookupAt pos key = (w, true)
  · obtain ⟨w, hFound⟩ := hFound
    obtain ⟨ts, hFirst⟩ := (lookupAt_eq_firstFrom_iff hPos).mp hFound
    constructor
    · intro h
      rw [hFound] at h
      exact Or.inl ⟨ts, h ▸ hFirst⟩
    · rintro (hFirst' | ⟨-, hNone⟩)
      · rw [(lookupAt_eq_firstFrom_iff hPos).mpr hFirst']
      · exact absurd hFirst (hNone ts w)
  · have hNone : ∀ w, s.lookupAt pos key ≠ (w, true) := fun w hw => hFound ⟨w, hw⟩
    constructor
    · intro h
      rw [lookupAt_of_not_found hNone] at h
      exact Or.inr ⟨h.symm, fun ts w hFirst =>
        hNone w ((lookupAt_eq_firstFrom_iff hPos).mpr ⟨ts, hFirst⟩)⟩
    · rintro (hFirst | ⟨rfl, -⟩)
      · exact absurd ((lookupAt_eq_firstFrom_iff hPos).mpr hFirst) (hNone v)
      · rw [lookupAt_of_not_found hNone]

end Values

theorem seek_lt_rescanKey (key : Bytes) (readTs : UInt64) :
    encodeKey key readTs < rescanKey key readTs := lt_encodeKey _ _

theorem mvccGet_eq (s : MemoryStore) (key : Bytes) (readTs : UInt64) :
    s.mvccGet key readTs = (s.lookupAt (rescanKey key readTs) key).1 := by
  have hScan : s.mvccGet key readTs = if (s.lookupAt (rescanKey key readTs) key).2 then
      (s.lookupAt (rescanKey key readTs) key).1 else none :=
    congrArg (fun r : Slice × Bool => if r.2 then r.1 else none)
      (iterate_lookup s (rescanKey key readTs) key)
  rw [hScan]
  split_ifs with hFound
  · rfl
  · rw [lookupAt_of_not_found]
    intro v hv
    rw [hv] at hFound
    exact hFound rfl

/-! ## What is passed over -/

/-- An older version of the key is not passed over: its version key is as long as the seek key
and greater. -/
theorem rescanKey_le {key : Bytes} {ts readTs : UInt64} (h : ts < readTs) :
    rescanKey key readTs ≤ encodeKey key ts := by
  have hLt : encodeKey key readTs < encodeKey key ts := (encodeKey_lt_encodeKey_iff ..).mpr h
  rcases prefix_or_append_lt_of_le hLt.le with hPrefix | hAppend
  · have hEq := hPrefix.eq_of_length (by simp)
    exact absurd hEq hLt.ne
  · have hLess := hAppend (BigEndian.encode 8 (maxUint64 - maxUint64).toNat) []
    rw [List.append_nil] at hLess
    exact hLess.le

/-- A version of another key between the two positions; its version key is the seek key with at
most seven zero bytes more. -/
def PassedOver (s : MemoryStore) (key : Bytes) (readTs : UInt64) : Prop :=
  ∃ key' t w, key' ≠ key ∧ s.HasVersion key' t w ∧ encodeKey key readTs ≤ encodeKey key' t ∧
    encodeKey key' t < rescanKey key readTs

section Readers

variable {s : MemoryStore} {key : Bytes} {readTs : UInt64}

theorem valueFrom_seek_of_version {v : Slice} (h : s.HasVersion key readTs v) :
    s.ValueFrom (encodeKey key readTs) key v :=
  Or.inl ⟨readTs, h, le_rfl, fun _ _ _ hSeek => hSeek⟩

/-- With no version at the read timestamp, what is passed over stops `GetTxn`. -/
theorem valueFrom_seek_of_passedOver (hNone : ∀ v, ¬ s.HasVersion key readTs v)
    (h : s.PassedOver key readTs) : s.ValueFrom (encodeKey key readTs) key none := by
  obtain ⟨key', t, w, -, hVersion', hSeek', hBefore⟩ := h
  refine Or.inr ⟨rfl, ?_⟩
  rintro ts v ⟨hVersion, hSeek, hLeast⟩
  have hTs : ts ≤ readTs := (encodeKey_le_encodeKey_iff ..).mp hSeek
  rcases hTs.lt_or_eq with hOlder | rfl
  · exact not_lt.mpr ((rescanKey_le hOlder).trans (hLeast _ w hVersion' hSeek')) hBefore
  · exact hNone v hVersion

/-- With nothing stored between the positions, both readers look at the same item. -/
theorem firstFrom_seek_iff (hEncoded : Encoded s.tree) (hNone : ∀ v, ¬ s.HasVersion key readTs v)
    (hClear : ¬ s.PassedOver key readTs) {ts : UInt64} {v : Slice} :
    s.FirstFrom (encodeKey key readTs) key ts v ↔ s.FirstFrom (rescanKey key readTs) key ts v := by
  have hEmpty : ∀ j w, s.tree.find? j = some w → encodeKey key readTs ≤ j →
      rescanKey key readTs ≤ j := by
    intro j w hFind hSeek
    by_contra hBefore
    obtain ⟨key', t, rfl⟩ := hEncoded j w hFind
    by_cases hKey : key' = key
    · subst hKey
      rcases ((encodeKey_le_encodeKey_iff ..).mp hSeek).lt_or_eq with hOlder | rfl
      · exact hBefore (rescanKey_le hOlder)
      · exact hNone w hFind
    · exact hClear ⟨key', t, w, hKey, hFind, hSeek, not_le.mp hBefore⟩
  have hLe := (seek_lt_rescanKey key readTs).le
  constructor
  · rintro ⟨hVersion, hSeek, hLeast⟩
    exact ⟨hVersion, hEmpty _ v hVersion hSeek, fun j w hFind hPos =>
      hLeast j w hFind (hLe.trans hPos)⟩
  · rintro ⟨hVersion, hSeek, hLeast⟩
    exact ⟨hVersion, hLe.trans hSeek, fun j w hFind hPos =>
      hLeast j w hFind (hEmpty j w hFind hPos)⟩

/-- The readers return the same value exactly if the value of a version at the read timestamp is
the one that comes after it, and if nothing of the key comes after a version of another key that
is passed over. -/
theorem mvccGetAgrees_iff (hEncoded : Encoded s.tree) (hUnlocked : s.locks.find? key = none) :
    s.getTxn key readTs = .ok (s.mvccGet key readTs) ↔
      (∀ v, s.HasVersion key readTs v → s.ValueFrom (rescanKey key readTs) key v) ∧
      ((∀ v, ¬ s.HasVersion key readTs v) → s.PassedOver key readTs →
        s.ValueFrom (rescanKey key readTs) key none) := by
  have hRescan : ∀ v, s.mvccGet key readTs = v ↔ s.ValueFrom (rescanKey key readTs) key v := by
    intro v
    rw [mvccGet_eq]
    exact lookupAt_fst_eq_iff (seek_lt_rescanKey key readTs).le
  have hAgree : s.getTxn key readTs = .ok (s.mvccGet key readTs) ↔
      s.ValueFrom (encodeKey key readTs) key (s.mvccGet key readTs) := by
    rw [getTxn_eq hUnlocked, ← lookupAt_fst_eq_iff le_rfl]
    exact ⟨fun h => Except.ok.inj h, fun h => congrArg Except.ok h⟩
  have hSeekUnique : ∀ v w, s.ValueFrom (encodeKey key readTs) key v →
      s.ValueFrom (encodeKey key readTs) key w → v = w := fun v w hv hw =>
    ((lookupAt_fst_eq_iff le_rfl).mpr hv).symm.trans ((lookupAt_fst_eq_iff le_rfl).mpr hw)
  rw [hAgree]
  constructor
  · intro hSame
    refine ⟨fun v hVersion => ?_, fun hNone hPassed => ?_⟩
    · exact (hRescan v).mp (hSeekUnique _ _ hSame (valueFrom_seek_of_version hVersion))
    · exact (hRescan none).mp (hSeekUnique _ _ hSame (valueFrom_seek_of_passedOver hNone hPassed))
  · rintro ⟨hAt, hPast⟩
    by_cases hVersion : ∃ v, s.HasVersion key readTs v
    · obtain ⟨v, hVersion⟩ := hVersion
      rw [(hRescan v).mpr (hAt v hVersion)]
      exact valueFrom_seek_of_version hVersion
    · have hNone : ∀ v, ¬ s.HasVersion key readTs v := fun v hv => hVersion ⟨v, hv⟩
      by_cases hPassed : s.PassedOver key readTs
      · rw [(hRescan none).mpr (hPast hNone hPassed)]
        exact valueFrom_seek_of_passedOver hNone hPassed
      · unfold ValueFrom
        simp only [firstFrom_seek_iff hEncoded hNone hPassed]
        exact (hRescan _).mp rfl

end Readers

/-- The key `a` is read between its two versions, with a version of `a0` before the position. -/
theorem mvccGetAgrees_nestedKeys :
    nestedKeys.getTxn (ascii "a") 5 = .ok (nestedKeys.mvccGet (ascii "a") 5) := by
  refine (mvccGetAgrees_iff (Reachable.encoded ⟨_, rfl⟩) (by decide)).mpr ⟨?_, ?_⟩
  · intro v hVersion
    have hNot : ascii "a" = ascii "a" → (5 : UInt64) ≠ 5 :=
      hVersion.of_entries (P := fun key ts _ => key = ascii "a" → ts ≠ 5) (by decide)
    exact absurd rfl (hNot rfl)
  · rintro - ⟨key', t, w, hNe, hVersion, hSeek, hBefore⟩
    refine absurd hBefore (hVersion.of_entries (P := fun key' t _ => key' ≠ ascii "a" →
      encodeKey (ascii "a") 5 ≤ encodeKey key' t →
        ¬ encodeKey key' t < rescanKey (ascii "a") 5) (by decide) hNe hSeek)

/-- A key is read at the timestamp of its only version. -/
theorem not_mvccGetAgrees :
    ¬ ∀ s : MemoryStore, Encoded s.tree → (∀ k, s.locks.find? k = none) → ∀ key readTs,
      s.getTxn key readTs = .ok (s.mvccGet key readTs) := by
  intro hAll
  have hAgree := hAll (newMemoryStore.run [.onePhaseCommit
    [⟨ascii "accountA", some (ascii "v10")⟩] (ascii "x") 10]) (Reachable.encoded ⟨_, rfl⟩)
    (fun k => rfl) (ascii "accountA") 10
  revert hAgree
  decide

end MemoryStore

end ShardDB.Storage
