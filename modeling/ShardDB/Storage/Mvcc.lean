import ShardDB.Lib.BigEndian

/-!
# Version keys

`EncodeKey` and `DecodeKey` of `internal/storage/mvcc.go`. A version of a user key is
stored under the user key followed by the eight big-endian bytes of `MaxUint64 - ts`, with
no separator. Within one user key the encoded order is therefore the descending order of
timestamps; across user keys of different lengths it is not the order of the user keys.
-/

namespace ShardDB.Storage

open ShardDB.Lib

/-- `math.MaxUint64`. -/
def maxUint64 : UInt64 := 0xFFFFFFFFFFFFFFFF

/-- `EncodeKey`: the key followed by the inverted timestamp. -/
def encodeKey (key : Bytes) (ts : UInt64) : Bytes :=
  key ++ BigEndian.encode 8 (maxUint64 - ts).toNat

/-- `DecodeKey`: split a version key. A string shorter than a timestamp is returned as it
is, with timestamp zero. -/
def decodeKey (joined : Bytes) : Bytes × UInt64 :=
  if joined.length < 8 then (joined, 0)
  else
    let keyLen := joined.length - 8
    (joined.take keyLen, maxUint64 - UInt64.ofNat (BigEndian.decode (joined.drop keyLen)))

/-! ## Inverted timestamps -/

theorem le_maxUint64 (ts : UInt64) : ts ≤ maxUint64 := by
  have h := ts.toNat_lt
  rw [UInt64.le_iff_toNat_le]
  change ts.toNat ≤ 18446744073709551615
  omega

theorem toNat_invert (ts : UInt64) : (maxUint64 - ts).toNat = 18446744073709551615 - ts.toNat :=
  UInt64.toNat_sub_of_le _ _ (le_maxUint64 ts)

theorem invert_lt (ts : UInt64) : (maxUint64 - ts).toNat < 256 ^ 8 := by
  rw [toNat_invert]
  omega

/-- Inverting twice gives the timestamp back. -/
theorem invert_invert (ts : UInt64) : maxUint64 - (maxUint64 - ts) = ts := by
  have h := ts.toNat_lt
  apply UInt64.toNat_inj.mp
  rw [toNat_invert, toNat_invert]
  omega

/-- Of the timestamps with a property one is the greatest. -/
theorem exists_greatest {p : UInt64 → Prop} (h : ∃ ts, p ts) :
    ∃ ts, p ts ∧ ∀ ts', p ts' → ts' ≤ ts := by
  obtain ⟨ts, hTs, hLeast⟩ :=
    (measure fun ts : UInt64 => (maxUint64 - ts).toNat).wf.has_min {ts | p ts} h
  refine ⟨ts, hTs, fun ts' hTs' => ?_⟩
  have hNot : ¬ (maxUint64 - ts').toNat < (maxUint64 - ts).toNat := hLeast ts' hTs'
  rw [toNat_invert, toNat_invert] at hNot
  have h' := ts'.toNat_lt
  rw [UInt64.le_iff_toNat_le]
  omega

/-! ## Inversion of the encoding -/

@[simp]
theorem length_encodeKey (key : Bytes) (ts : UInt64) : (encodeKey key ts).length = key.length + 8 := by
  simp [encodeKey]

@[simp]
theorem decodeKey_encodeKey (key : Bytes) (ts : UInt64) : decodeKey (encodeKey key ts) = (key, ts) := by
  have hShort : ¬ (encodeKey key ts).length < 8 := by simp
  have hLen : (encodeKey key ts).length - 8 = key.length := by simp
  have hInv : UInt64.ofNat (maxUint64 - ts).toNat = maxUint64 - ts := UInt64.ofNat_toNat
  simp only [decodeKey, if_neg hShort, hLen]
  simp only [encodeKey, List.take_left, List.drop_left, BigEndian.decode_encode (invert_lt ts), hInv,
    invert_invert]

theorem encodeKey_inj {k k' : Bytes} {t t' : UInt64} (h : encodeKey k t = encodeKey k' t') :
    k = k' ∧ t = t' := by
  have hPair : (k, t) = (k', t') := by
    rw [← decodeKey_encodeKey k t, h, decodeKey_encodeKey]
  exact Prod.mk.inj hPair

/-- Every byte string long enough to hold a timestamp is a version key. -/
theorem encodeKey_decodeKey {joined : Bytes} (h : 8 ≤ joined.length) :
    encodeKey (decodeKey joined).1 (decodeKey joined).2 = joined := by
  have hShort : ¬ joined.length < 8 := by omega
  have hDrop : (joined.drop (joined.length - 8)).length = 8 := by
    rw [List.length_drop]
    omega
  have hLt : BigEndian.decode (joined.drop (joined.length - 8)) < 2 ^ 64 := by
    have := BigEndian.decode_lt (joined.drop (joined.length - 8))
    rw [hDrop] at this
    exact this
  simp only [decodeKey, if_neg hShort, encodeKey, invert_invert, UInt64.toNat_ofNat_of_lt' hLt]
  have hTs := BigEndian.encode_decode (joined.drop (joined.length - 8))
  rw [hDrop] at hTs
  rw [hTs, List.take_append_drop]

/-! ## Order within one user key -/

/-- A key sorts before its versions. -/
theorem lt_encodeKey (key : Bytes) (ts : UInt64) : key < encodeKey key ts := by
  have hLt := (append_lt_append_left_iff key [] (BigEndian.encode 8 (maxUint64 - ts).toNat)).mpr
    (List.nil_lt_cons _ _)
  rwa [List.append_nil] at hLt

/-- Of two versions of one key the newer sorts first. -/
theorem encodeKey_lt_encodeKey_iff (key : Bytes) (t t' : UInt64) :
    encodeKey key t < encodeKey key t' ↔ t' < t := by
  have h := t.toNat_lt
  have h' := t'.toNat_lt
  rw [encodeKey, encodeKey, append_lt_append_left_iff,
    BigEndian.encode_lt_encode_iff (invert_lt t) (invert_lt t'), toNat_invert, toNat_invert,
    UInt64.lt_iff_toNat_lt]
  omega

theorem encodeKey_le_encodeKey_iff (key : Bytes) (t t' : UInt64) :
    encodeKey key t ≤ encodeKey key t' ↔ t' ≤ t := by
  rw [← not_lt, ← not_lt, encodeKey_lt_encodeKey_iff]

/-! ## Order across user keys -/

theorem replicate_zero_le {n : Nat} {b : Bytes} (h : n ≤ b.length) : List.replicate n 0 ≤ b := by
  induction n generalizing b with
  | zero => exact not_lt.mp (List.not_lt_nil b)
  | succ n ih =>
    cases b with
    | nil => simp at h
    | cons x b =>
      apply not_lt.mp
      rw [List.replicate_succ, List.cons_lt_cons_iff]
      rintro (hx | ⟨-, hRest⟩)
      · exact UInt8.not_lt_zero hx
      · exact not_le.mpr hRest (ih (Nat.le_of_succ_le_succ h))

theorem encodeKey_maxUint64 (key : Bytes) : encodeKey key maxUint64 = key ++ List.replicate 8 0 := by
  rw [encodeKey]
  congr 1

/-- No version of a key at or above `k` comes before the first possible version of `k`. -/
theorem encodeKey_maxUint64_le {k k' : Bytes} (h : k ≤ k') (ts : UInt64) :
    encodeKey k maxUint64 ≤ encodeKey k' ts := by
  rw [encodeKey_maxUint64, encodeKey]
  rcases prefix_or_append_lt_of_le h with ⟨rest, rfl⟩ | hAppend
  · apply not_lt.mp
    rw [List.append_assoc, append_lt_append_left_iff, not_lt]
    apply replicate_zero_le
    rw [List.length_append, BigEndian.length_encode]
    omega
  · exact (hAppend _ _).le

/-- Versions of two keys are out of order only if one key extends the other. -/
theorem prefix_of_encodeKey_le {k k' : Bytes} {t t' : UInt64} (h : k ≤ k')
    (hLe : encodeKey k' t' ≤ encodeKey k t) : k <+: k' := by
  rcases prefix_or_append_lt_of_le h with hPrefix | hAppend
  · exact hPrefix
  · exact absurd (hAppend _ _) (not_lt.mpr hLe)

/-! ## What readers, scans and collections rely on -/

/-- The encoding can be inverted on both sides. Under `bytes.Compare` it orders the versions of
one key by descending timestamp, it orders the versions of two keys as the keys unless one of them
extends the other, and the position of the greatest timestamp is before all versions of its key
and of the keys above. -/
theorem encodeKey_laws (k₁ k₂ : Bytes) (t₁ t₂ : UInt64) :
    decodeKey (encodeKey k₁ t₁) = (k₁, t₁) ∧
    (∀ j : Bytes, 8 ≤ j.length → encodeKey (decodeKey j).1 (decodeKey j).2 = j) ∧
    (compareBytes (encodeKey k₁ t₁) (encodeKey k₁ t₂) = .lt ↔ t₁ > t₂) ∧
    (¬ k₁ <+: k₂ → ¬ k₂ <+: k₁ →
      compareBytes (encodeKey k₁ t₁) (encodeKey k₂ t₂) = compareBytes k₁ k₂) ∧
    (compareBytes k₁ k₂ ≠ .gt →
      compareBytes (encodeKey k₁ maxUint64) (encodeKey k₂ t₂) ≠ .gt) := by
  refine ⟨decodeKey_encodeKey k₁ t₁, fun j => encodeKey_decodeKey, ?_, ?_, ?_⟩
  · rw [compareBytes_eq_lt_iff]
    exact encodeKey_lt_encodeKey_iff k₁ t₁ t₂
  · intro h h'
    exact compareBytes_append h h' _ _
  · rw [ne_eq, ne_eq, compareBytes_eq_gt_iff, compareBytes_eq_gt_iff, not_lt, not_lt]
    intro hLe
    exact encodeKey_maxUint64_le hLe t₂

/-- The key `b` is no prefix of `ab`, and `a` is one. -/
theorem encodeKey_laws_sample :
    compareBytes (encodeKey (ascii "b") 7) (encodeKey (ascii "ab") 3) = .gt ∧
      compareBytes (encodeKey (ascii "a") maxUint64) (encodeKey (ascii "ab") 3) ≠ .gt := by
  obtain ⟨-, -, -, hKeys, -⟩ := encodeKey_laws (ascii "b") (ascii "ab") 7 3
  obtain ⟨-, -, -, -, hSeek⟩ := encodeKey_laws (ascii "a") (ascii "ab") 0 3
  exact ⟨hKeys (by decide) (by decide), hSeek (by decide)⟩

end ShardDB.Storage
