import Mathlib

/-!
# Shift registers

A register with feedback, as cyclic redundancy checks use it: in one step the register moves
down by a bit, and a fixed polynomial is added (exclusive or) when a one falls out. A byte is
read by adding it to the low end and taking eight steps.

A step is linear (`shift_xor`) and, when the top bit of the polynomial is set, injective
(`shift_injective`). Hence two states stay apart while the same bytes are read
(`foldl_feed_left_injective`), and two different windows of bytes that fit the register lead
from one state to different ones (`foldl_feed_injective`).
-/

namespace ShardDB.Lib.ShiftRegister

variable {w : Nat}

/-- One step of the register. -/
def shift (poly c : BitVec w) : BitVec w :=
  if c.getLsbD 0 then (c >>> 1) ^^^ poly else c >>> 1

/-- Reading a byte. -/
def feed (poly c : BitVec w) (b : BitVec 8) : BitVec w := (shift poly)^[8] (c ^^^ b.setWidth w)

/-! ## Steps -/

variable {poly : BitVec w}

theorem shift_xor (a b : BitVec w) : shift poly (a ^^^ b) = shift poly a ^^^ shift poly b := by
  simp only [shift, BitVec.getLsbD_xor, BitVec.ushiftRight_xor_distrib]
  ext i
  cases a.getLsbD 0 <;> cases b.getLsbD 0 <;> simp <;> grind

theorem iterate_shift_xor (n : Nat) (a b : BitVec w) :
    (shift poly)^[n] (a ^^^ b) = (shift poly)^[n] a ^^^ (shift poly)^[n] b := by
  induction n generalizing a b with
  | zero => rfl
  | succ n ih => rw [Function.iterate_succ_apply, Function.iterate_succ_apply,
      Function.iterate_succ_apply, shift_xor, ih]

/-- A register whose low `n` bits are clear only moves down in `n` steps. -/
theorem iterate_shift_of_clear {n : Nat} {c : BitVec w} (h : ∀ i < n, c.getLsbD i = false) :
    (shift poly)^[n] c = c >>> n := by
  induction n with
  | zero => simp
  | succ n ih =>
    have hLow : (c >>> n).getLsbD 0 = false := by
      simpa using h n (by omega)
    rw [Function.iterate_succ_apply', ih fun i hi => h i (by omega)]
    simp [shift, hLow, BitVec.shiftRight_add]

/-- With the top bit of the polynomial set, what fell out can be read off the top bit. -/
theorem shift_injective (hPoly : poly.msb = true) : Function.Injective (shift poly) := by
  intro a b h
  have hTop (c : BitVec w) : (shift poly c).msb = c.getLsbD 0 := by
    unfold shift
    cases hLow : c.getLsbD 0 with
    | false => simp
    | true => simp [hPoly]
  have hLow : a.getLsbD 0 = b.getLsbD 0 := by
    rw [← hTop, ← hTop, h]
  have hRest : a >>> 1 = b >>> 1 := by
    unfold shift at h
    rw [hLow] at h
    cases hb : b.getLsbD 0 with
    | false => simpa [hb] using h
    | true => simpa [hb] using h
  apply BitVec.eq_of_getLsbD_eq
  intro i hi
  cases i with
  | zero => exact hLow
  | succ i =>
    have hBit := congrArg (BitVec.getLsbD · i) hRest
    simpa [BitVec.getLsbD_ushiftRight, Nat.add_comm] using hBit

/-! ## Windows of bytes -/

/-- The bytes as one word, the first one lowest. -/
def word : List (BitVec 8) → BitVec w
  | [] => 0
  | b :: rest => b.setWidth w ^^^ (word rest <<< 8)

theorem getLsbD_word_of_ge {bs : List (BitVec 8)} {i : Nat} (h : 8 * bs.length ≤ i) :
    (word bs : BitVec w).getLsbD i = false := by
  induction bs generalizing i with
  | nil => simp [word]
  | cons b rest ih =>
    simp only [List.length_cons] at h
    have hByte : b.getLsbD i = false := BitVec.getLsbD_of_ge b i (by omega)
    have hRest := @ih (i - 8) (by omega)
    simp [word, hByte, hRest]

theorem word_injective {as bs : List (BitVec 8)} (hLen : as.length = bs.length)
    (hFit : 8 * as.length ≤ w) (h : (word as : BitVec w) = word bs) : as = bs := by
  induction as generalizing bs with
  | nil => exact (List.length_eq_zero_iff.mp hLen.symm).symm
  | cons a as ih =>
    obtain _ | ⟨b, bs⟩ := bs
    · simp at hLen
    simp only [List.length_cons, Nat.add_right_cancel_iff] at hLen hFit
    have hBits (i : Nat) := congrArg (BitVec.getLsbD · i) h
    simp only [word] at hBits
    have hHead : a = b := by
      apply BitVec.eq_of_getLsbD_eq
      intro i hi
      have := hBits i
      simpa [hi, show i < w by omega] using this
    have hTail : (word as : BitVec w) = word bs := by
      apply BitVec.eq_of_getLsbD_eq
      intro i hi
      by_cases hLow : i + 8 < w
      · have := hBits (i + 8)
        simpa [hLow, hHead, BitVec.getLsbD_eq_getElem hi] using this
      · rw [getLsbD_word_of_ge (by omega), getLsbD_word_of_ge (by omega)]
    rw [hHead, ih hLen (by omega) hTail]

/-- Bytes that fit the register are added to it as one word. -/
theorem foldl_feed (c : BitVec w) {bs : List (BitVec 8)} (hFit : 8 * bs.length ≤ w) :
    bs.foldl (feed poly) c = (shift poly)^[8 * bs.length] (c ^^^ word bs) := by
  induction bs generalizing c with
  | nil => simp [word]
  | cons b rest ih =>
    simp only [List.length_cons] at hFit
    -- The later bytes can be added eight steps earlier, eight bits further up.
    have hUp : (shift poly)^[8] (word rest <<< 8) = word rest := by
      rw [iterate_shift_of_clear fun i hi => by simp [hi]]
      apply BitVec.eq_of_getLsbD_eq
      intro i hi
      by_cases hLow : 8 + i < w
      · simp [hLow, BitVec.getLsbD_eq_getElem hi]
      · simp [hLow, getLsbD_word_of_ge (show 8 * rest.length ≤ i by omega)]
    rw [List.foldl_cons, ih _ (by omega), feed, List.length_cons, Nat.mul_succ,
      Function.iterate_add_apply, word, ← BitVec.xor_assoc,
      iterate_shift_xor 8 _ (word rest <<< 8), hUp]

/-- Two windows of bytes that fit the register, read from one state, lead to different states. -/
theorem foldl_feed_injective (hPoly : poly.msb = true) (c : BitVec w) {as bs : List (BitVec 8)}
    (hLen : as.length = bs.length) (hFit : 8 * as.length ≤ w)
    (h : as.foldl (feed poly) c = bs.foldl (feed poly) c) : as = bs := by
  rw [foldl_feed c hFit, foldl_feed c (hLen ▸ hFit), hLen] at h
  have hWords := (shift_injective hPoly).iterate _ h
  exact word_injective hLen hFit ((BitVec.xor_right_inj c).mp hWords)

/-- Reading the same bytes keeps different states apart. -/
theorem foldl_feed_left_injective (hPoly : poly.msb = true) (bs : List (BitVec 8)) :
    Function.Injective fun c => bs.foldl (feed poly) c := by
  induction bs with
  | nil => exact Function.injective_id
  | cons b rest ih =>
    intro c c' h
    have hFeed : feed poly c b = feed poly c' b := ih h
    exact (BitVec.xor_left_inj _).mp ((shift_injective hPoly).iterate 8 hFeed)

end ShardDB.Lib.ShiftRegister
