import Mathlib

/-!
# Multi-version maps with intents

The abstract view of a transactional multi-version store: each key has versions by timestamp and
at most one intent, a value that its owner wants to write. An owner prepares a key that nobody
else holds, then commits the intent as a version or gives it up; several keys can be committed at
once when none of them is held by somebody else. A read at a timestamp returns the newest version
up to it, and a collection at a timestamp drops the versions that are not the newest up to it.

Keys, timestamps, values and owners are arbitrary. Nothing is computed here: whether a key is
free, what a read returns and what a collection drops is decided classically.
-/

namespace ShardDB.Lib

/-- Versions of keys and intents. -/
@[ext]
structure MultiVersion (K T V I : Type*) where
  version : K → T → Option V
  intent : K → Option (I × V)

namespace MultiVersion

variable {K T V I : Type*}

/-- Nothing has been written. -/
def empty : MultiVersion K T V I := ⟨fun _ _ => none, fun _ => none⟩

/-- Nobody else holds the key. -/
def FreeFor (m : MultiVersion K T V I) (i : I) (k : K) : Prop := ∀ o ∈ m.intent k, o.1 = i

/-! ## Operations

An operation returns the next state and whether it was granted. -/

section Operations

open Classical

/-- The state with another intent on a key, or with none. -/
noncomputable def setIntent (m : MultiVersion K T V I) (k : K) (o : Option (I × V)) :
    MultiVersion K T V I where
  version := m.version
  intent k' := if k' = k then o else m.intent k'

/-- Write a version and drop the intent of its key. -/
noncomputable def install (t : T) (m : MultiVersion K T V I) (p : K × V) :
    MultiVersion K T V I where
  version k u := if k = p.1 ∧ u = t then some p.2 else m.version k u
  intent := (m.setIntent p.1 none).intent

noncomputable def prepare (m : MultiVersion K T V I) (k : K) (v : V) (i : I) :
    MultiVersion K T V I × Bool :=
  if m.FreeFor i k then (m.setIntent k (some (i, v)), true) else (m, false)

noncomputable def commit (m : MultiVersion K T V I) (k : K) (i : I) (t : T) :
    MultiVersion K T V I × Bool :=
  match m.intent k with
  | some (owner, v) => if owner = i then (install t m (k, v), true) else (m, false)
  | none => (m, false)

noncomputable def abort (m : MultiVersion K T V I) (k : K) (i : I) : MultiVersion K T V I × Bool :=
  match m.intent k with
  | some (owner, _) => if owner = i then (m.setIntent k none, true) else (m, false)
  | none => (m, true)

noncomputable def commitAll (m : MultiVersion K T V I) (ops : List (K × V)) (i : I) (t : T) :
    MultiVersion K T V I × Bool :=
  if ∀ p ∈ ops, m.FreeFor i p.1 then (ops.foldl (install t) m, true) else (m, false)

end Operations

/-! ## Reads and collections -/

section Order

variable [LinearOrder T] {m : MultiVersion K T V I} {k : K} {t u : T} {v : V}

/-- The newest version of a key up to a timestamp. -/
def Newest (m : MultiVersion K T V I) (k : K) (t u : T) (v : V) : Prop :=
  u ≤ t ∧ m.version k u = some v ∧ ∀ u' v', m.version k u' = some v' → u' ≤ t → u' ≤ u

open Classical in
/-- The value of the newest version of a key up to a timestamp. -/
noncomputable def read (m : MultiVersion K T V I) (k : K) (t : T) : Option V :=
  if h : ∃ v u, m.Newest k t u v then some h.choose else none

theorem Newest.unique {u' : T} {v' : V} (h : m.Newest k t u v) (h' : m.Newest k t u' v') :
    v = v' := by
  have hSame : u = u' := le_antisymm (h'.2.2 u v h.2.1 h.1) (h.2.2 u' v' h'.2.1 h'.1)
  have hValue := h.2.1
  rw [hSame, h'.2.1] at hValue
  exact (Option.some.inj hValue).symm

theorem read_of_newest (h : m.Newest k t u v) : m.read k t = some v := by
  have hExists : ∃ v u, m.Newest k t u v := ⟨v, u, h⟩
  rw [read, dif_pos hExists, hExists.choose_spec.choose_spec.unique h]

theorem read_of_none (h : ∀ u v, ¬ m.Newest k t u v) : m.read k t = none :=
  dif_neg fun ⟨v, u, hNewest⟩ => h u v hNewest

/-- A newer version of the key up to the timestamp makes a version superfluous. -/
def Superseded (m : MultiVersion K T V I) (t : T) (k : K) (u : T) : Prop :=
  ∃ u' v', u < u' ∧ u' ≤ t ∧ m.version k u' = some v'

open Classical in
/-- The state without the superfluous versions, and how many were dropped. -/
noncomputable def collect (m : MultiVersion K T V I) (t : T) : MultiVersion K T V I × Nat :=
  ({ m with version := fun k u => if m.Superseded t k u then none else m.version k u },
    Set.ncard {p : K × T | m.version p.1 p.2 ≠ none ∧ m.Superseded t p.1 p.2})

end Order

end MultiVersion

end ShardDB.Lib
