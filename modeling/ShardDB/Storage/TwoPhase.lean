import ShardDB.Storage.Reads

/-!
# Two-phase commit on one store

Any number of clients share a store, each under its own transaction id. A two-phase client
prepares its writes in order and then commits all its keys, or aborts all of them after a
failed prepare; a one-phase client calls `OnePhaseCommit` once. Every engine call is one
step, and the clients take their steps in any order.

The invariant `ClientOk` ties the intents a client holds in the store to its phase. A step of
another client changes neither these intents nor the versions installed for the client
(`ClientOk.frame`), so only the client's own steps have to be looked at.
-/

namespace ShardDB.Storage.TwoPhase

open ShardDB.Lib SortedMap

/-- What a client wants to do. -/
inductive Program where
  | twoPhase (writes : List (Bytes × Slice)) (ts : UInt64)
  | onePhase (ops : List BatchOp) (ts : UInt64)
  deriving DecidableEq, Repr

/-- Where a client stands. A failed prepare is remembered while the client goes on, or stops,
preparing. -/
inductive Phase where
  | preparing (done rest : List (Bytes × Slice)) (failed : Bool)
  | committing (done rest : List Bytes)
  | aborting (rest : List Bytes)
  | oneShot
  | oneShotDone (ok : Bool)
  deriving DecidableEq, Repr

/-- The phase in which a client starts. -/
def Program.start : Program → Phase
  | .twoPhase writes _ => .preparing [] writes false
  | .onePhase _ _ => .oneShot

/-- A failed prepare, or a failed `OnePhaseCommit`. -/
def Phase.Failed : Phase → Prop
  | .preparing _ _ failed => failed = true
  | .committing _ _ => False
  | .aborting _ => True
  | .oneShot => False
  | .oneShotDone ok => ok = false

/-- The client has no call left. -/
def Phase.Finished : Phase → Prop
  | .preparing _ _ _ => False
  | .committing _ rest => rest = []
  | .aborting rest => rest = []
  | .oneShot => False
  | .oneShotDone _ => True

/-- The shared store, the phase of every client, and the versions installed so far. -/
structure Config where
  store : MemoryStore
  phase : Bytes → Phase
  history : List Install

/-- Client `t` makes a call and moves to a phase that may depend on the reported error. -/
def Config.call (c : Config) (t : Bytes) (call : Call) (next : Option Bytes → Phase) : Config where
  store := (call.exec c.store).1
  phase := Function.update c.phase t (next (call.exec c.store).2)
  history := c.history ++ call.installs c.store

/-- One step of one client. The keys are committed or aborted in any order, each at least
once. -/
inductive Step (clients : Bytes → Option Program) : Config → Config → Prop
  | prepare {c : Config} {t k : Bytes} {v : Slice} {writes done rest : List (Bytes × Slice)}
      {ts : UInt64} {failed : Bool} (client : clients t = some (.twoPhase writes ts))
      (phase : c.phase t = .preparing done ((k, v) :: rest) failed) :
      Step clients c (c.call t (.prepare k v t) fun err =>
        .preparing (done ++ [(k, v)]) rest (failed || err.isSome))
  | beginCommit {c : Config} {t : Bytes} {writes done : List (Bytes × Slice)} {ts : UInt64}
      (order : List Bytes) (client : clients t = some (.twoPhase writes ts))
      (phase : c.phase t = .preparing done [] false)
      (keys : ∀ k, k ∈ order ↔ k ∈ writes.map Prod.fst) :
      Step clients c { c with phase := Function.update c.phase t (.committing [] order) }
  | beginAbort {c : Config} {t : Bytes} {writes done rest : List (Bytes × Slice)} {ts : UInt64}
      (order : List Bytes) (client : clients t = some (.twoPhase writes ts))
      (phase : c.phase t = .preparing done rest true)
      (keys : ∀ k, k ∈ order ↔ k ∈ writes.map Prod.fst) :
      Step clients c { c with phase := Function.update c.phase t (.aborting order) }
  | commit {c : Config} {t k : Bytes} {writes : List (Bytes × Slice)} {done rest : List Bytes}
      {ts : UInt64} (client : clients t = some (.twoPhase writes ts))
      (phase : c.phase t = .committing done (k :: rest)) :
      Step clients c (c.call t (.commit k t ts) fun _ => .committing (done ++ [k]) rest)
  | abort {c : Config} {t k : Bytes} {writes : List (Bytes × Slice)} {rest : List Bytes}
      {ts : UInt64} (client : clients t = some (.twoPhase writes ts))
      (phase : c.phase t = .aborting (k :: rest)) :
      Step clients c (c.call t (.abort k t) fun _ => .aborting rest)
  | onePhase {c : Config} {t : Bytes} {ops : List BatchOp} {ts : UInt64}
      (client : clients t = some (.onePhase ops ts)) (phase : c.phase t = .oneShot) :
      Step clients c (c.call t (.onePhaseCommit ops t ts) fun err => .oneShotDone err.isNone)

/-- The configuration in which no client has made a call. -/
def start (clients : Bytes → Option Program) (store : MemoryStore) : Config where
  store := store
  phase t := ((clients t).map Program.start).getD .oneShot
  history := []

/-- The configurations that interleavings of the clients reach. -/
inductive Reachable (clients : Bytes → Option Program) (store : MemoryStore) : Config → Prop
  | start : Reachable clients store (start clients store)
  | step {c c' : Config} : Reachable clients store c → Step clients c c' →
      Reachable clients store c'

/-! ## The invariant of one client -/

/-- The versions a committing client has installed: one for every key it has committed, with
the last value it prepared. -/
structure CommittedKeys (t : Bytes) (writes : List (Bytes × Slice)) (ts : UInt64)
    (done : List Bytes) (installed : List Install) : Prop where
  values : ∀ i ∈ installed, i.txnID = t ∧ i.ts = ts ∧ i.key ∈ done ∧
    lastBinding writes i.key = some i.value
  all : ∀ k ∈ done, ∃ i ∈ installed, i.key = k
  once : (installed.map Install.key).Nodup

/-- What a client's program and phase say about its intents and its installed versions. -/
def ClientOk (t : Bytes) (intents : Bytes → Option Slice) (installed : List Install) :
    Program → Phase → Prop
  | .twoPhase writes _, .preparing done rest failed =>
    writes = done ++ rest ∧ installed = [] ∧
      (failed = false → ∀ k, intents k = lastBinding done k) ∧
      ∀ k, intents k ≠ none → k ∈ done.map Prod.fst
  | .twoPhase writes ts, .committing done rest =>
    (∀ k, k ∈ done ++ rest ↔ k ∈ writes.map Prod.fst) ∧
      (∀ k, intents k = if k ∈ done then none else lastBinding writes k) ∧
      CommittedKeys t writes ts done installed
  | .twoPhase _ _, .aborting rest => installed = [] ∧ ∀ k, intents k ≠ none → k ∈ rest
  | .onePhase _ _, .oneShot => installed = [] ∧ ∀ k, intents k = none
  | .onePhase _ _, .oneShotDone ok => (ok = false → installed = []) ∧ ∀ k, intents k = none
  | _, _ => False

/-- The invariant of a whole configuration. -/
def Ok (clients : Bytes → Option Program) (c : Config) : Prop :=
  ∀ t p, clients t = some p →
    ClientOk t (c.store.intent? t) (installsOf t c.history) p (c.phase t)

/-- A call keeps the invariant if the caller's own part is kept. -/
theorem Ok.call {clients : Bytes → Option Program} {c : Config} (hOk : Ok clients c)
    {t : Bytes} {call : Call} {next : Option Bytes → Phase} (hTxn : call.txnID = t)
    (hOwn : ∀ p, clients t = some p →
      ClientOk t (c.store.intent? t) (installsOf t c.history) p (c.phase t) →
      ClientOk t ((call.exec c.store).1.intent? t)
        (installsOf t c.history ++ call.installs c.store) p (next (call.exec c.store).2)) :
    Ok clients (c.call t call next) := by
  intro t' p hClient
  by_cases ht : t' = t
  · subst ht
    simp only [Config.call, Function.update_self, installsOf_append, installsOf_installs_self hTxn]
    exact hOwn p hClient (hOk t' p hClient)
  · have hNe : call.txnID ≠ t' := by
      rw [hTxn]
      exact Ne.symm ht
    have hIntents : (call.exec c.store).1.intent? t' = c.store.intent? t' :=
      funext fun k => intent?_exec_of_ne hNe k
    simp only [Config.call, Function.update_of_ne ht, installsOf_append, installsOf_installs_of_ne hNe,
      List.append_nil, hIntents]
    exact hOk t' p hClient

/-- A change of phase without a call keeps the invariant if the client's own part is kept. -/
theorem Ok.move {clients : Bytes → Option Program} {c : Config} (hOk : Ok clients c)
    {t : Bytes} {phase : Phase}
    (hOwn : ∀ p, clients t = some p →
      ClientOk t (c.store.intent? t) (installsOf t c.history) p (c.phase t) →
      ClientOk t (c.store.intent? t) (installsOf t c.history) p phase) :
    Ok clients { c with phase := Function.update c.phase t phase } := by
  intro t' p hClient
  by_cases ht : t' = t
  · subst ht
    simp only [Function.update_self]
    exact hOwn p hClient (hOk t' p hClient)
  · simp only [Function.update_of_ne ht]
    exact hOk t' p hClient

/-! ## The client's own steps -/

section OwnSteps

variable {t : Bytes} {writes : List (Bytes × Slice)} {ts : UInt64} {s : MemoryStore}
  {installed : List Install}

theorem ClientOk.prepare {done rest : List (Bytes × Slice)} {k : Bytes} {v : Slice}
    {failed : Bool}
    (h : ClientOk t (s.intent? t) installed (.twoPhase writes ts)
      (.preparing done ((k, v) :: rest) failed)) :
    ClientOk t ((s.prepare k v t).1.intent? t) installed (.twoPhase writes ts)
      (.preparing (done ++ [(k, v)]) rest (failed || (s.prepare k v t).2.isSome)) := by
  obtain ⟨hWrites, hNone, hIntents, hKeys⟩ := h
  refine ⟨by rw [hWrites, List.append_assoc]; rfl, hNone, ?_, ?_⟩
  · intro hOk k'
    obtain ⟨hFailed, hErr⟩ := Bool.or_eq_false_iff.mp hOk
    have hFree : s.FreeFor t k := MemoryStore.prepare_ok_iff.mp (by simpa using hErr)
    rw [intent?_prepare_of_free v hFree, lastBinding_concat, hIntents hFailed]
    simp only [eq_comm]
  · intro k' hSome
    rw [List.map_append, List.mem_append]
    by_cases hFree : s.FreeFor t k
    · rw [intent?_prepare_of_free v hFree] at hSome
      split_ifs at hSome with hk
      · exact Or.inr (by simp [hk])
      · exact Or.inl (hKeys k' hSome)
    · rw [(MemoryStore.prepare_of_not_free v hFree).1] at hSome
      exact Or.inl (hKeys k' hSome)

theorem ClientOk.beginCommit {intents : Bytes → Option Slice} {done : List (Bytes × Slice)}
    {order : List Bytes} (hOrder : ∀ k, k ∈ order ↔ k ∈ writes.map Prod.fst)
    (h : ClientOk t intents installed (.twoPhase writes ts) (.preparing done [] false)) :
    ClientOk t intents installed (.twoPhase writes ts) (.committing [] order) := by
  obtain ⟨hWrites, hNone, hIntents, -⟩ := h
  rw [List.append_nil] at hWrites
  subst hWrites
  refine ⟨hOrder, fun k => ?_, ?_⟩
  · rw [if_neg List.not_mem_nil, hIntents rfl]
  · rw [hNone]
    exact ⟨by simp, by simp, List.nodup_nil⟩

theorem ClientOk.beginAbort {intents : Bytes → Option Slice} {done rest : List (Bytes × Slice)}
    {failed : Bool} {order : List Bytes} (hOrder : ∀ k, k ∈ order ↔ k ∈ writes.map Prod.fst)
    (h : ClientOk t intents installed (.twoPhase writes ts) (.preparing done rest failed)) :
    ClientOk t intents installed (.twoPhase writes ts) (.aborting order) := by
  obtain ⟨hWrites, hNone, -, hKeys⟩ := h
  refine ⟨hNone, fun k hSome => (hOrder k).mpr ?_⟩
  rw [hWrites, List.map_append, List.mem_append]
  exact Or.inl (hKeys k hSome)

/-- In the commit phase the intent on a key that has not been committed yet is the last value
prepared for it. -/
theorem ClientOk.intent_of_not_done {intents : Bytes → Option Slice} {done rest : List Bytes}
    {k : Bytes}
    (h : ClientOk t intents installed (.twoPhase writes ts) (.committing done (k :: rest)))
    (hk : k ∉ done) : ∃ v, lastBinding writes k = some v ∧ intents k = some v := by
  obtain ⟨hKeys, hIntents, -⟩ := h
  have hMem : k ∈ writes.map Prod.fst := (hKeys k).mp (by simp)
  cases hLast : lastBinding writes k with
  | none => exact absurd hMem (lastBinding_eq_none_iff.mp hLast)
  | some v => exact ⟨v, rfl, by rw [hIntents, if_neg hk, hLast]⟩

theorem ClientOk.commit {done rest : List Bytes} {k : Bytes}
    (h : ClientOk t (s.intent? t) installed (.twoPhase writes ts)
      (.committing done (k :: rest))) :
    ClientOk t ((s.commit k t ts).1.intent? t)
      (installed ++ (Call.commit k t ts).installs s) (.twoPhase writes ts)
      (.committing (done ++ [k]) rest) := by
  have hLast := h.intent_of_not_done
  obtain ⟨hKeys, hIntents, hInstalled⟩ := h
  refine ⟨by simpa using hKeys, fun k' => ?_, ?_⟩
  · rw [intent?_commit, hIntents]
    by_cases hk : k' = k
    · simp [hk]
    · simp [hk]
  · by_cases hk : k ∈ done
    · -- a repeated key: the first commit has released the lock, this one installs nothing
      have hNone : s.intent? t k = none := by rw [hIntents, if_pos hk]
      have hNothing : (Call.commit k t ts).installs s = [] := by rw [Call.installs, hNone]
      rw [hNothing, List.append_nil]
      refine ⟨fun i hi => ?_, fun k' hk' => ?_, hInstalled.once⟩
      · obtain ⟨hTxn, hTs, hDone, hValue⟩ := hInstalled.values i hi
        exact ⟨hTxn, hTs, List.mem_append_left _ hDone, hValue⟩
      · rcases List.mem_append.mp hk' with hk' | hk'
        · exact hInstalled.all k' hk'
        · rw [List.mem_singleton.mp hk']
          exact hInstalled.all k hk
    · obtain ⟨v, hValue, hIntent⟩ := hLast hk
      have hOne : (Call.commit k t ts).installs s = [⟨t, k, ts, v⟩] := by
        rw [Call.installs, hIntent]
      rw [hOne]
      refine ⟨fun i hi => ?_, fun k' hk' => ?_, ?_⟩
      · rcases List.mem_append.mp hi with hi | hi
        · obtain ⟨hTxn, hTs, hDone, hValue⟩ := hInstalled.values i hi
          exact ⟨hTxn, hTs, List.mem_append_left _ hDone, hValue⟩
        · rw [List.mem_singleton.mp hi]
          exact ⟨rfl, rfl, by simp, hValue⟩
      · rcases List.mem_append.mp hk' with hk' | hk'
        · obtain ⟨i, hi, hKey⟩ := hInstalled.all k' hk'
          exact ⟨i, List.mem_append_left _ hi, hKey⟩
        · exact ⟨⟨t, k, ts, v⟩, by simp, (List.mem_singleton.mp hk').symm⟩
      · rw [List.map_append]
        refine List.nodup_append.mpr ⟨hInstalled.once, by simp, ?_⟩
        intro k' hk' k'' hk'' hEq
        obtain ⟨i, hi, hKey⟩ := List.mem_map.mp hk'
        have hK : k'' = k := by simpa using hk''
        apply hk
        rw [← hK, ← hEq, ← hKey]
        exact (hInstalled.values i hi).2.2.1

theorem ClientOk.abort {rest : List Bytes} {k : Bytes}
    (h : ClientOk t (s.intent? t) installed (.twoPhase writes ts) (.aborting (k :: rest))) :
    ClientOk t ((s.abort k t).1.intent? t) installed (.twoPhase writes ts) (.aborting rest) := by
  obtain ⟨hNone, hKeys⟩ := h
  refine ⟨hNone, fun k' hSome => ?_⟩
  rw [intent?_abort] at hSome
  split_ifs at hSome with hk
  · exact absurd rfl hSome
  · exact List.mem_of_ne_of_mem hk (hKeys k' hSome)

theorem ClientOk.onePhase {ops : List BatchOp}
    (h : ClientOk t (s.intent? t) installed (.onePhase ops ts) .oneShot) :
    ClientOk t ((s.onePhaseCommit ops t ts).1.intent? t)
      (installed ++ (Call.onePhaseCommit ops t ts).installs s) (.onePhase ops ts)
      (.oneShotDone (s.onePhaseCommit ops t ts).2.isNone) := by
  obtain ⟨hNone, hIntents⟩ := h
  refine ⟨fun hFailed => ?_, fun k => intent?_onePhaseCommit_eq_none ops ts (hIntents k)⟩
  have hNotFree : ¬ ∀ op ∈ ops, s.FreeFor t op.key := by
    intro hFree
    rw [MemoryStore.onePhaseCommit_of_free ts hFree] at hFailed
    cases hFailed
  rw [hNone, Call.installs, if_neg hNotFree]
  rfl

end OwnSteps

/-! ## Runs -/

theorem step_ok {clients : Bytes → Option Program} {c c' : Config} (h : Step clients c c')
    (hOk : Ok clients c) : Ok clients c' := by
  cases h with
  | prepare client phase =>
    refine hOk.call rfl fun p hp hClient => ?_
    rw [client] at hp
    cases hp
    rw [phase] at hClient
    simpa only [Call.installs, Call.exec, List.append_nil] using hClient.prepare
  | beginCommit order client phase keys =>
    refine hOk.move fun p hp hClient => ?_
    rw [client] at hp
    cases hp
    rw [phase] at hClient
    exact hClient.beginCommit keys
  | beginAbort order client phase keys =>
    refine hOk.move fun p hp hClient => ?_
    rw [client] at hp
    cases hp
    rw [phase] at hClient
    exact hClient.beginAbort keys
  | commit client phase =>
    refine hOk.call rfl fun p hp hClient => ?_
    rw [client] at hp
    cases hp
    rw [phase] at hClient
    exact hClient.commit
  | abort client phase =>
    refine hOk.call rfl fun p hp hClient => ?_
    rw [client] at hp
    cases hp
    rw [phase] at hClient
    simpa only [Call.installs, Call.exec, List.append_nil] using hClient.abort
  | onePhase client phase =>
    refine hOk.call rfl fun p hp hClient => ?_
    rw [client] at hp
    cases hp
    rw [phase] at hClient
    exact hClient.onePhase

theorem start_ok {clients : Bytes → Option Program} {store : MemoryStore}
    (hStart : ∀ t p, clients t = some p → ∀ k, store.intent? t k = none) :
    Ok clients (start clients store) := by
  intro t p hp
  have hPhase : (start clients store).phase t = p.start := by simp [start, hp]
  rw [hPhase]
  have hIntents := hStart t p hp
  cases p with
  | twoPhase writes ts =>
    refine ⟨rfl, rfl, fun _ k => hIntents k, fun k hSome => ?_⟩
    exact absurd (hIntents k) hSome
  | onePhase ops ts => exact ⟨rfl, hIntents⟩

theorem Reachable.ok {clients : Bytes → Option Program} {store : MemoryStore} {c : Config}
    (hStart : ∀ t p, clients t = some p → ∀ k, store.intent? t k = none)
    (h : Reachable clients store c) : Ok clients c := by
  induction h with
  | start => exact start_ok hStart
  | step _ hStep ih => exact step_ok hStep ih

/-- The recorded history is exactly what happened to the tree. -/
theorem Reachable.tree {clients : Bytes → Option Program} {store : MemoryStore} {c : Config}
    (h : Reachable clients store c) : c.store.tree = putVersions store.tree c.history := by
  induction h with
  | start => rfl
  | step _ hStep ih =>
    cases hStep with
    | beginCommit order client phase keys => exact ih
    | beginAbort order client phase keys => exact ih
    | _ => rw [Config.call, tree_exec, ih, putVersions_append]

/-! ## The guarantees -/

theorem Ok.not_installed_of_failed {clients : Bytes → Option Program} {c : Config}
    (hOk : Ok clients c) {t : Bytes} {p : Program} (hp : clients t = some p)
    (hFailed : (c.phase t).Failed) : ∀ i ∈ c.history, i.txnID ≠ t := by
  have hNone : installsOf t c.history = [] := by
    have hClient := hOk t p hp
    generalize c.phase t = phase at hClient hFailed
    cases p <;> cases phase <;> try exact hClient.elim
    case twoPhase.preparing => exact hClient.2.1
    case twoPhase.committing => exact hFailed.elim
    case twoPhase.aborting => exact hClient.1
    case onePhase.oneShot => exact hFailed.elim
    case onePhase.oneShotDone => exact hClient.1 hFailed
  intro i hi hTxn
  have hMem : i ∈ installsOf t c.history := mem_installsOf.mpr ⟨hi, hTxn⟩
  rw [hNone] at hMem
  cases hMem

theorem Ok.no_lock_of_finished {clients : Bytes → Option Program} {c : Config}
    (hOk : Ok clients c) {t : Bytes} {p : Program} (hp : clients t = some p)
    (hFinished : (c.phase t).Finished) (k : Bytes) : c.store.intent? t k = none := by
  have hClient := hOk t p hp
  generalize c.phase t = phase at hClient hFinished
  cases p <;> cases phase <;> try exact hClient.elim
  case twoPhase.preparing => exact hFinished.elim
  case twoPhase.committing writes ts done rest =>
    obtain ⟨hKeys, hIntents, -⟩ := hClient
    cases hFinished
    rw [hIntents]
    split_ifs with hk
    · rfl
    · rw [lastBinding_eq_none_iff, ← hKeys]
      simpa using hk
  case twoPhase.aborting writes ts rest =>
    cases hFinished
    by_contra hSome
    cases hClient.2 k hSome
  case onePhase.oneShot => exact hFinished.elim
  case onePhase.oneShotDone => exact hClient.2 k

/-- The store supports two-phase commit. In every interleaving of clients that own no lock at
the start: the first commit of a key succeeds and installs the last value prepared for it,
the versions a committing client has installed are exactly these, a failed client installs
nothing, and a finished client owns no lock. -/
theorem twoPhaseCommit_supported {clients : Bytes → Option Program} {store : MemoryStore}
    (hStart : ∀ t p, clients t = some p →
      ∀ k lock, store.locks.find? k = some lock → lock.txnID ≠ t)
    {c : Config} (h : Reachable clients store c) {t : Bytes} {p : Program}
    (hp : clients t = some p) :
    c.store.tree = putVersions store.tree c.history ∧
    (∀ writes ts done k rest, p = .twoPhase writes ts →
      c.phase t = .committing done (k :: rest) → k ∉ done →
      ∃ v, lastBinding writes k = some v ∧
        c.store.commit k t ts =
          (⟨c.store.tree.insert (encodeKey k ts) v, c.store.locks.erase k⟩, none)) ∧
    (∀ writes ts done rest, p = .twoPhase writes ts → c.phase t = .committing done rest →
      (∀ k, k ∈ done ++ rest ↔ k ∈ writes.map Prod.fst) ∧
        CommittedKeys t writes ts done (installsOf t c.history)) ∧
    ((c.phase t).Failed → ∀ i ∈ c.history, i.txnID ≠ t) ∧
    ((c.phase t).Finished → ∀ k lock, c.store.locks.find? k = some lock → lock.txnID ≠ t) := by
  have hNoIntent : ∀ t p, clients t = some p → ∀ k, store.intent? t k = none := by
    intro t p hp k
    by_contra hSome
    obtain ⟨v, hIntent⟩ := Option.ne_none_iff_exists'.mp hSome
    exact hStart t p hp k _ (MemoryStore.intent?_eq_some_iff.mp hIntent) rfl
  have hOk := h.ok hNoIntent
  have hClient := hOk t p hp
  refine ⟨h.tree, ?_, ?_, hOk.not_installed_of_failed hp, ?_⟩
  · rintro writes ts done k rest rfl hPhase hk
    rw [hPhase] at hClient
    obtain ⟨v, hLast, hIntent⟩ := hClient.intent_of_not_done hk
    exact ⟨v, hLast, MemoryStore.commit_of_intent ts hIntent⟩
  · rintro writes ts done rest rfl hPhase
    rw [hPhase] at hClient
    exact ⟨hClient.1, hClient.2.2⟩
  · intro hFinished k lock hLock hOwner
    have hNone := hOk.no_lock_of_finished hp hFinished k
    have hSome : c.store.intent? t k = some lock.value := by
      rw [MemoryStore.intent?_eq_some_iff, hLock, ← hOwner]
    rw [hNone] at hSome
    cases hSome

/-- A client that writes the key `k` twice, beside one that has not started. -/
theorem twoPhaseCommit_supported_repeated_key :
    ∃ c : Config, c.phase (ascii "T1") = .committing [] [ascii "k", ascii "k"] ∧
      c.store.commit (ascii "k") (ascii "T1") 7 =
        (⟨c.store.tree.insert (encodeKey (ascii "k") 7) (some (ascii "2")),
          c.store.locks.erase (ascii "k")⟩, none) := by
  let writes : List (Bytes × Slice) := [(ascii "k", some (ascii "1")), (ascii "k", some (ascii "2"))]
  let clients : Bytes → Option Program := fun t =>
    if t = ascii "T1" then some (.twoPhase writes 7)
    else if t = ascii "T2" then some (.onePhase [⟨ascii "k", some (ascii "3")⟩] 8) else none
  have h₀ : Reachable clients newMemoryStore (start clients newMemoryStore) := .start
  have h₁ := h₀.step (@Step.prepare clients _ (ascii "T1") (ascii "k") (some (ascii "1")) writes
    [] [(ascii "k", some (ascii "2"))] 7 false rfl rfl)
  have h₂ := h₁.step (@Step.prepare clients _ (ascii "T1") (ascii "k") (some (ascii "2")) writes
    [(ascii "k", some (ascii "1"))] [] 7 false rfl rfl)
  have h₃ := h₂.step (@Step.beginCommit clients _ (ascii "T1") writes writes 7
    [ascii "k", ascii "k"] rfl rfl (by intro k; rfl))
  obtain ⟨-, hFirst, -⟩ := twoPhaseCommit_supported
    (by intro t p _ k lock hLock; cases hLock) h₃ (t := ascii "T1") (p := .twoPhase writes 7) rfl
  obtain ⟨v, hLast, hCommit⟩ := hFirst writes 7 [] (ascii "k") [ascii "k"] rfl rfl
    List.not_mem_nil
  cases hLast
  exact ⟨_, rfl, hCommit⟩

end ShardDB.Storage.TwoPhase
