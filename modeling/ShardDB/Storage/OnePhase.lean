import ShardDB.Storage.View

/-!
# The one-phase path against the two-phase path

`OnePhaseCommit` writes a batch at once, without going through the lock table. The slow path
locks key by key, keeps the last intent of every key, and then commits every key or aborts
every key. `onePhaseCommit_eq_twoPhase` says that both leave the same store and report the
same error. The order in which the keys are committed or aborted does not matter, nor does
it matter that a key repeated in the batch is committed or aborted several times.
-/

namespace ShardDB.Storage

open ShardDB.Lib

namespace MemoryStore

/-- `Prepare` for the operations in order, up to the first that fails. -/
def prepareAll (s : MemoryStore) (t : Bytes) : List BatchOp → MemoryStore × Option Bytes
  | [] => (s, none)
  | op :: ops =>
    match s.prepare op.key op.value t with
    | (s', none) => s'.prepareAll t ops
    | (s', some err) => (s', some err)

/-- The slow path: prepare everything, then commit the keys, or abort them when a `Prepare`
failed. The results of the single commits and aborts are not looked at. -/
def twoPhase (s : MemoryStore) (ops : List BatchOp) (t : Bytes) (ts : UInt64)
    (order : List Bytes) : MemoryStore × Option Bytes :=
  match s.prepareAll t ops with
  | (s', none) => (order.foldl (fun s k => (s.commit k t ts).1) s', none)
  | (s', some err) => (order.foldl (fun s k => (s.abort k t).1) s', some err)

end MemoryStore

/-- The calls of the first phase. -/
def prepareCalls (t : Bytes) (ops : List BatchOp) : List Call :=
  ops.map fun op => .prepare op.key op.value t

def BatchOp.binding (op : BatchOp) : Bytes × Slice := (op.key, op.value)

theorem txnID_of_mem_prepareCalls {t : Bytes} {ops : List BatchOp} {c : Call}
    (h : c ∈ prepareCalls t ops) : c.txnID = t := by
  obtain ⟨op, -, rfl⟩ := List.mem_map.mp h
  rfl

theorem keys_of_mem_prepareCalls {t : Bytes} {ops : List BatchOp} {c : Call}
    (h : c ∈ prepareCalls t ops) : ∀ k ∈ c.keys, k ∈ ops.map BatchOp.key := by
  obtain ⟨op, hop, rfl⟩ := List.mem_map.mp h
  intro k hk
  rw [List.mem_singleton.mp hk]
  exact List.mem_map_of_mem hop

/-! ## The first phase -/

theorem freeFor_of_mem_keys {s : MemoryStore} {t : Bytes} {ops : List BatchOp}
    (h : ∀ op ∈ ops, s.FreeFor t op.key) {k : Bytes} (hk : k ∈ ops.map BatchOp.key) :
    s.FreeFor t k := by
  obtain ⟨op, hop, rfl⟩ := List.mem_map.mp hk
  exact h op hop

/-- After the first phase the intent of a key is the last value of the batch. -/
theorem intent?_run_prepareCalls {s : MemoryStore} {t : Bytes} {ops : List BatchOp}
    (h : ∀ op ∈ ops, s.FreeFor t op.key) (k : Bytes) :
    (s.run (prepareCalls t ops)).intent? t k =
      (SortedMap.lastBinding (ops.map BatchOp.binding) k).or (s.intent? t k) := by
  have hGranted : GrantedFor t s (prepareCalls t ops) :=
    grantedFor_of_free (fun c hc => txnID_of_mem_prepareCalls hc) fun c hc k hk =>
      freeFor_of_mem_keys h (keys_of_mem_prepareCalls hc k hk)
  have hOwn : callsOf t (prepareCalls t ops) = prepareCalls t ops :=
    List.filter_eq_self.mpr fun c hc => by simpa using txnID_of_mem_prepareCalls hc
  have hPairs : prepareCalls t ops =
      (ops.map BatchOp.binding).map fun e => .prepare e.1 e.2 t := by
    rw [List.map_map]
    rfl
  rw [(view_run hGranted).1, hOwn, hPairs, ownRun_prepares]

/-- The first phase runs through the operations up to the first one whose key is taken. -/
theorem prepareAll_append {s : MemoryStore} {t : Bytes} {pre : List BatchOp}
    (h : ∀ op ∈ pre, s.FreeFor t op.key) (rest : List BatchOp) :
    s.prepareAll t (pre ++ rest) = (s.run (prepareCalls t pre)).prepareAll t rest := by
  induction pre generalizing s with
  | nil => rfl
  | cons op pre ih =>
    have hTail : ∀ op' ∈ pre, (s.prepare op.key op.value t).1.FreeFor t op'.key := fun op' hop' =>
      freeFor_exec (c := .prepare op.key op.value t) (h op' (List.mem_cons_of_mem _ hop')) rfl
    have hHead := MemoryStore.prepare_of_free op.value (h op List.mem_cons_self)
    rw [hHead] at hTail
    rw [List.cons_append, MemoryStore.prepareAll, hHead]
    refine (ih hTail).trans ?_
    simp only [prepareCalls, List.map_cons, MemoryStore.run, List.foldl_cons, Call.exec, hHead]

/-! ## All keys free -/

/-- Calls of one transaction on given keys, at one timestamp. -/
structure OwnCalls (t : Bytes) (ts : UInt64) (keys : List Bytes) (calls : List Call) : Prop where
  txn : ∀ c ∈ calls, c.txnID = t
  keys : ∀ c ∈ calls, ∀ k ∈ c.keys, k ∈ keys
  ts : ∀ c ∈ calls, ∀ ts', c.ts? = some ts' → ts' = ts

theorem OwnCalls.append {t : Bytes} {ts : UInt64} {keys : List Bytes} {calls calls' : List Call}
    (h : OwnCalls t ts keys calls) (h' : OwnCalls t ts keys calls') :
    OwnCalls t ts keys (calls ++ calls') where
  txn c hc := (List.mem_append.mp hc).elim (h.txn c) (h'.txn c)
  keys c hc := (List.mem_append.mp hc).elim (h.keys c) (h'.keys c)
  ts c hc := (List.mem_append.mp hc).elim (h.ts c) (h'.ts c)

theorem ownCalls_prepareCalls (t : Bytes) (ts : UInt64) (ops : List BatchOp) :
    OwnCalls t ts (ops.map BatchOp.key) (prepareCalls t ops) where
  txn _ hc := txnID_of_mem_prepareCalls hc
  keys _ hc := keys_of_mem_prepareCalls hc
  ts c hc ts' hTs := by
    obtain ⟨op, -, rfl⟩ := List.mem_map.mp hc
    cases hTs

theorem ownCalls_commits (t : Bytes) (ts : UInt64) {keys order : List Bytes}
    (h : ∀ k ∈ order, k ∈ keys) :
    OwnCalls t ts keys (order.map fun k => .commit k t ts) where
  txn c hc := by
    obtain ⟨k, -, rfl⟩ := List.mem_map.mp hc
    rfl
  keys c hc k hk := by
    obtain ⟨k', hk', rfl⟩ := List.mem_map.mp hc
    rw [List.mem_singleton.mp hk]
    exact h k' hk'
  ts c hc ts' hTs := by
    obtain ⟨k, -, rfl⟩ := List.mem_map.mp hc
    exact (Option.some.inj hTs).symm

theorem ownCalls_onePhase (t : Bytes) (ts : UInt64) (ops : List BatchOp) :
    OwnCalls t ts (ops.map BatchOp.key) [.onePhaseCommit ops t ts] where
  txn c hc := by
    rw [List.mem_singleton.mp hc]
    rfl
  keys c hc k hk := by
    rw [List.mem_singleton.mp hc] at hk
    exact hk
  ts c hc ts' hTs := by
    rw [List.mem_singleton.mp hc] at hTs
    exact (Option.some.inj hTs).symm

/-- The lock of a key that is free for a transaction is known from its intent. -/
theorem locks_eq_of_intent? {s s' : MemoryStore} {t k : Bytes} (h : s.FreeFor t k)
    (h' : s'.FreeFor t k) (hIntent : s.intent? t k = s'.intent? t k) :
    s.locks.find? k = s'.locks.find? k := by
  cases hView : s'.intent? t k with
  | none => rw [h.unlocked (hIntent.trans hView), h'.unlocked hView]
  | some v =>
    rw [MemoryStore.intent?_eq_some_iff.mp (hIntent.trans hView),
      MemoryStore.intent?_eq_some_iff.mp hView]

/-- Versions put at one timestamp are described by the last value of every key. -/
theorem putVersions_congr (tree : SortedMap Bytes Slice) {ts : UInt64} {l l' : List Install}
    (hTs : ∀ i ∈ l, i.ts = ts) (hTs' : ∀ i ∈ l', i.ts = ts)
    (h : ∀ k, SortedMap.lastBinding (l.map Install.binding) k =
      SortedMap.lastBinding (l'.map Install.binding) k) :
    putVersions tree l = putVersions tree l' := by
  have hPairs : ∀ {l : List Install}, (∀ i ∈ l, i.ts = ts) →
      l.map (fun i => (encodeKey i.key i.ts, i.value)) =
        (l.map Install.binding).map fun e => (encodeKey e.1 ts, e.2) := by
    intro l hTs
    rw [List.map_map]
    exact List.map_congr_left fun i hi => by simp [Install.binding, hTs i hi]
  ext1 j
  rw [find?_putVersions_eq, find?_putVersions_eq, hPairs hTs, hPairs hTs']
  congr 1
  by_cases hj : ∃ k, j = encodeKey k ts
  · obtain ⟨k, rfl⟩ := hj
    have hInj : Function.Injective fun k => encodeKey k ts := fun _ _ h => (encodeKey_inj h).1
    rw [SortedMap.lastBinding_map_key hInj, SortedMap.lastBinding_map_key hInj, h]
  · have hNone : ∀ l : List (Bytes × Slice),
        SortedMap.lastBinding (l.map fun e => (encodeKey e.1 ts, e.2)) j = none := by
      intro l
      refine SortedMap.lastBinding_eq_none_iff.mpr fun hMem => ?_
      obtain ⟨e, -, rfl⟩ := List.mem_map.mp (by rwa [List.map_map] at hMem)
      exact hj ⟨e.1, rfl⟩
    rw [hNone, hNone]

/-- What a transaction does to the versions and locks of free keys is known from its view. -/
theorem run_eq_of_view {s : MemoryStore} {t : Bytes} {ts : UInt64} {keys : List Bytes}
    (hFree : ∀ k ∈ keys, s.FreeFor t k) {calls calls' : List Call}
    (h : OwnCalls t ts keys calls) (h' : OwnCalls t ts keys calls')
    (hIntents : (ownRun (s.intent? t) calls).1 = (ownRun (s.intent? t) calls').1)
    (hInstalls : ∀ k,
      SortedMap.lastBinding ((ownRun (s.intent? t) calls).2.map Install.binding) k =
        SortedMap.lastBinding ((ownRun (s.intent? t) calls').2.map Install.binding) k) :
    s.run calls = s.run calls' := by
  have hView : ∀ {calls : List Call}, OwnCalls t ts keys calls →
      (s.run calls).intent? t = (ownRun (s.intent? t) calls).1 ∧
        s.runInstalls calls = (ownRun (s.intent? t) calls).2 := by
    intro calls h
    have hOwn : callsOf t calls = calls :=
      List.filter_eq_self.mpr fun c hc => by simpa using h.txn c hc
    have hSelf : installsOf t (s.runInstalls calls) = s.runInstalls calls := by
      refine List.filter_eq_self.mpr fun i hi => ?_
      obtain ⟨c, hc, s', hMem⟩ := mem_runInstalls hi
      simpa using (txnID_of_mem_installs hMem).trans (h.txn c hc)
    have hGranted : GrantedFor t s calls :=
      grantedFor_of_free h.txn fun c hc k hk => hFree k (h.keys c hc k hk)
    have hRun := view_run hGranted
    rwa [hOwn, hSelf] at hRun
  have hTs : ∀ {calls : List Call}, OwnCalls t ts keys calls →
      ∀ i ∈ s.runInstalls calls, i.ts = ts := by
    intro calls h i hi
    obtain ⟨c, hc, s', hMem⟩ := mem_runInstalls hi
    exact h.ts c hc _ (ts?_of_mem_installs hMem)
  have hTree : (s.run calls).tree = (s.run calls').tree := by
    rw [tree_run, tree_run]
    refine putVersions_congr s.tree (hTs h) (hTs h') fun k => ?_
    rw [(hView h).2, (hView h').2, hInstalls]
  have hLocks : (s.run calls).locks = (s.run calls').locks := by
    ext1 k
    by_cases hk : k ∈ keys
    · refine locks_eq_of_intent? (freeFor_run (hFree k hk) h.txn)
        (freeFor_run (hFree k hk) h'.txn) ?_
      rw [(hView h).1, (hView h').1, hIntents]
    · rw [locks_run_of_not_mem fun c hc hMem => hk (h.keys c hc k hMem),
        locks_run_of_not_mem fun c hc hMem => hk (h'.keys c hc k hMem)]
  exact MemoryStore.ext hTree hLocks

/-- Preparing a batch and committing its keys in any order writes the batch. -/
theorem run_twoPhase {s : MemoryStore} {t : Bytes} (ts : UInt64) {ops : List BatchOp}
    (hFree : ∀ op ∈ ops, s.FreeFor t op.key) {order : List Bytes}
    (hOrder : ∀ k, k ∈ order ↔ k ∈ ops.map BatchOp.key) :
    s.run (prepareCalls t ops ++ order.map fun k => .commit k t ts) =
      ops.foldl (MemoryStore.install ts) s := by
  have hOnePhase : s.run [.onePhaseCommit ops t ts] = ops.foldl (MemoryStore.install ts) s :=
    congrArg Prod.fst (MemoryStore.onePhaseCommit_of_free ts hFree)
  have hPairs : prepareCalls t ops =
      (ops.map BatchOp.binding).map fun e => .prepare e.1 e.2 t := by
    rw [List.map_map]
    rfl
  have hNone : ∀ {k}, k ∉ order →
      SortedMap.lastBinding (ops.map BatchOp.binding) k = none := by
    intro k hk
    rw [SortedMap.lastBinding_eq_none_iff, List.map_map]
    exact fun hMem => hk ((hOrder k).mpr hMem)
  rw [← hOnePhase]
  refine run_eq_of_view (fun k hk => freeFor_of_mem_keys hFree hk)
    ((ownCalls_prepareCalls t ts ops).append (ownCalls_commits t ts fun k => (hOrder k).mp))
    (ownCalls_onePhase t ts ops) (funext fun k => ?_) fun k => ?_
  · rw [hPairs, ownRun_append, ownRun_prepares]
    refine (ownRun_commits t ts _ order k).1.trans ?_
    simp only [ownRun, Call.own]
    by_cases hk : k ∈ order
    · rw [if_pos hk, if_pos ((hOrder k).mp hk)]
    · rw [if_neg hk, if_neg (mt (hOrder k).mpr hk), hNone hk, Option.none_or]
  · rw [hPairs, ownRun_append, ownRun_prepares, List.nil_append]
    refine (ownRun_commits t ts _ order k).2.trans ?_
    simp only [ownRun, Call.own, List.append_nil, List.map_map]
    by_cases hk : k ∈ order
    · obtain ⟨v, hLast⟩ := Option.ne_none_iff_exists'.mp fun hLast =>
        SortedMap.lastBinding_eq_none_iff.mp hLast
          (show k ∈ (ops.map BatchOp.binding).map Prod.fst by
            rw [List.map_map]
            exact (hOrder k).mp hk)
      rw [if_pos hk, hLast, Option.some_or]
      exact hLast.symm
    · rw [if_neg hk]
      exact (hNone hk).symm

/-! ## A key taken by another transaction -/

/-- Aborts remove the locks of the transaction and no others. -/
theorem locks_run_aborts (s : MemoryStore) (t : Bytes) (order : List Bytes) (k : Bytes) :
    (s.run (order.map fun k => .abort k t)).locks.find? k =
      if k ∈ order ∧ s.intent? t k ≠ none then none else s.locks.find? k := by
  induction order generalizing s with
  | nil => simp [MemoryStore.run]
  | cons key order ih =>
    refine (ih (s.abort key t).1).trans ?_
    cases hIntent : s.intent? t key with
    | none =>
      rw [MemoryStore.abort_of_no_intent hIntent]
      by_cases hk : k = key
      · subst hk
        simp [hIntent]
      · simp [hk]
    | some v =>
      rw [MemoryStore.abort_of_intent hIntent, MemoryStore.intent?_erase, SortedMap.find?_erase]
      by_cases hk : k = key
      · subst hk
        simp [hIntent]
      · simp [hk]

/-- Calls that commit nothing leave the versions. -/
theorem tree_run_of_no_ts {s : MemoryStore} {calls : List Call} (h : ∀ c ∈ calls, c.ts? = none) :
    (s.run calls).tree = s.tree := by
  have hNil : s.runInstalls calls = [] := by
    refine List.eq_nil_iff_forall_not_mem.mpr fun i hi => ?_
    obtain ⟨c, hc, s', hMem⟩ := mem_runInstalls hi
    cases (h c hc).symm.trans (ts?_of_mem_installs hMem)
  rw [tree_run, hNil]
  rfl

/-- Preparing some free keys and aborting at least those restores the store, when the
transaction held no lock before. -/
theorem run_prepares_aborts {s : MemoryStore} {t : Bytes} (hNoLock : ∀ k, s.intent? t k = none)
    {pre : List BatchOp} (hFree : ∀ op ∈ pre, s.FreeFor t op.key) {order : List Bytes}
    (hOrder : ∀ k ∈ pre.map BatchOp.key, k ∈ order) :
    (s.run (prepareCalls t pre)).run (order.map fun k => .abort k t) = s := by
  refine MemoryStore.ext ?_ ?_
  · rw [tree_run_of_no_ts fun c hc => by obtain ⟨k, -, rfl⟩ := List.mem_map.mp hc; rfl,
      tree_run_of_no_ts fun c hc => by obtain ⟨op, -, rfl⟩ := List.mem_map.mp hc; rfl]
  · ext1 k
    rw [locks_run_aborts, intent?_run_prepareCalls hFree, hNoLock, Option.or_none]
    by_cases hk : k ∈ pre.map BatchOp.key
    · have hIntent : SortedMap.lastBinding (pre.map BatchOp.binding) k ≠ none := by
        rw [Ne, SortedMap.lastBinding_eq_none_iff, List.map_map]
        exact fun hNot => hNot hk
      rw [if_pos ⟨hOrder k hk, hIntent⟩, (freeFor_of_mem_keys hFree hk).unlocked (hNoLock k)]
    · have hIntent : SortedMap.lastBinding (pre.map BatchOp.binding) k = none := by
        rw [SortedMap.lastBinding_eq_none_iff, List.map_map]
        exact hk
      rw [if_neg fun h => h.2 hIntent]
      exact locks_run_of_not_mem fun c hc hMem => hk (keys_of_mem_prepareCalls hc k hMem)

/-- A batch with a taken key has a first one. -/
theorem exists_first_taken {s : MemoryStore} {t : Bytes} {ops : List BatchOp}
    (h : ¬ ∀ op ∈ ops, s.FreeFor t op.key) :
    ∃ pre op post, ops = pre ++ op :: post ∧ (∀ op' ∈ pre, s.FreeFor t op'.key) ∧
      ¬ s.FreeFor t op.key := by
  induction ops with
  | nil => exact absurd (fun op hop => absurd hop List.not_mem_nil) h
  | cons op ops ih =>
    by_cases hHead : s.FreeFor t op.key
    · obtain ⟨pre, op', post, rfl, hPre, hTaken⟩ := ih fun hAll =>
        h (List.forall_mem_cons.mpr ⟨hHead, hAll⟩)
      exact ⟨op :: pre, op', post, rfl, List.forall_mem_cons.mpr ⟨hHead, hPre⟩, hTaken⟩
    · exact ⟨[], op, ops, rfl, fun op' hop' => absurd hop' List.not_mem_nil, hHead⟩

theorem prepareAll_of_taken {s : MemoryStore} {t : Bytes} {op : BatchOp}
    (hTaken : ¬ s.FreeFor t op.key) (post : List BatchOp) :
    s.prepareAll t (op :: post) = (s, s.lockedByOther op.key t) := by
  obtain ⟨err, hErr⟩ := Option.ne_none_iff_exists'.mp
    (mt MemoryStore.lockedByOther_eq_none_iff.mp hTaken)
  rw [MemoryStore.prepareAll, MemoryStore.prepare, hErr]

/-- The error of a batch is that of its first taken key. -/
theorem onePhaseCommit_of_taken {s : MemoryStore} {t : Bytes} (ts : UInt64) {pre : List BatchOp}
    (hPre : ∀ op ∈ pre, s.FreeFor t op.key) {op : BatchOp} (hTaken : ¬ s.FreeFor t op.key)
    (post : List BatchOp) :
    s.onePhaseCommit (pre ++ op :: post) t ts = (s, s.lockedByOther op.key t) := by
  obtain ⟨err, hErr⟩ := Option.ne_none_iff_exists'.mp
    (mt MemoryStore.lockedByOther_eq_none_iff.mp hTaken)
  have hNone : (pre.findSome? fun op => s.lockedByOther op.key t) = none :=
    List.findSome?_eq_none_iff.mpr fun op hop =>
      MemoryStore.lockedByOther_eq_none_iff.mpr (hPre op hop)
  rw [MemoryStore.onePhaseCommit, List.findSome?_append, hNone, Option.none_or,
    List.findSome?_cons, hErr]

/-- The slow path on a batch with a taken key: nothing remains. -/
theorem twoPhase_of_taken {s : MemoryStore} {t : Bytes} (hNoLock : ∀ k, s.intent? t k = none)
    (ts : UInt64) {pre : List BatchOp} (hPre : ∀ op ∈ pre, s.FreeFor t op.key) {op : BatchOp}
    (hTaken : ¬ s.FreeFor t op.key) {post : List BatchOp} {order : List Bytes}
    (hOrder : ∀ k ∈ pre.map BatchOp.key, k ∈ order) :
    s.twoPhase (pre ++ op :: post) t ts order = (s, s.lockedByOther op.key t) := by
  -- the taken key is none of those prepared before, so its lock is still the one in `s`
  have hLock : (s.run (prepareCalls t pre)).locks.find? op.key = s.locks.find? op.key :=
    locks_run_of_not_mem fun c hc hMem =>
      hTaken (freeFor_of_mem_keys hPre (keys_of_mem_prepareCalls hc _ hMem))
  have hTaken' : ¬ (s.run (prepareCalls t pre)).FreeFor t op.key := by
    rwa [MemoryStore.FreeFor, hLock]
  have hSame : (s.run (prepareCalls t pre)).lockedByOther op.key t =
      s.lockedByOther op.key t := by
    rw [MemoryStore.lockedByOther, hLock, MemoryStore.lockedByOther]
  obtain ⟨err, hErr⟩ := Option.ne_none_iff_exists'.mp
    (mt MemoryStore.lockedByOther_eq_none_iff.mp hTaken)
  rw [MemoryStore.twoPhase, prepareAll_append hPre, prepareAll_of_taken hTaken', hSame, hErr]
  refine congrArg (·, some err) (Eq.trans ?_ (run_prepares_aborts hNoLock hPre hOrder))
  simp only [MemoryStore.run, List.foldl_map, Call.exec]

/-! ## The comparison -/

/-- A one-phase commit of a transaction without locks leaves the store and reports the error
that the two-phase path would, whatever order the second phase takes. It fails exactly when
a `Prepare` would, and then changes nothing. -/
theorem onePhaseCommit_eq_twoPhase {s : MemoryStore} {t : Bytes}
    (hNoLock : ∀ k, s.intent? t k = none) (ops : List BatchOp) (ts : UInt64)
    {order : List Bytes} (hOrder : ∀ k, k ∈ order ↔ k ∈ ops.map BatchOp.key) :
    s.onePhaseCommit ops t ts = s.twoPhase ops t ts order ∧
      ((s.onePhaseCommit ops t ts).2 ≠ none ↔ (s.prepareAll t ops).2 ≠ none) ∧
      ((s.onePhaseCommit ops t ts).2 ≠ none → (s.onePhaseCommit ops t ts).1 = s) := by
  have hEq : s.onePhaseCommit ops t ts = s.twoPhase ops t ts order := by
    by_cases hFree : ∀ op ∈ ops, s.FreeFor t op.key
    · have hAll : s.prepareAll t ops = (s.run (prepareCalls t ops), none) := by
        have := prepareAll_append hFree []
        rwa [List.append_nil] at this
      rw [MemoryStore.onePhaseCommit_of_free ts hFree, MemoryStore.twoPhase, hAll,
        ← run_twoPhase ts hFree hOrder, MemoryStore.run, List.foldl_append, List.foldl_map]
      rfl
    · obtain ⟨pre, op, post, rfl, hPre, hTaken⟩ := exists_first_taken hFree
      rw [onePhaseCommit_of_taken ts hPre hTaken, twoPhase_of_taken hNoLock ts hPre hTaken]
      intro k hk
      rw [hOrder, List.map_append]
      exact List.mem_append_left _ hk
  have hErr : (s.twoPhase ops t ts order).2 = (s.prepareAll t ops).2 := by
    rw [MemoryStore.twoPhase]
    split <;> simp [*]
  refine ⟨hEq, by rw [hEq, hErr], fun hFail => ?_⟩
  refine (MemoryStore.onePhaseCommit_of_not_free ts fun hFree => hFail ?_).1
  rw [MemoryStore.onePhaseCommit_of_free ts hFree]

/-- A batch that writes a key twice, while another transaction holds a lock elsewhere. -/
theorem onePhaseCommit_eq_twoPhase_repeated :
    let s := (newMemoryStore.prepare (ascii "other") none (ascii "t2")).1
    let ops : List BatchOp :=
      [⟨ascii "k", some (ascii "1")⟩, ⟨ascii "l", some (ascii "2")⟩, ⟨ascii "k", some (ascii "3")⟩]
    let order := [ascii "l", ascii "k"]
    ((∀ k, s.intent? (ascii "t1") k = none) ∧ ∀ k, k ∈ order ↔ k ∈ ops.map BatchOp.key) ∧
      s.onePhaseCommit ops (ascii "t1") 7 = s.twoPhase ops (ascii "t1") 7 order := by
  intro s ops order
  have hNoLock : ∀ k, s.intent? (ascii "t1") k = none := by
    intro k
    exact intent?_exec_of_ne (s := newMemoryStore)
      (c := .prepare (ascii "other") none (ascii "t2")) (by decide) k
  have hOrder : ∀ k, k ∈ order ↔ k ∈ ops.map BatchOp.key := by
    intro k
    simp only [order, ops, List.map_cons, List.map_nil, List.mem_cons, List.not_mem_nil]
    tauto
  exact ⟨⟨hNoLock, hOrder⟩, (onePhaseCommit_eq_twoPhase hNoLock ops 7 hOrder).1⟩

end ShardDB.Storage
