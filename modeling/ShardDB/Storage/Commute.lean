import ShardDB.Lib.Interleaving
import ShardDB.Storage.View

/-!
# Independent transactions

What a call returns and does depends on the locks of its keys alone (`exec_congr`), and it
changes nothing but the locks and the versions of its keys. So calls on disjoint keys commute
(`commutes_of_disjoint`), and two transactions on disjoint keys may be interleaved in any way
(`independent_commute`).
-/

namespace ShardDB.Storage

open ShardDB.Lib

/-! ## What a call depends on -/

theorem lockedByOther_congr {s s' : MemoryStore} {k : Bytes} (t : Bytes)
    (h : s.locks.find? k = s'.locks.find? k) : s.lockedByOther k t = s'.lockedByOther k t := by
  rw [MemoryStore.lockedByOther, MemoryStore.lockedByOther, h]

theorem intent?_congr {s s' : MemoryStore} {k : Bytes} (t : Bytes)
    (h : s.locks.find? k = s'.locks.find? k) : s.intent? t k = s'.intent? t k := by
  rw [MemoryStore.intent?, MemoryStore.intent?, h]

theorem freeFor_congr {s s' : MemoryStore} {k : Bytes} (t : Bytes)
    (h : s.locks.find? k = s'.locks.find? k) : s.FreeFor t k ↔ s'.FreeFor t k := by
  rw [MemoryStore.FreeFor, MemoryStore.FreeFor, h]

/-- The versions a call installs depend on the locks of its keys. -/
theorem installs_congr {s s' : MemoryStore} {c : Call}
    (h : ∀ k ∈ c.keys, s.locks.find? k = s'.locks.find? k) : c.installs s = c.installs s' := by
  cases c with
  | prepare key value t => rfl
  | commit key t ts =>
    rw [Call.installs, Call.installs, intent?_congr t (h key List.mem_cons_self)]
  | abort key t => rfl
  | onePhaseCommit ops t ts =>
    have hIff : (∀ op ∈ ops, s.FreeFor t op.key) ↔ ∀ op ∈ ops, s'.FreeFor t op.key :=
      forall₂_congr fun op hop => freeFor_congr t (h op.key (List.mem_map_of_mem hop))
    simp only [Call.installs, hIff]
  | put key value =>
    simp only [Call.installs, freeFor_congr MemoryStore.legacyTxn (h key List.mem_cons_self)]

/-- The result of a call and the locks it leaves on its keys depend on the locks of its
keys. -/
theorem exec_congr {s s' : MemoryStore} {c : Call}
    (h : ∀ k ∈ c.keys, s.locks.find? k = s'.locks.find? k) :
    (c.exec s).2 = (c.exec s').2 ∧
      ∀ k ∈ c.keys, (c.exec s).1.locks.find? k = (c.exec s').1.locks.find? k := by
  cases c with
  | prepare key value t =>
    have hKey := h key List.mem_cons_self
    simp only [Call.exec, Call.keys, List.forall_mem_singleton, MemoryStore.prepare,
      lockedByOther_congr t hKey]
    cases s'.lockedByOther key t <;> simp [hKey]
  | commit key t ts =>
    have hKey := h key List.mem_cons_self
    simp only [Call.exec, Call.keys, List.forall_mem_singleton, MemoryStore.commit, hKey]
    cases hLock : s'.locks.find? key with
    | none => simp [hKey, hLock]
    | some lock => by_cases hOwner : lock.txnID = t <;> simp [hOwner, hKey, hLock]
  | abort key t =>
    have hKey := h key List.mem_cons_self
    simp only [Call.exec, Call.keys, List.forall_mem_singleton, MemoryStore.abort, hKey]
    cases hLock : s'.locks.find? key with
    | none => simp [hKey, hLock]
    | some lock => by_cases hOwner : lock.txnID = t <;> simp [hOwner, hKey, hLock]
  | onePhaseCommit ops t ts =>
    have hSame : (ops.findSome? fun op => s.lockedByOther op.key t) =
        ops.findSome? fun op => s'.lockedByOther op.key t := by
      rw [← List.head?_filterMap, ← List.head?_filterMap, List.filterMap_congr fun op hop =>
        lockedByOther_congr t (h op.key (List.mem_map_of_mem hop))]
    simp only [Call.exec, Call.keys, MemoryStore.onePhaseCommit, hSame]
    cases ops.findSome? fun op => s'.lockedByOther op.key t with
    | some err => exact ⟨rfl, h⟩
    | none =>
      refine ⟨rfl, fun k hk => ?_⟩
      dsimp only
      rw [MemoryStore.locks_foldl_install, MemoryStore.locks_foldl_install, if_pos hk, if_pos hk]
  | put key value =>
    have hKey := h key List.mem_cons_self
    simp only [Call.exec, Call.keys, List.forall_mem_singleton]
    by_cases hFree : s.FreeFor MemoryStore.legacyTxn key
    · rw [MemoryStore.put_of_free value hFree,
        MemoryStore.put_of_free value ((freeFor_congr _ hKey).mp hFree)]
      simp
    · obtain ⟨err, hErr⟩ := Option.ne_none_iff_exists'.mp
        (mt MemoryStore.lockedByOther_eq_none_iff.mp hFree)
      simp only [MemoryStore.put, MemoryStore.prepare,
        ← lockedByOther_congr MemoryStore.legacyTxn hKey, hErr, hKey, and_self]

/-! ## Disjoint keys -/

/-- A call leaves the locks of the keys of a call on disjoint keys. -/
theorem locks_exec_of_disjoint {s : MemoryStore} {c : Call} {k : Bytes} (h : k ∉ c.keys) :
    (c.exec s).1.locks.find? k = s.locks.find? k :=
  (locks_exec s c k).resolve_right fun hKey => h hKey.1

/-- Versions of different keys may be put in either order. -/
theorem putVersions_comm (tree : SortedMap Bytes Slice) {l l' : List Install}
    (h : ∀ i ∈ l, ∀ i' ∈ l', i.key ≠ i'.key) :
    putVersions (putVersions tree l) l' = putVersions (putVersions tree l') l := by
  ext1 j
  simp only [find?_putVersions_eq]
  cases hLast : SortedMap.lastBinding (l.map fun i => (encodeKey i.key i.ts, i.value)) j with
  | none => rw [Option.none_or, Option.none_or]
  | some v =>
    have hNone : SortedMap.lastBinding (l'.map fun i => (encodeKey i.key i.ts, i.value)) j =
        none := by
      refine SortedMap.lastBinding_eq_none_iff.mpr fun hMem => ?_
      obtain ⟨i, hi, he⟩ := List.mem_map.mp (SortedMap.mem_of_lastBinding hLast)
      obtain ⟨i', hi', he'⟩ := List.mem_map.mp (by rwa [List.map_map] at hMem)
      exact h i hi i' hi' (encodeKey_inj ((Prod.ext_iff.mp he).1.trans he'.symm)).1
    simp only [hNone, Option.none_or, Option.some_or]

theorem commutes_of_disjoint {c d : Call} (h : ∀ k ∈ c.keys, k ∉ d.keys) :
    Commutes Call.exec c d := by
  intro s
  have hForD : ∀ k ∈ d.keys, (c.exec s).1.locks.find? k = s.locks.find? k :=
    fun k hk => locks_exec_of_disjoint fun hMem => h k hMem hk
  have hForC : ∀ k ∈ c.keys, (d.exec s).1.locks.find? k = s.locks.find? k :=
    fun k hk => locks_exec_of_disjoint (h k hk)
  refine ⟨MemoryStore.ext ?_ ?_, (exec_congr hForD).1, (exec_congr hForC).1⟩
  · rw [tree_exec, tree_exec, tree_exec, tree_exec, installs_congr hForD, installs_congr hForC]
    refine putVersions_comm s.tree fun i hi i' hi' hKey => ?_
    exact h i.key (key_of_mem_installs hi) (hKey ▸ key_of_mem_installs hi')
  · ext1 k
    by_cases hc : k ∈ c.keys
    · rw [locks_exec_of_disjoint (h k hc), (exec_congr hForC).2 k hc]
    · rw [locks_exec_of_disjoint hc]
      by_cases hd : k ∈ d.keys
      · exact (exec_congr hForD).2 k hd
      · rw [locks_exec_of_disjoint hd, locks_exec_of_disjoint hd, locks_exec_of_disjoint hc]

/-! ## Transactions on disjoint keys -/

/-- The calls of a transaction in a trace, with their results. -/
def resultsOf (t : Bytes) (l : List (Call × Option Bytes)) : List (Call × Option Bytes) :=
  l.filter fun e => e.1.txnID = t

theorem resultsOf_of_interleaves {t t' : Bytes} (hTxn : t ≠ t')
    {a b l : List (Call × Option Bytes)} (ha : ∀ e ∈ a, e.1.txnID = t)
    (hb : ∀ e ∈ b, e.1.txnID = t') (hl : Interleaves a b l) : resultsOf t l = a := by
  refine hl.filter (fun e he => by simpa using ha e he) fun e he => ?_
  rw [decide_eq_false_iff_not, hb e he]
  exact hTxn.symm

/-- Every entry of a trace is a call of the program. -/
theorem txnID_of_mem_trace {t : Bytes} {l : List Call} (h : ∀ c ∈ l, c.txnID = t)
    (s : MemoryStore) : ∀ e ∈ trace Call.exec s l, e.1.txnID = t := by
  intro e he
  refine h e.1 ?_
  rw [← map_fst_trace Call.exec s l]
  exact List.mem_map_of_mem he

/-- Two transactions on disjoint keys: whatever the interleaving, the store and all results are
those of running either of them first. -/
theorem independent_commute {t₁ t₂ : Bytes} (hTxn : t₁ ≠ t₂) {K₁ K₂ : Set Bytes}
    (hKeys : Disjoint K₁ K₂) {a b l : List Call}
    (ha : ∀ c ∈ a, c.txnID = t₁ ∧ ∀ k ∈ c.keys, k ∈ K₁)
    (hb : ∀ c ∈ b, c.txnID = t₂ ∧ ∀ k ∈ c.keys, k ∈ K₂) (hl : Interleaves a b l)
    (s : MemoryStore) :
    (s.run l = (s.run a).run b ∧
        resultsOf t₁ (trace Call.exec s l) = trace Call.exec s a ∧
        resultsOf t₂ (trace Call.exec s l) = trace Call.exec (s.run a) b) ∧
      s.run l = (s.run b).run a ∧
        resultsOf t₂ (trace Call.exec s l) = trace Call.exec s b ∧
        resultsOf t₁ (trace Call.exec s l) = trace Call.exec (s.run b) a := by
  have hCommutes : ∀ c ∈ a, ∀ d ∈ b, Commutes Call.exec c d := fun c hc d hd =>
    commutes_of_disjoint fun k hk hk' =>
      Set.disjoint_left.mp hKeys ((ha c hc).2 k hk) ((hb d hd).2 k hk')
  have hCommutes' : ∀ d ∈ b, ∀ c ∈ a, Commutes Call.exec d c := fun d hd c hc =>
    commutes_of_disjoint fun k hk hk' =>
      Set.disjoint_left.mp hKeys ((ha c hc).2 k hk') ((hb d hd).2 k hk)
  have hOf₁ := txnID_of_mem_trace fun c hc => (ha c hc).1
  have hOf₂ := txnID_of_mem_trace fun c hc => (hb c hc).1
  refine ⟨⟨hl.run hCommutes s, ?_, ?_⟩, hl.symm.run hCommutes' s, ?_, ?_⟩
  · exact resultsOf_of_interleaves hTxn (hOf₁ s) (hOf₂ _) (hl.results hCommutes s)
  · exact resultsOf_of_interleaves hTxn.symm (hOf₂ _) (hOf₁ s) (hl.results hCommutes s).symm
  · exact resultsOf_of_interleaves hTxn.symm (hOf₂ s) (hOf₁ _) (hl.symm.results hCommutes' s)
  · exact resultsOf_of_interleaves hTxn (hOf₁ _) (hOf₂ s) (hl.symm.results hCommutes' s).symm

/-- A two-phase commit of `k` around a one-phase commit of `l`, which follows a vain commit. -/
theorem independent_commute_two :
    let a : List Call := [.prepare (ascii "k") none (ascii "t1"), .commit (ascii "k") (ascii "t1") 3]
    let b : List Call := [.commit (ascii "l") (ascii "t2") 4,
      .onePhaseCommit [⟨ascii "l", none⟩] (ascii "t2") 3]
    let s := newMemoryStore.run [.commit (ascii "l") (ascii "t2") 4,
      .prepare (ascii "k") none (ascii "t1"), .onePhaseCommit [⟨ascii "l", none⟩] (ascii "t2") 3,
      .commit (ascii "k") (ascii "t1") 3]
    s = (newMemoryStore.run a).run b ∧ s = (newMemoryStore.run b).run a :=
  have hTxn : ascii "t1" ≠ ascii "t2" := by decide
  have hKeys : Disjoint ({ascii "k"} : Set Bytes) {ascii "l"} :=
    Set.disjoint_singleton.mpr (by decide)
  have h := independent_commute hTxn hKeys (by simp [Call.txnID, Call.keys])
    (by simp [Call.txnID, Call.keys])
    (.right _ (.left (.prepare (ascii "k") none (ascii "t1")) (.right _ (.left _ .nil))))
    newMemoryStore
  ⟨h.1.1, h.2.1⟩

end ShardDB.Storage
