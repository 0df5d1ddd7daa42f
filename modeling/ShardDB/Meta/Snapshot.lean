import ShardDB.Lib.Decimal
import ShardDB.Lib.Json
import ShardDB.Meta.Partition
import ShardDB.Raft.Replicas

/-!
# The replicas of the meta node

`GetSnapshot` writes the ranges and the shards of a `MetaStore` as a JSON object, and `Restore`
reads them back. The bounds of a range are byte strings, in base64 or `null`, and come back as they
were. The addresses of a shard are `null` or strings, and come back if they are valid UTF-8, as the
strings of a decoded command are. So a snapshot of a store that the log leads to restores that store
(`faithful_applier`), and the replicas of the meta node agree however they got their commands: one
by one, in batches, or by a snapshot of another replica (`replicas_agree`). The ranges partition the
keys as long as every split has a key.
-/

namespace ShardDB.Meta

open ShardDB.Lib
open ShardDB.Routing (Range)
open ShardDB.Raft (Entry Applier Group Contiguous Faithful applyCommitted stateAt)

/-! ## Snapshots -/

/-- A shard in the text of a snapshot. -/
structure ShardDoc where
  id : UInt64
  addrs : Option (List JsonString)
  deriving DecidableEq

/-- The members of a snapshot; those of the shards are in the order of the text. -/
structure StateDoc where
  ranges : List Range
  shards : List (UInt64 × ShardDoc)
  deriving DecidableEq

namespace MetaStore

variable (json : Codec StateDoc)

/-- `json.Marshal` sorts the keys of a map by their text. -/
def keyBefore (a b : UInt64 × ShardDoc) : Prop := decimal a.1.toNat ≤ decimal b.1.toNat

instance : DecidableRel keyBefore := fun a b =>
  inferInstanceAs (Decidable (decimal a.1.toNat ≤ decimal b.1.toNat))

/-- The document that `GetSnapshot` marshals. -/
def stateDoc (s : MetaStore) : StateDoc where
  ranges := s.ranges
  shards := (s.shards.entries.map fun e =>
    (e.1, (⟨e.2.id, e.2.addrs.map (·.map JsonString.ofBytes)⟩ : ShardDoc))).insertionSort keyBefore

/-- `GetSnapshot`. Marshalling a document of this type does not fail. -/
def getSnapshot (s : MetaStore) : Bytes := json.enc s.stateDoc

/-- `Restore`. -/
def restore (s : MetaStore) (data : Bytes) : MetaStore :=
  match json.dec data with
  | none => s
  | some st =>
    { ranges := st.ranges
      shards := SortedMap.empty.insertAll (st.shards.map fun e =>
        (e.1, (⟨e.2.id, e.2.addrs.map (·.map Subtype.val)⟩ : ShardConfig))) }

end MetaStore

/-- All addresses of a shard are valid UTF-8. -/
def ShardConfig.Utf8 (config : ShardConfig) : Prop :=
  ∀ addrs, config.addrs = some addrs → ∀ addr ∈ addrs, validUtf8 addr = true

namespace MetaStore

/-- All addresses are valid UTF-8. -/
def Utf8Addrs (s : MetaStore) : Prop :=
  ∀ id config, s.shards.find? id = some config → config.Utf8

variable {json : Codec StateDoc} {s : MetaStore}

theorem map_ofBytes {config : ShardConfig} (h : config.Utf8) :
    (config.addrs.map (·.map JsonString.ofBytes)).map (·.map Subtype.val) = config.addrs := by
  cases hAddrs : config.addrs with
  | none => rfl
  | some addrs =>
    simp only [Option.map_some, List.map_map]
    refine congrArg some ((List.map_congr_left fun addr hAddr => ?_).trans (List.map_id _))
    exact toValidUtf8_eq_self_iff.mpr (h addrs hAddrs addr hAddr)

/-- The snapshot restores the store in any other one. -/
theorem restore_getSnapshot (h : s.Utf8Addrs) (t : MetaStore) :
    t.restore json (s.getSnapshot json) = s := by
  simp only [restore, getSnapshot, json.dec_enc]
  -- the members are the shards in another order
  have hPerm : ((s.stateDoc.shards).map fun e =>
      (e.1, (⟨e.2.id, e.2.addrs.map (·.map Subtype.val)⟩ : ShardConfig))).Perm
        s.shards.entries := by
    refine ((List.perm_insertionSort _ _).map _).trans (List.Perm.of_eq ?_)
    rw [List.map_map]
    refine (List.map_congr_left fun e he => ?_).trans (List.map_id _)
    have hAddrs := map_ofBytes (h e.1 e.2 (SortedMap.mem_entries_iff.mp he))
    simp only [Function.comp_apply, hAddrs, id]
  rw [SortedMap.insertAll_of_perm hPerm]
  rfl

/-! ## What the log keeps -/

variable {unmarshal : Slice → Option Command} {entry : Entry} {s' : MetaStore}

theorem shards_splitRange {key : Slice} {shardID1 shardID2 : UInt64}
    (h : s.splitRange key shardID1 shardID2 = some s') : s'.shards = s.shards := by
  simp only [splitRange, Option.bind_eq_bind, Option.bind_eq_some_iff] at h
  obtain ⟨idx, -, targetRange, -, h⟩ := h
  split_ifs at h
  all_goals
    cases h
    rfl

theorem utf8Addrs_apply
    (hUnmarshal : ∀ cmd, unmarshal entry.data = some cmd → cmd.shard.Utf8)
    (hOld : s.Utf8Addrs) (h : s.apply unmarshal entry = some s') : s'.Utf8Addrs := by
  unfold apply at h
  split at h
  · cases h
    exact hOld
  · next cmd hCmd =>
    split_ifs at h
    · cases h
      intro id config hFind
      rw [SortedMap.find?_insert] at hFind
      split_ifs at hFind
      · cases hFind
        exact hUnmarshal cmd hCmd
      · exact hOld id config hFind
    · cases h
      exact hOld
    · rw [Utf8Addrs, shards_splitRange h]
      exact hOld
    · cases h
      exact hOld

end MetaStore

/-! ## The state machine -/

/-- What `json.Unmarshal` guarantees: the strings of a command are valid UTF-8. -/
def DecodesUtf8 (unmarshal : Slice → Option Command) : Prop :=
  ∀ data cmd, unmarshal data = some cmd → cmd.shard.Utf8

/-- `MetaStore` as the state machine of a raft node; `none` is a process that a panic ended. -/
def applier (json : Codec StateDoc) (unmarshal : Slice → Option Command) :
    Applier (Option MetaStore) where
  apply s entry := s.bind (·.apply unmarshal entry)
  getSnapshot s := s.map fun s => some (s.getSnapshot json)
  restore s data := s.map (·.restore json (data.getD []))

/-- The entries that a node hands to its state machine. -/
def isCommand (entry : Entry) : Bool := entry.type = .normal ∧ (entry.data.getD []).length > 0

section Log

variable {json : Codec StateDoc} {unmarshal : Slice → Option Command} {s : MetaStore}
  {entries log : List Entry}

theorem applyCommitted_applier :
    applyCommitted (applier json unmarshal) (some s) entries =
      s.applyAll unmarshal (entries.filter isCommand) := by
  have hFold : ∀ o : Option MetaStore, applyCommitted (applier json unmarshal) o entries =
      o.bind fun s => s.applyAll unmarshal (entries.filter isCommand) := by
    induction entries with
    | nil =>
      intro o
      cases o <;> rfl
    | cons entry entries ih =>
      intro o
      rw [applyCommitted, List.foldl_cons, ← applyCommitted, ih]
      cases o with
      | none =>
        split_ifs <;> rfl
      | some s =>
        by_cases hCommand : entry.type = .normal ∧ (entry.data.getD []).length > 0
        · rw [if_pos hCommand, List.filter_cons_of_pos (by simpa [isCommand] using hCommand)]
          rfl
        · rw [if_neg hCommand, List.filter_cons_of_neg (by simpa [isCommand] using hCommand)]
  exact hFold (some s)

/-- A log leads to a store whose starts are in order and whose addresses are valid. -/
theorem exists_applyAll (hUnmarshal : DecodesUtf8 unmarshal) (entries : List Entry) :
    ∃ s, newMetaStore.applyAll unmarshal entries = some s ∧ s.Utf8Addrs ∧
      Tiling.Ordered Range.start s.ranges := by
  induction entries using List.reverseRecOn with
  | nil =>
    refine ⟨newMetaStore, rfl, ?_, ordered_new⟩
    intro id config hFind
    cases hFind
  | append_singleton entries entry ih =>
    obtain ⟨s, hAll, hUtf8, hOrdered⟩ := ih
    obtain ⟨s', hApply, hOrdered'⟩ := @ordered_apply unmarshal s hOrdered entry
    refine ⟨s', ?_, MetaStore.utf8Addrs_apply (hUnmarshal _) hUtf8 hApply, hOrdered'⟩
    rw [MetaStore.applyAll] at hAll ⊢
    rw [List.foldlM_append, hAll]
    simpa using hApply

theorem stateAt_applier (i : Nat) :
    stateAt (applier json unmarshal) (some newMetaStore) log i =
      newMetaStore.applyAll unmarshal ((log.take i).filter isCommand) :=
  applyCommitted_applier

theorem faithful_applier (hUnmarshal : DecodesUtf8 unmarshal) :
    Faithful (applier json unmarshal) (some newMetaStore) log := by
  intro i data hSnapshot j
  obtain ⟨s, hs, hUtf8, -⟩ := exists_applyAll hUnmarshal ((log.take i).filter isCommand)
  obtain ⟨t, ht, -, -⟩ := exists_applyAll hUnmarshal ((log.take j).filter isCommand)
  rw [stateAt_applier, hs] at hSnapshot
  rw [stateAt_applier, stateAt_applier, hs, ht]
  cases hSnapshot
  exact congrArg some (MetaStore.restore_getSnapshot hUtf8 t)

/-- At any time, after batches of commands, snapshots of other replicas and early restarts in any
interleaving, the store of a replica is the one after the commands of the log up to the index it
has applied, and all replicas at this index have the same store. Its ranges partition the keys if
every split up to there has a key. -/
theorem replicas_agree {ι : Type} [DecidableEq ι] {enc : Raft.Encoding}
    (hUnmarshal : DecodesUtf8 unmarshal) (hLog : Contiguous 1 log) {g : Group ι (Option MetaStore)}
    (h : Reaches (Group.next enc (applier json unmarshal) (some newMetaStore) log)
      (fun _ l => l.SnapshotAlone) (Group.start (some newMetaStore)) g) (i : ι) :
    let commands := (log.take (g.replicas i).applied).filter isCommand
    ∃ s, (g.replicas i).node.state = some s ∧
      newMetaStore.applyAll unmarshal commands = some s ∧
      (∀ j, (g.replicas j).applied = (g.replicas i).applied →
        (g.replicas j).node.state = some s) ∧
      (HasSplitKeys unmarshal commands → Partition s.ranges) := by
  intro commands
  have hState := Raft.state_of_reaches hLog (faithful_applier hUnmarshal) h
  obtain ⟨s, hs, -, -⟩ := exists_applyAll hUnmarshal commands
  refine ⟨s, ?_, hs, fun j hj => ?_, fun hKeys => ?_⟩
  · rw [hState, stateAt_applier, hs]
  · rw [hState, hj, stateAt_applier, hs]
  · obtain ⟨s', hs', hTiles⟩ := tiles_applyAll tiles_new hKeys
    obtain rfl : s = s' := Option.some.inj (hs.symm.trans hs')
    exact partition_of_tiles hTiles

end Log

/-! ## The text of a snapshot -/

/-- `{"StartKey":…,"EndKey":…,"ShardID":…}`. -/
def rangeField : WireField Range :=
  (((sliceField.tagged (ascii "\x7b\"StartKey\":")).pair
    (sliceField.tagged (ascii ",\"EndKey\":"))).pair
    ((numberField 125 rfl).tagged (ascii ",\"ShardID\":"))).imap
    (fun p => ⟨p.1.1, p.1.2, p.2⟩) (fun r => ((r.startKey, r.endKey), r.shardID)) fun _ => rfl

theorem rangeField_first (r : Range) : ∃ c t, rangeField.enc r = c :: t ∧ c ≠ 93 :=
  ⟨123, _, rfl, by decide⟩

/-- `"1":{"ID":…,"Addrs":[…]}`, or `null` for the addresses. -/
def shardField : WireField (UInt64 × ShardDoc) :=
  (((((numberField 34 rfl).tagged (ascii "\"")).pair
    ((numberField 44 rfl).tagged (ascii ":\x7b\"ID\":"))).pair
    (nullableStrings.tagged (ascii "\"Addrs\":"))).pair (WireField.literal (ascii "\x7d"))).imap
    (fun p => (p.1.1.1, ⟨p.1.1.2, p.1.2⟩)) (fun e => (((e.1, e.2.id), e.2.addrs), ()))
    fun _ => rfl

theorem shardField_first (e : UInt64 × ShardDoc) : ∃ c t, shardField.enc e = c :: t ∧ c ≠ 125 :=
  ⟨34, _, rfl, by decide⟩

/-- `{"Ranges":[…],"Shards":{…}}`. -/
def stateText : Codec StateDoc :=
  ((((sequence rangeField 93 91 bracket_ne_comma rangeField_first).tagged
    (ascii "\x7b\"Ranges\":")).pair
    ((sequence shardField 125 123 brace_ne_comma shardField_first).tagged
      (ascii ",\"Shards\":"))).pair (WireField.literal (ascii "\x7d"))).imap
    (fun p => ⟨p.1.1, p.1.2⟩) (fun st => ((st.ranges, st.shards), ())) (fun _ => rfl) |>.toCodec

/-- Shard 10 comes before shard 2, and has been registered without addresses. -/
example : (⟨[⟨none, some (ascii "m"), 1⟩, ⟨some (ascii "m"), none, 2⟩],
      SortedMap.empty.insertAll [(2, ⟨2, some [ascii "b"]⟩), (10, ⟨10, none⟩)]⟩ :
        MetaStore).getSnapshot stateText =
    ascii ("\x7b\"Ranges\":[\x7b\"StartKey\":null,\"EndKey\":\"bQ==\",\"ShardID\":1\x7d," ++
      "\x7b\"StartKey\":\"bQ==\",\"EndKey\":null,\"ShardID\":2\x7d]," ++
      "\"Shards\":\x7b\"10\":\x7b\"ID\":10,\"Addrs\":null\x7d," ++
      "\"2\":\x7b\"ID\":2,\"Addrs\":[\"b\"]\x7d\x7d\x7d") := by
  decide +kernel

/-! ## A lagging replica -/

/-- A split and enough empty entries for a snapshot. -/
def longLog : List Entry :=
  ⟨1, 1, .normal, some (ascii "m")⟩ :: (List.range 52).map fun i => ⟨1, i + 2, .normal, none⟩

/-- The first replica applies the log; the second one starts again and gets the snapshot. -/
def catchUp : List (Raft.GroupLabel (Fin 2)) :=
  [.ready 0 ⟨longLog, ⟨1, 1, 53⟩, Raft.Snapshot.zero, longLog⟩, .restart 1,
    .ready 1 ⟨[], ⟨1, 1, 53⟩,
      ⟨some (MetaStore.getSnapshot stateText
        ⟨[⟨none, some (ascii "m"), 2⟩, ⟨some (ascii "m"), none, 3⟩], SortedMap.empty⟩),
        ⟨Raft.runConfState, 53, 1⟩⟩, []⟩]

theorem decodesUtf8_unmarshalSplit : DecodesUtf8 unmarshalSplit := by
  intro data cmd hCmd addrs hAddrs
  unfold unmarshalSplit at hCmd
  split at hCmd
  · cases hCmd
  · cases hCmd
    cases hAddrs
  · cases hCmd
    cases hAddrs

theorem hasSplitKeys_longLog : HasSplitKeys unmarshalSplit longLog := by
  rintro entry hEntry cmd ⟨hCmd, -⟩ hNil
  rcases List.mem_cons.mp hEntry with rfl | hEmpty
  · cases hCmd
    cases hNil
  · obtain ⟨i, -, rfl⟩ := List.mem_map.mp hEmpty
    cases hCmd

theorem replicas_agree_catchUp :
    ∃ g s, runLabels (Group.next Raft.plainEncoding (applier stateText unmarshalSplit)
        (some newMetaStore) longLog) (Group.start (some newMetaStore)) catchUp = some g ∧
      (g.replicas 1).applied = 53 ∧ (g.replicas 1).node.state = some s ∧
      (g.replicas 0).node.state = some s ∧ Partition s.ranges ∧
      s.getShard (ascii "z") = some 3 := by
  have hRuns : (runLabels (Group.next Raft.plainEncoding (applier stateText unmarshalSplit)
      (some newMetaStore) longLog) (Group.start (some newMetaStore)) catchUp).map
        (fun g => ((g.replicas 0).applied, (g.replicas 1).applied)) = some (53, 53) := by
    decide +kernel
  obtain ⟨g, hRun, hApplied⟩ := Option.map_eq_some_iff.mp hRuns
  obtain ⟨hFirst, hSecond⟩ := Prod.mk.inj hApplied
  have hAlone : ∀ l ∈ catchUp, l.SnapshotAlone := by decide +kernel
  have hReach := @reaches_of_runLabels _ _ _ (fun _ l => l.SnapshotAlone) _ _ _ hRun
    (allAllowed_of_forall_mem fun l hl _ => hAlone l hl)
  obtain ⟨s, hState, hAll, hSame, hPartition⟩ := replicas_agree decodesUtf8_unmarshalSplit
    (by decide +kernel) hReach 1
  refine ⟨g, s, hRun, hSecond, hState, hSame 0 (hFirst.trans hSecond.symm),
    hPartition fun entry hEntry => ?_, ?_⟩
  · exact hasSplitKeys_longLog entry (List.mem_of_mem_take (List.mem_of_mem_filter hEntry))
  rw [hSecond] at hAll
  have hLeads : newMetaStore.applyAll unmarshalSplit ((longLog.take 53).filter isCommand) =
      some ⟨[⟨none, some (ascii "m"), 2⟩, ⟨some (ascii "m"), none, 3⟩], SortedMap.empty⟩ := by
    decide +kernel
  rw [hLeads] at hAll
  cases hAll
  decide

end ShardDB.Meta
