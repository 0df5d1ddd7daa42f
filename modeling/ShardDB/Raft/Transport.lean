import ShardDB.Shard.WireFormat

/-!
# Peers and the messages between them

The flag `-cluster` of the two node binaries lists the members of a raft group as `id=url`, joined
by commas. `cmd/meta-node/main.go` skips a part that does not split in two at `=`;
`cmd/shard-node/main.go` takes the first two pieces of each part and panics if there is only one. So
the two read a flag alike exactly when each part has one `=`, or when the flag is empty
(`peers_agree_iff`).

`HTTPTransport.Send` of `internal/raft/transport.go` posts a message to the address of its receiver
and drops it if the receiver has none. Members that are listed in the usual way all get the
messages that are for them (`send_clusterFlag`). The goroutines of one `Send` may be in any order;
here the posts are in the order of the messages.
-/

namespace ShardDB.Raft

open ShardDB.Lib ShardDB.Shard

/-! ## The flag -/

/-- The addresses that the transport gets, and the ids that go to raft. -/
structure Peers where
  urls : SortedMap UInt64 Bytes
  ids : List UInt64
  deriving DecidableEq

namespace Peers

def empty : Peers := ⟨SortedMap.empty, []⟩

def add (p : Peers) (id : UInt64) (url : Bytes) : Peers := ⟨p.urls.insert id url, p.ids ++ [id]⟩

end Peers

/-- One part of the flag, in `cmd/meta-node/main.go`. -/
def metaPart (p : Peers) (part : Bytes) : Peers :=
  match part.splitOn 61 with
  | [id, url] => p.add (sscanfUint id) url
  | _ => p

def metaPeers (cluster : Bytes) : Peers := (cluster.splitOn 44).foldl metaPart Peers.empty

/-- One part of the flag, in `cmd/shard-node/main.go`; nothing if `kv[1]` panics. -/
def shardPart (p : Peers) (part : Bytes) : Option Peers :=
  match part.splitOn 61 with
  | id :: url :: _ => some (p.add (sscanfUint id) url)
  | _ => none

def shardPeers (cluster : Bytes) : Option Peers :=
  if cluster = [] then some Peers.empty else (cluster.splitOn 44).foldlM shardPart Peers.empty

section Flag

variable {p p' : Peers} {part : Bytes} {parts : List Bytes}

theorem splitOn_of_count (h : part.count 61 = 1) : ∃ id url, part.splitOn 61 = [id, url] :=
  List.length_eq_two.mp (by rw [length_splitOn, h])

theorem shardPart_of_count (p : Peers) (h : part.count 61 = 1) :
    shardPart p part = some (metaPart p part) := by
  obtain ⟨id, url, hSplit⟩ := splitOn_of_count h
  rw [shardPart, metaPart, hSplit]

theorem ids_shardPart (h : shardPart p part = some p') : p'.ids.length = p.ids.length + 1 := by
  unfold shardPart at h
  split at h
  · cases h
    exact List.length_append
  · cases h

theorem ids_metaPart (p : Peers) (part : Bytes) :
    (metaPart p part).ids.length = p.ids.length + if part.count 61 = 1 then 1 else 0 := by
  split_ifs with hCount
  · obtain ⟨id, url, hSplit⟩ := splitOn_of_count hCount
    rw [metaPart, hSplit]
    exact List.length_append
  · unfold metaPart
    split
    · next id url hSplit =>
      have hLength := length_splitOn part 61
      rw [hSplit] at hLength
      exact absurd (Nat.succ.inj hLength).symm hCount
    · rfl

/-- `cmd/shard-node` has a member for each part. -/
theorem ids_shardParts (h : parts.foldlM shardPart p = some p') :
    p'.ids.length = p.ids.length + parts.length := by
  induction parts generalizing p with
  | nil =>
    cases h
    rfl
  | cons part parts ih =>
    obtain ⟨p₁, hPart, hRest⟩ := Option.bind_eq_some_iff.mp h
    rw [ih hRest, ids_shardPart hPart, List.length_cons]
    omega

/-- `cmd/meta-node` has a member for each part with one `=`. -/
theorem ids_metaParts (p : Peers) (parts : List Bytes) :
    (parts.foldl metaPart p).ids.length =
      p.ids.length + parts.countP fun part => part.count 61 = 1 := by
  induction parts generalizing p with
  | nil => rfl
  | cons part parts ih =>
    rw [List.foldl_cons, ih, ids_metaPart, List.countP_cons]
    simp only [decide_eq_true_eq]
    omega

theorem shardParts_of_count (h : ∀ part ∈ parts, part.count 61 = 1) (p : Peers) :
    parts.foldlM shardPart p = some (parts.foldl metaPart p) := by
  induction parts generalizing p with
  | nil => rfl
  | cons part parts ih =>
    rw [List.foldlM_cons, shardPart_of_count p (h part List.mem_cons_self), List.foldl_cons]
    exact ih (fun part hPart => h part (List.mem_cons_of_mem _ hPart)) _

/-- The two binaries read the flag alike exactly if it is empty or has one `=` in each part. -/
theorem peers_agree_iff (cluster : Bytes) :
    shardPeers cluster = some (metaPeers cluster) ↔
      cluster = [] ∨ ∀ part ∈ cluster.splitOn 44, part.count 61 = 1 := by
  by_cases hEmpty : cluster = []
  · subst hEmpty
    exact iff_of_true rfl (Or.inl rfl)
  · rw [shardPeers, if_neg hEmpty, or_iff_right hEmpty]
    constructor
    · intro h
      -- both have the same number of members
      have hLength := (ids_shardParts h).symm.trans (ids_metaParts Peers.empty _)
      have hAll := List.countP_eq_length.mp (Nat.add_left_cancel hLength).symm
      exact fun part hPart => of_decide_eq_true (hAll part hPart)
    · exact fun h => shardParts_of_count h _

end Flag

/-! ## Messages -/

/-- Where a message for a peer is posted. -/
def raftURL (url : Bytes) : Bytes :=
  if (ascii "/raft").isSuffixOf url then url else url ++ ascii "/raft"

/-- `Send`: the posts for messages, each with its receiver. -/
def send (urls : SortedMap UInt64 Bytes) (msgs : List (UInt64 × Bytes)) : List (Bytes × Bytes) :=
  msgs.filterMap fun m => (urls.find? m.1).map fun url => (raftURL url, m.2)

/-- The flag for a list of members. -/
def clusterFlag (members : List (UInt64 × Bytes)) : Bytes :=
  [44].intercalate (members.map fun e => [61].intercalate [decimal e.1.toNat, e.2])

section Messages

variable {members : List (UInt64 × Bytes)}

theorem not_mem_decimal {c : UInt8} (h : isDigit c = false) (n : Nat) : c ∉ decimal n := by
  intro hMem
  rw [isDigit_of_mem_decimal hMem] at h
  cases h

theorem splitOn_member (id : UInt64) {url : Bytes} (hUrl : 61 ∉ url) :
    ([61].intercalate [decimal id.toNat, url]).splitOn 61 = [decimal id.toNat, url] := by
  refine List.splitOn_intercalate 61 ?_ (List.cons_ne_nil _ _)
  simp only [List.mem_cons, List.not_mem_nil, or_false, forall_eq_or_imp, forall_eq]
  exact ⟨not_mem_decimal rfl _, hUrl⟩

theorem splitOn_clusterFlag (hNe : members ≠ []) (hUrls : ∀ e ∈ members, 44 ∉ e.2) :
    (clusterFlag members).splitOn 44 =
      members.map fun e => [61].intercalate [decimal e.1.toNat, e.2] := by
  refine List.splitOn_intercalate 44 (fun part hPart => ?_) (by simpa using hNe)
  obtain ⟨e, he, rfl⟩ := List.mem_map.mp hPart
  have hId := not_mem_decimal (c := 44) rfl e.1.toNat
  simp [List.intercalate, hId, hUrls e he]

theorem metaParts_members (hUrls : ∀ e ∈ members, 61 ∉ e.2) (p : Peers) :
    (members.map fun e => [61].intercalate [decimal e.1.toNat, e.2]).foldl metaPart p =
      ⟨p.urls.insertAll members, p.ids ++ members.map Prod.fst⟩ := by
  induction members generalizing p with
  | nil => simp [SortedMap.insertAll]
  | cons e members ih =>
    have hPart : metaPart p ([61].intercalate [decimal e.1.toNat, e.2]) = p.add e.1 e.2 := by
      rw [metaPart, splitOn_member e.1 (hUrls e List.mem_cons_self)]
      dsimp only
      rw [sscanfUint_decimal]
    rw [List.map_cons, List.foldl_cons, hPart, ih fun e he => hUrls e (List.mem_cons_of_mem _ he)]
    simp [Peers.add, SortedMap.insertAll]

theorem count_member (id : UInt64) {url : Bytes} (hUrl : 61 ∉ url) :
    ([61].intercalate [decimal id.toNat, url]).count 61 = 1 := by
  have hLength := length_splitOn ([61].intercalate [decimal id.toNat, url]) 61
  rw [splitOn_member id hUrl] at hLength
  exact (Nat.succ.inj hLength).symm

theorem peers_clusterFlag (hNe : members ≠ []) (hUrls : ∀ e ∈ members, 44 ∉ e.2 ∧ 61 ∉ e.2) :
    metaPeers (clusterFlag members) =
        ⟨SortedMap.empty.insertAll members, members.map Prod.fst⟩ ∧
      shardPeers (clusterFlag members) = some (metaPeers (clusterFlag members)) := by
  have hSplit := splitOn_clusterFlag hNe fun e he => (hUrls e he).1
  have hCount : ∀ part ∈ (clusterFlag members).splitOn 44, part.count 61 = 1 := by
    intro part hPart
    rw [hSplit] at hPart
    obtain ⟨e, he, rfl⟩ := List.mem_map.mp hPart
    exact count_member e.1 (hUrls e he).2
  have hFlag : clusterFlag members ≠ [] := by
    intro hNil
    rw [hNil] at hCount
    exact absurd (hCount [] (List.mem_singleton_self _)) (by decide)
  refine ⟨?_, ?_⟩
  · rw [metaPeers, hSplit, metaParts_members fun e he => (hUrls e he).2]
    rfl
  · rw [shardPeers, if_neg hFlag, shardParts_of_count hCount]
    rfl

/-- Each message with an address is posted. -/
theorem forall₂_send {urls : SortedMap UInt64 Bytes} {msgs : List (UInt64 × Bytes)}
    (h : ∀ m ∈ msgs, (urls.find? m.1).isSome) :
    List.Forall₂ (fun m post => post.2 = m.2 ∧
      ∀ url, urls.find? m.1 = some url → post.1 = raftURL url) msgs (send urls msgs) := by
  induction msgs with
  | nil => exact .nil
  | cons m msgs ih =>
    obtain ⟨url, hUrl⟩ := Option.isSome_iff_exists.mp (h m List.mem_cons_self)
    rw [send, List.filterMap_cons_some (by rw [hUrl, Option.map_some])]
    refine .cons ⟨rfl, fun url' hUrl' => ?_⟩ (ih fun m hm => h m (List.mem_cons_of_mem _ hm))
    rw [hUrl] at hUrl'
    cases hUrl'
    rfl

/-- Both binaries read the flag of a list of members, and every message for a member is posted once,
to the address of that member. -/
theorem send_clusterFlag (hNe : members ≠ []) (hUrls : ∀ e ∈ members, 44 ∉ e.2 ∧ 61 ∉ e.2)
    (hIds : (members.map Prod.fst).Nodup) :
    ∃ p, shardPeers (clusterFlag members) = some p ∧ metaPeers (clusterFlag members) = p ∧
      p.ids = members.map Prod.fst ∧
      ∀ msgs : List (UInt64 × Bytes), (∀ m ∈ msgs, m.1 ∈ p.ids) →
        List.Forall₂ (fun m post => post.2 = m.2 ∧
          ∀ url, (m.1, url) ∈ members → post.1 = raftURL url) msgs (send p.urls msgs) := by
  obtain ⟨hMeta, hShard⟩ := peers_clusterFlag hNe hUrls
  refine ⟨_, hShard, rfl, ?_, fun msgs hMsgs => ?_⟩
  · rw [hMeta]
  · rw [hMeta] at hMsgs ⊢
    have hFind : ∀ id url, (id, url) ∈ members →
        (SortedMap.empty.insertAll members).find? id = some url := by
      intro id url hMem
      rw [SortedMap.find?_insertAll, SortedMap.lastBinding_of_nodup hIds hMem]
      rfl
    refine (forall₂_send fun m hm => ?_).imp fun m post hPost => ⟨hPost.1, fun url hUrl => ?_⟩
    · obtain ⟨e, he, hId⟩ := List.mem_map.mp (hMsgs m hm)
      rw [← hId, hFind e.1 e.2 he]
      rfl
    · exact hPost.2 url (hFind m.1 url hUrl)

theorem send_clusterFlag_threeMetas :
    ∃ members : List (UInt64 × Bytes), members.length = 3 ∧
      ∃ p, shardPeers (clusterFlag members) = some p ∧ metaPeers (clusterFlag members) = p ∧
        p.ids = members.map Prod.fst ∧
        ∀ msgs : List (UInt64 × Bytes), (∀ m ∈ msgs, m.1 ∈ p.ids) →
          List.Forall₂ (fun m post => post.2 = m.2 ∧
            ∀ url, (m.1, url) ∈ members → post.1 = raftURL url) msgs (send p.urls msgs) :=
  ⟨[(1, ascii "http://localhost:8081"), (2, ascii "http://localhost:8082"),
      (3, ascii "http://localhost:8083/raft")], rfl,
    send_clusterFlag (by decide) (by decide) (by decide)⟩

end Messages

end ShardDB.Raft
