import ShardDB.Lib.Json
import ShardDB.Sql.Executor

/-!
# Log entries of a shard

The `/txn/*` handlers of `cmd/shard-node/main.go` write requests as text and propose the
text as a log entry; `ApplierAdapter.Apply` reads the text of a committed entry and calls
the engine. Reading (`decode`) and calling (`Command.exec`) are kept apart here, so that
what an entry does is told by the engine calls it stands for (`Command.calls`).

The fields of a `PREPARE`, `COMMIT` or `ABORT` entry are separated by spaces and not
quoted, so they are read back when they contain no space. The body of a `ONESHOT` entry is
JSON, whose strings are valid UTF-8.
-/

namespace ShardDB.Shard

open ShardDB.Lib ShardDB.Storage ShardDB.Sql

/-! ## The body of a one-shot request -/

/-- An operation of a one-shot request. -/
structure OneShotOp where
  key : JsonString
  val : JsonString
  deriving DecidableEq

/-- The JSON body of a one-shot request. -/
structure OneShotReq where
  txn : JsonString
  ts : UInt64
  ops : List OneShotOp
  deriving DecidableEq

/-- What the shard and the coordinator use from outside: the SQL parser and
`encoding/json` for the one-shot request. `json.Unmarshal` leaves in the request what it
could read, and its error is not looked at. -/
structure Libs where
  parseToPlan : Bytes → Except Bytes PlanNode
  marshal : OneShotReq → Bytes
  unmarshal : Bytes → OneShotReq
  unmarshal_marshal : ∀ req, unmarshal (marshal req) = req

/-- `{"key":…,"val":…}`. -/
def opField : WireField OneShotOp :=
  (((stringField.tagged (ascii "\x7b\"key\":")).pair (stringField.tagged (ascii ",\"val\":"))).pair
    (WireField.literal (ascii "\x7d"))).imap
    (fun p => ⟨p.1.1, p.1.2⟩) (fun op => ((op.key, op.val), ())) fun _ => rfl

/-- `{"txn":…,"ts":…,"ops":[…]}`. -/
def reqField : WireField OneShotReq :=
  (((stringField.tagged (ascii "\x7b\"txn\":")).pair (decimalField.tagged (ascii ",\"ts\":"))).pair
    (((sequence opField 93 91 (by decide) fun _ => ⟨123, _, rfl, by decide⟩).tagged
      (ascii "\"ops\":")).pair (WireField.literal (ascii "\x7d")))).imap
    (fun p => ⟨p.1.1, UInt64.ofNat p.1.2, p.2.1⟩)
    (fun req => ((req.txn, req.ts.toNat), (req.ops, ()))) fun req => by simp

/-- The libraries with the compact text that `json.Marshal` writes. -/
def compactJson (parseToPlan : Bytes → Except Bytes PlanNode) : Libs where
  parseToPlan := parseToPlan
  marshal := reqField.toCodec.enc
  unmarshal data := (reqField.toCodec.dec data).getD ⟨JsonString.ofBytes [], 0, []⟩
  unmarshal_marshal req := by rw [reqField.toCodec.dec_enc]; rfl

/-! ## Scanning a timestamp -/

/-- The length of the white space rune at the front of a text, zero if there is none. -/
def spaceLen : Bytes → Nat
  | 0xC2 :: b :: _ => if b == 0x85 || b == 0xA0 then 2 else 0
  | 0xE1 :: 0x9A :: 0x80 :: _ => 3
  | 0xE2 :: 0x80 :: b :: _ =>
    if (0x80 ≤ b && b ≤ 0x8A) || b == 0xA8 || b == 0xA9 || b == 0xAF then 3 else 0
  | 0xE2 :: 0x81 :: 0x9F :: _ => 3
  | 0xE3 :: 0x80 :: 0x80 :: _ => 3
  | b :: _ => if (9 ≤ b && b ≤ 13) || b == 32 then 1 else 0
  | [] => 0

/-- Skip white space; a newline is an error. -/
def skipSpace : Nat → Bytes → Option Bytes
  | 0, text => some text
  | fuel + 1, text =>
    if text.head? = some 10 then none
    else if spaceLen text = 0 then some text
    else skipSpace fuel (text.drop (spaceLen text))

/-- The variable that `fmt.Sscanf(text, "%d", &ts)` leaves: zero when no number that fits
is found. -/
def sscanfUint (text : Bytes) : UInt64 :=
  match skipSpace text.length text with
  | none => 0
  | some rest =>
    let digits := rest.takeWhile isDigit
    if digits = [] ∨ 2 ^ 64 ≤ digitsValue digits then 0 else UInt64.ofNat (digitsValue digits)

/-- A digit is no white space and no first byte of a longer white space character. -/
theorem not_space_of_isDigit {c : UInt8} (h : isDigit c = true) :
    c ≠ 10 ∧ c ≠ 0xC2 ∧ c ≠ 0xE1 ∧ c ≠ 0xE2 ∧ c ≠ 0xE3 ∧
      ((9 ≤ c && c ≤ 13) || c == 32) = false := by
  have hLow : 48 ≤ c.toNat ∧ c.toNat ≤ 57 := by
    simpa [isDigit, UInt8.le_iff_toNat_le] using h
  simp only [ne_eq, ← UInt8.toNat_inj, UInt8.reduceToNat, UInt8.le_iff_toNat_le,
    Bool.or_eq_false_iff, Bool.and_eq_false_imp, decide_eq_true_eq, decide_eq_false_iff_not,
    not_le, beq_eq_false_iff_ne]
  omega

theorem skipSpace_of_digit {text : Bytes} (h : ∀ c, text.head? = some c → isDigit c = true)
    (fuel : Nat) : skipSpace fuel text = some text := by
  cases fuel with
  | zero => rfl
  | succ fuel =>
    cases text with
    | nil => rfl
    | cons c rest =>
      obtain ⟨h₁, h₂, h₃, h₄, h₅, h₆⟩ := not_space_of_isDigit (h c rfl)
      have hLen : spaceLen (c :: rest) = 0 := by
        simp [spaceLen, h₂, h₃, h₄, h₅, h₆]
      simp [skipSpace, h₁, hLen]

theorem sscanfUint_decimal (ts : UInt64) : sscanfUint (decimal ts.toNat) = ts := by
  have hDigits : ∀ c ∈ decimal ts.toNat, isDigit c = true := fun c hc => isDigit_of_mem_decimal hc
  have hTake : (decimal ts.toNat).takeWhile isDigit = decimal ts.toNat :=
    List.takeWhile_eq_self_iff.mpr hDigits
  have hSkip : skipSpace (decimal ts.toNat).length (decimal ts.toNat) = some (decimal ts.toNat) :=
    skipSpace_of_digit (fun c hc => hDigits c (List.mem_of_mem_head? hc)) _
  have hSmall := ts.toNat_lt
  simp only [sscanfUint, hSkip, hTake, digitsValue_decimal, decimal_ne_nil, false_or]
  rw [if_neg (by omega), UInt64.ofNat_toNat]

/-! ## Commands -/

/-- What an entry asks for. -/
inductive Command where
  | prepare (key value txnID : Bytes)
  | commit (key txnID : Bytes) (ts : UInt64)
  | abort (key txnID : Bytes)
  | oneShot (req : OneShotReq)
  | sql (plan : PlanNode)
  | ignored
  deriving DecidableEq

/-- `strings.HasPrefix`. -/
def hasPrefix (s p : Bytes) : Bool := p.isPrefixOf s

/-- The branches of `Apply`, up to the engine call. -/
def decode (libs : Libs) (data : Bytes) : Command :=
  if hasPrefix data (ascii "PREPARE ") then
    match data.splitOn 32 with
    | [_, key, value, txnID] => .prepare key value txnID
    | _ => .ignored
  else if hasPrefix data (ascii "COMMIT ") then
    match data.splitOn 32 with
    | [_, key, txnID, ts] => .commit key txnID (sscanfUint ts)
    | _ => .ignored
  else if hasPrefix data (ascii "ABORT ") then
    match data.splitOn 32 with
    | [_, key, txnID] => .abort key txnID
    | _ => .ignored
  else if hasPrefix data (ascii "ONESHOT ") then
    .oneShot (libs.unmarshal (data.drop 8))
  else if hasPrefix data (ascii "SQL:") then
    match libs.parseToPlan (data.drop 4) with
    | .ok plan => .sql plan
    | .error _ => .ignored
  else .ignored

/-- The timestamp that `Apply` passes to the SQL executor. -/
def sqlTs : UInt64 := 100

def OneShotReq.batch (req : OneShotReq) : List BatchOp :=
  req.ops.map fun op => ⟨op.key.1, some op.val.1⟩

/-- The engine call of each branch of `Apply`. Errors are only logged. -/
def Command.exec (engine : MemoryStore) : Command → MemoryStore
  | prepare key value txnID => (engine.prepare key (some value) txnID).1
  | commit key txnID ts => (engine.commit key txnID ts).1
  | abort key txnID => (engine.abort key txnID).1
  | oneShot req => (engine.onePhaseCommit req.batch req.txn.1 req.ts).1
  | sql plan => (execute plan engine sqlTs).1
  | ignored => engine

/-- `ApplierAdapter.Apply` on the data of an entry. -/
def apply (libs : Libs) (engine : MemoryStore) (data : Bytes) : MemoryStore :=
  (decode libs data).exec engine

/-- Apply a log in order. -/
def applyAll (libs : Libs) (engine : MemoryStore) (log : List Bytes) : MemoryStore :=
  log.foldl (apply libs) engine

/-- The calls of the mutating engine methods that a command stands for. -/
def Command.calls : Command → List Call
  | prepare key value txnID => [.prepare key (some value) txnID]
  | commit key txnID ts => [.commit key txnID ts]
  | abort key txnID => [.abort key txnID]
  | oneShot req => [.onePhaseCommit req.batch req.txn.1 req.ts]
  | sql plan => plan.calls sqlTs
  | ignored => []

theorem Command.exec_eq_run (c : Command) (s : MemoryStore) : c.exec s = s.run c.calls := by
  cases c with
  | sql plan => exact execute_eq_run plan s sqlTs
  | _ => rfl

/-- The calls of a log. -/
def logCalls (libs : Libs) (log : List Bytes) : List Call :=
  log.flatMap fun data => (decode libs data).calls

theorem logCalls_cons (libs : Libs) (data : Bytes) (log : List Bytes) :
    logCalls libs (data :: log) = (decode libs data).calls ++ logCalls libs log := List.flatMap_cons

/-- A shard is a store that runs the calls of its log. -/
theorem applyAll_eq_run (libs : Libs) (s : MemoryStore) (log : List Bytes) :
    applyAll libs s log = s.run (logCalls libs log) := by
  induction log generalizing s with
  | nil => rfl
  | cons data log ih =>
    rw [logCalls_cons, MemoryStore.run, List.foldl_append]
    exact (ih _).trans (by rw [apply, Command.exec_eq_run]; rfl)

theorem applyAll_append (libs : Libs) (s : MemoryStore) (log log' : List Bytes) :
    applyAll libs s (log ++ log') = applyAll libs (applyAll libs s log) log' :=
  List.foldl_append ..

/-! ## Entries of the handlers -/

/-- The entry that `/txn/prepare` proposes. -/
def prepareEntry (key val txn : Bytes) : Bytes :=
  ascii "PREPARE " ++ key ++ ascii " " ++ val ++ ascii " " ++ txn

/-- The entry that `/txn/commit` proposes; `ts` is the text of the query parameter. -/
def commitEntry (key txn ts : Bytes) : Bytes :=
  ascii "COMMIT " ++ key ++ ascii " " ++ txn ++ ascii " " ++ ts

/-- The entry that `/txn/abort` proposes. -/
def abortEntry (key txn : Bytes) : Bytes := ascii "ABORT " ++ key ++ ascii " " ++ txn

/-- The entry that `/txn/oneshot` proposes. -/
def oneShotEntry (body : Bytes) : Bytes := ascii "ONESHOT " ++ body

theorem splitOn_fields {word : Bytes} {fields : List Bytes} (hWord : 32 ∉ word)
    (hFields : ∀ f ∈ fields, 32 ∉ f) :
    ([32].intercalate (word :: fields)).splitOn 32 = word :: fields := by
  refine List.splitOn_intercalate 32 ?_ (List.cons_ne_nil _ _)
  intro f hf
  rcases List.mem_cons.mp hf with rfl | hf
  · exact hWord
  · exact hFields f hf

theorem decode_prepareEntry (libs : Libs) {key val txn : Bytes} (hKey : 32 ∉ key)
    (hVal : 32 ∉ val) (hTxn : 32 ∉ txn) :
    decode libs (prepareEntry key val txn) = .prepare key val txn := by
  have hSplit : (prepareEntry key val txn).splitOn 32 = [ascii "PREPARE", key, val, txn] := by
    rw [← splitOn_fields (by decide) (by simp [hKey, hVal, hTxn])]
    simp [prepareEntry, List.intercalate, ascii]
  have hPrefix : hasPrefix (prepareEntry key val txn) (ascii "PREPARE ") = true := rfl
  rw [decode, if_pos hPrefix, hSplit]

theorem decode_commitEntry (libs : Libs) {key txn : Bytes} (hKey : 32 ∉ key) (hTxn : 32 ∉ txn)
    (ts : UInt64) : decode libs (commitEntry key txn (decimal ts.toNat)) = .commit key txn ts := by
  have hTs : 32 ∉ decimal ts.toNat := fun h => by
    have := isDigit_of_mem_decimal h
    revert this
    decide
  have hSplit : (commitEntry key txn (decimal ts.toNat)).splitOn 32 =
      [ascii "COMMIT", key, txn, decimal ts.toNat] := by
    rw [← splitOn_fields (by decide) (by simp [hKey, hTxn, hTs])]
    simp [commitEntry, List.intercalate, ascii]
  have hPrefix : hasPrefix (commitEntry key txn (decimal ts.toNat)) (ascii "COMMIT ") = true := rfl
  have hNot : hasPrefix (commitEntry key txn (decimal ts.toNat)) (ascii "PREPARE ") ≠ true := by
    simp [hasPrefix, commitEntry, ascii]
  rw [decode, if_neg hNot, if_pos hPrefix, hSplit]
  simp only [sscanfUint_decimal]

theorem decode_abortEntry (libs : Libs) {key txn : Bytes} (hKey : 32 ∉ key) (hTxn : 32 ∉ txn) :
    decode libs (abortEntry key txn) = .abort key txn := by
  have hSplit : (abortEntry key txn).splitOn 32 = [ascii "ABORT", key, txn] := by
    rw [← splitOn_fields (by decide) (by simp [hKey, hTxn])]
    simp [abortEntry, List.intercalate, ascii]
  have hPrefix : hasPrefix (abortEntry key txn) (ascii "ABORT ") = true := rfl
  have hNot : hasPrefix (abortEntry key txn) (ascii "PREPARE ") ≠ true ∧
      hasPrefix (abortEntry key txn) (ascii "COMMIT ") ≠ true := by
    simp [hasPrefix, abortEntry, ascii]
  rw [decode, if_neg hNot.1, if_neg hNot.2, if_pos hPrefix, hSplit]

theorem decode_oneShotEntry (libs : Libs) (req : OneShotReq) :
    decode libs (oneShotEntry (libs.marshal req)) = .oneShot req := by
  have hPrefix : hasPrefix (oneShotEntry (libs.marshal req)) (ascii "ONESHOT ") = true := rfl
  have hNot : hasPrefix (oneShotEntry (libs.marshal req)) (ascii "PREPARE ") ≠ true ∧
      hasPrefix (oneShotEntry (libs.marshal req)) (ascii "COMMIT ") ≠ true ∧
      hasPrefix (oneShotEntry (libs.marshal req)) (ascii "ABORT ") ≠ true := by
    simp [hasPrefix, oneShotEntry, ascii]
  have hDrop : (oneShotEntry (libs.marshal req)).drop 8 = libs.marshal req := rfl
  rw [decode, if_neg hNot.1, if_neg hNot.2.1, if_neg hNot.2.2, if_pos hPrefix, hDrop,
    libs.unmarshal_marshal]

end ShardDB.Shard
