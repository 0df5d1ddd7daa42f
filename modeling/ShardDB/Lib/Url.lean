import ShardDB.Lib.Bytes

/-!
# URLs and their queries

The text of a query component and its reader, as in the form encoding: letters, digits and
`-_.~` stand for themselves, a space is `+`, and every other byte is `%` with two hexadecimal
digits. A query is a list of `name=value` pieces joined by `&`; a piece that cannot be read is
skipped. A component that was written by `queryEscape`, or that needs no escape, is read back
(`Reads`), and so is a query of such components (`parseQuery_queryText`).

Of a URL only the scheme `http` is read, with a host that is a name and perhaps a port, and a path
without escapes. A URL with a control character, without a host or with a port that is no number is
refused.
-/

namespace ShardDB.Lib

/-! ## Components -/

/-- The bytes that stand for themselves. -/
def isUnreserved (c : UInt8) : Bool :=
  (97 ≤ c && c ≤ 122) || (65 ≤ c && c ≤ 90) || (48 ≤ c && c ≤ 57) ||
    c == 45 || c == 95 || c == 46 || c == 126

def upperHex (n : Nat) : UInt8 := if n < 10 then UInt8.ofNat (48 + n) else UInt8.ofNat (55 + n)

/-- The value of a hexadecimal digit of either case. -/
def unhex (c : UInt8) : Option Nat :=
  if 48 ≤ c && c ≤ 57 then some (c.toNat - 48)
  else if 97 ≤ c && c ≤ 102 then some (c.toNat - 87)
  else if 65 ≤ c && c ≤ 70 then some (c.toNat - 55)
  else none

def escapeQueryByte (c : UInt8) : Bytes :=
  if isUnreserved c then [c]
  else if c = 32 then [43]
  else [37, upperHex (c.toNat / 16), upperHex (c.toNat % 16)]

/-- `url.QueryEscape`. -/
def queryEscape (s : Bytes) : Bytes := s.flatMap escapeQueryByte

/-- `url.QueryUnescape`. -/
def queryUnescape : Bytes → Option Bytes
  | [] => some []
  | 37 :: a :: b :: rest => do
    let hi ← unhex a
    let lo ← unhex b
    let s ← queryUnescape rest
    return UInt8.ofNat (hi * 16 + lo) :: s
  | c :: rest =>
    if c = 37 then none
    else (queryUnescape rest).map ((if c = 43 then 32 else c) :: ·)

/-- A byte that the text of a component may consist of. -/
def isQueryByte (c : UInt8) : Bool := isUnreserved c || c == 43 || c == 37

theorem unhex_upperHex : ∀ n < 16, unhex (upperHex n) = some n := by decide

theorem isUnreserved_upperHex : ∀ n < 16, isUnreserved (upperHex n) = true := by decide

theorem queryUnescape_cons {c : UInt8} (h : c ≠ 37) (rest : Bytes) :
    queryUnescape (c :: rest) =
      (queryUnescape rest).map ((if c = 43 then 32 else c) :: ·) := by
  rw [queryUnescape, if_neg h]
  intro a b tail hc
  exact absurd hc h

theorem queryUnescape_unreserved {c : UInt8} (h : isUnreserved c = true) (rest : Bytes) :
    queryUnescape (c :: rest) = (queryUnescape rest).map (c :: ·) := by
  have hPercent : c ≠ 37 := by
    rintro rfl
    exact absurd h (by decide)
  have hPlus : c ≠ 43 := by
    rintro rfl
    exact absurd h (by decide)
  rw [queryUnescape_cons hPercent, if_neg hPlus]

theorem queryUnescape_escapeQueryByte (c : UInt8) (rest : Bytes) :
    queryUnescape (escapeQueryByte c ++ rest) = (queryUnescape rest).map (c :: ·) := by
  unfold escapeQueryByte
  split_ifs with hPlain hSpace
  · exact queryUnescape_unreserved hPlain rest
  · rw [hSpace]
    exact queryUnescape_cons (by decide) rest
  · have hc := c.toNat_lt
    have hByte : UInt8.ofNat (c.toNat / 16 * 16 + c.toNat % 16) = c := by
      apply UInt8.toNat_inj.mp
      rw [UInt8.toNat_ofNat']
      omega
    simp only [List.cons_append, List.nil_append, queryUnescape,
      unhex_upperHex _ (by omega : c.toNat / 16 < 16),
      unhex_upperHex _ (by omega : c.toNat % 16 < 16), Option.bind_eq_bind, Option.bind_some, hByte]
    cases queryUnescape rest <;> rfl

theorem isQueryByte_of_isUnreserved {c : UInt8} (h : isUnreserved c = true) :
    isQueryByte c = true := by
  simp [isQueryByte, h]

theorem isQueryByte_of_mem_queryEscape {s : Bytes} {c : UInt8} (h : c ∈ queryEscape s) :
    isQueryByte c = true := by
  obtain ⟨b, -, hb⟩ := List.mem_flatMap.mp h
  have hLt := b.toNat_lt
  unfold escapeQueryByte at hb
  split_ifs at hb with hPlain hSpace
  · rw [List.mem_singleton.mp hb]
    exact isQueryByte_of_isUnreserved hPlain
  · rw [List.mem_singleton.mp hb]
    rfl
  · simp only [List.mem_cons, List.not_mem_nil, or_false] at hb
    rcases hb with rfl | rfl | rfl
    · rfl
    · exact isQueryByte_of_isUnreserved (isUnreserved_upperHex _ (by omega))
    · exact isQueryByte_of_isUnreserved (isUnreserved_upperHex _ (by omega))

/-- The text of a component stands for a byte string. -/
structure Reads (text s : Bytes) : Prop where
  unescape : queryUnescape text = some s
  bytes : ∀ c ∈ text, isQueryByte c = true

theorem reads_queryEscape (s : Bytes) : Reads (queryEscape s) s := by
  refine ⟨?_, fun c hc => isQueryByte_of_mem_queryEscape hc⟩
  induction s with
  | nil => rfl
  | cons c s ih =>
    rw [queryEscape, List.flatMap_cons, queryUnescape_escapeQueryByte, ← queryEscape, ih]
    rfl

/-- A component that needs no escape. -/
theorem reads_of_unreserved {s : Bytes} (h : ∀ c ∈ s, isUnreserved c = true) : Reads s s := by
  refine ⟨?_, fun c hc => isQueryByte_of_isUnreserved (h c hc)⟩
  induction s with
  | nil => rfl
  | cons c s ih =>
    rw [queryUnescape_unreserved (h c List.mem_cons_self),
      ih fun c hc => h c (List.mem_cons_of_mem _ hc)]
    rfl

/-! ## Queries -/

/-- One round of `url.ParseQuery`: an empty piece, a piece with a semicolon and a piece that
cannot be unescaped are skipped. -/
def queryPair (piece : Bytes) : Option (Bytes × Bytes) :=
  if 59 ∈ piece ∨ piece = [] then none
  else do
    let name ← queryUnescape (piece.takeWhile (· ≠ 61))
    let value ← queryUnescape ((piece.dropWhile (· ≠ 61)).drop 1)
    return (name, value)

/-- `url.ParseQuery`, whose error is not looked at. -/
def parseQuery (query : Bytes) : List (Bytes × Bytes) := (query.splitOn 38).filterMap queryPair

/-- `Values.Get`: the first value of a name, or nothing. -/
def queryGet (query name : Bytes) : Bytes :=
  (((parseQuery query).find? fun p => p.1 = name).map Prod.snd).getD []

/-- A field of a query, with the text that its value is written as. -/
structure QueryField where
  name : Bytes
  text : Bytes
  value : Bytes
  name_unreserved : ∀ c ∈ name, isUnreserved c = true
  reads : Reads text value

/-- A field whose value is escaped. -/
def QueryField.escaped (name value : Bytes) (hName : ∀ c ∈ name, isUnreserved c = true) :
    QueryField := ⟨name, queryEscape value, value, hName, reads_queryEscape value⟩

/-- A field whose value is written as it is. -/
def QueryField.verbatim (name value : Bytes) (hName : ∀ c ∈ name, isUnreserved c = true)
    (hValue : ∀ c ∈ value, isUnreserved c = true) : QueryField :=
  ⟨name, value, value, hName, reads_of_unreserved hValue⟩

/-- The pieces `name=text`, joined by `&`. -/
def queryText (fields : List QueryField) : Bytes :=
  [38].intercalate (fields.map fun f => f.name ++ 61 :: f.text)

/-- No piece of a query contains a byte that is neither in a component nor an equals sign. -/
theorem not_mem_piece (f : QueryField) {c : UInt8} (hByte : isQueryByte c = false) (hc : c ≠ 61) :
    c ∉ f.name ++ 61 :: f.text := by
  intro h
  rcases List.mem_append.mp h with h | h
  · rw [isQueryByte_of_isUnreserved (f.name_unreserved c h)] at hByte
    cases hByte
  · rcases List.mem_cons.mp h with h | h
    · exact hc h
    · rw [f.reads.bytes c h] at hByte
      cases hByte

theorem queryPair_piece (f : QueryField) :
    queryPair (f.name ++ 61 :: f.text) = some (f.name, f.value) := by
  have hEquals : ∀ c ∈ f.name, decide (c ≠ 61) = true := by
    intro c hc
    simp only [ne_eq, decide_eq_true_eq]
    rintro rfl
    exact absurd (f.name_unreserved _ hc) (by decide)
  have hSemicolon : 59 ∉ f.name ++ 61 :: f.text := not_mem_piece f rfl (by decide)
  have hNil : f.name ++ 61 :: f.text ≠ [] := by simp
  rw [queryPair, if_neg (not_or.mpr ⟨hSemicolon, hNil⟩), List.takeWhile_append_of_pos hEquals,
    List.dropWhile_append_of_pos hEquals]
  simp [(reads_of_unreserved f.name_unreserved).unescape, f.reads.unescape]

/-- A query is read back field by field. -/
theorem parseQuery_queryText {fields : List QueryField} (h : fields ≠ []) :
    parseQuery (queryText fields) = fields.map fun f => (f.name, f.value) := by
  have hAmp : ∀ piece ∈ fields.map fun f => f.name ++ 61 :: f.text, 38 ∉ piece := by
    intro piece hPiece
    obtain ⟨f, -, rfl⟩ := List.mem_map.mp hPiece
    exact not_mem_piece f rfl (by decide)
  rw [parseQuery, queryText, List.splitOn_intercalate 38 hAmp (by simpa using h),
    List.filterMap_map]
  exact List.filterMap_eq_map_iff_forall_eq_some.mpr fun f _ => queryPair_piece f

theorem queryGet_queryText {fields : List QueryField} (h : fields ≠ []) (name : Bytes) :
    queryGet (queryText fields) name =
      ((fields.find? fun f => f.name = name).map QueryField.value).getD [] := by
  rw [queryGet, parseQuery_queryText h, List.find?_map, Option.map_map]
  rfl

theorem not_mem_queryText (fields : List QueryField) {c : UInt8} (hByte : isQueryByte c = false)
    (hEquals : c ≠ 61) (hAmp : c ≠ 38) : c ∉ queryText fields := by
  induction fields with
  | nil => exact List.not_mem_nil
  | cons f fields ih =>
    cases fields with
    | nil => simpa [queryText] using not_mem_piece f hByte hEquals
    | cons g fields =>
      have hCons : queryText (f :: g :: fields) =
          (f.name ++ 61 :: f.text) ++ 38 :: queryText (g :: fields) := by
        simp [queryText, List.intercalate]
      rw [hCons]
      intro h
      rcases List.mem_append.mp h with h | h
      · exact not_mem_piece f hByte hEquals h
      · rcases List.mem_cons.mp h with h | h
        · exact hAmp h
        · exact ih h

/-! ## URLs -/

/-- The parts of a URL that a client uses: whom it asks, and what for. -/
structure Target where
  host : Bytes
  path : Bytes
  query : Bytes
  deriving DecidableEq

def isControl (c : UInt8) : Bool := c < 32 || c == 127

/-- A byte of a host name with a port. -/
def isHostByte (c : UInt8) : Bool := isUnreserved c || c == 58

/-- A host that a client can ask: a name, and digits after a colon if there is one. -/
def isHost (host : Bytes) : Bool :=
  !host.isEmpty && (host.takeWhile (· ≠ 58)).all isUnreserved &&
    ((host.dropWhile (· ≠ 58)).drop 1).all fun c => 48 ≤ c && c ≤ 57

/-- A byte of a path without escapes. -/
def isPathByte (c : UInt8) : Bool := isUnreserved c || c == 47

/-- `url.Parse` of a URL with the scheme `http`, for a client. A fragment is cut off. Hosts in
brackets, escapes in the host or the path and user names are not read here, and count as refused. -/
def parseURL (u : Bytes) : Option Target :=
  let u := u.takeWhile (· ≠ 35)
  let rest := u.takeWhile (· ≠ 63)
  let host := (rest.drop 7).takeWhile (· ≠ 47)
  let path := (rest.drop 7).dropWhile (· ≠ 47)
  if u.any isControl then none
  else if (ascii "http://").isPrefixOf rest && isHost host && path.all isPathByte then
    some ⟨host, path, (u.dropWhile (· ≠ 63)).drop 1⟩
  else none

example : parseURL (ascii "http://a:b/execute") = none ∧
    parseURL (ascii "http:///execute") = none ∧
    parseURL (ascii "http://a:80/execute?x") =
      some ⟨ascii "a:80", ascii "/execute", ascii "x"⟩ := by
  decide

theorem isHostByte_of_isHost {host : Bytes} (h : isHost host = true) :
    ∀ c ∈ host, isHostByte c = true := by
  simp only [isHost, Bool.and_eq_true, List.all_eq_true] at h
  obtain ⟨⟨-, hName⟩, hPort⟩ := h
  intro c hc
  rw [← @List.takeWhile_append_dropWhile _ (· ≠ 58) host] at hc
  rcases List.mem_append.mp hc with hc | hc
  · rw [isHostByte, hName c hc, Bool.true_or]
  · cases hRest : host.dropWhile (· ≠ 58) with
    | nil =>
      rw [hRest] at hc
      cases hc
    | cons b port =>
      have hColon : b = 58 := by
        have hNe : host.dropWhile (· ≠ 58) ≠ [] := by
          rw [hRest]
          exact List.cons_ne_nil _ _
        have hHead := List.head_dropWhile_not _ hNe
        simp only [hRest, List.head_cons] at hHead
        simpa using hHead
      rw [hRest] at hc hPort
      rcases List.mem_cons.mp hc with rfl | hc
      · rw [hColon]
        rfl
      · have hDigit := hPort c hc
        simp [isHostByte, isUnreserved, hDigit]

/-- The bytes of a host and of a path belong neither to a query nor to a fragment. -/
theorem isPart_of_hostPath {c : UInt8} (h : isHostByte c = true ∨ isPathByte c = true) :
    c ≠ 35 ∧ c ≠ 63 ∧ isControl c = false := by
  simp only [isHostByte, isPathByte, isUnreserved, isControl, UInt8.le_iff_toNat_le,
    UInt8.lt_iff_toNat_lt, Bool.or_eq_true, Bool.and_eq_true, decide_eq_true_eq, beq_iff_eq,
    ne_eq, Bool.or_eq_false_iff, decide_eq_false_iff_not, beq_eq_false_iff_ne, ← UInt8.toNat_inj,
    UInt8.reduceToNat] at h ⊢
  omega

/-- The query of a URL with its question mark. -/
def queryPart : Option Bytes → Bytes
  | none => []
  | some query => 63 :: query

theorem takeWhile_queryPart (front : Bytes) (query : Option Bytes) (h : 63 ∉ front) :
    (front ++ queryPart query).takeWhile (· ≠ 63) = front ∧
      ((front ++ queryPart query).dropWhile (· ≠ 63)).drop 1 = query.getD [] := by
  have hAll : ∀ c ∈ front, decide (c ≠ 63) = true := by
    intro c hc
    simp only [ne_eq, decide_eq_true_eq]
    rintro rfl
    exact h hc
  rw [List.takeWhile_append_of_pos hAll, List.dropWhile_append_of_pos hAll]
  cases query <;> simp [queryPart]

theorem parseURL_parts {host path : Bytes} {query : Option Bytes}
    (hHost : isHost host = true) (hPath : ∀ c ∈ path, isPathByte c = true)
    (hQuery : ∀ c ∈ query.getD [], c ≠ 35 ∧ isControl c = false) :
    parseURL (ascii "http://" ++ (host ++ 47 :: path) ++ queryPart query) =
      some ⟨host, 47 :: path, query.getD []⟩ := by
  have hBytes := isHostByte_of_isHost hHost
  have hFront : ∀ c ∈ ascii "http://" ++ (host ++ 47 :: path),
      c ≠ 35 ∧ c ≠ 63 ∧ isControl c = false := by
    intro c hc
    simp only [List.mem_append, List.mem_cons] at hc
    rcases hc with hc | hc | rfl | hc
    · revert c
      decide +kernel
    · exact isPart_of_hostPath (Or.inl (hBytes c hc))
    · decide
    · exact isPart_of_hostPath (Or.inr (hPath c hc))
  have hAll : ∀ c ∈ ascii "http://" ++ (host ++ 47 :: path) ++ queryPart query,
      c ≠ 35 ∧ isControl c = false := by
    intro c hc
    rcases List.mem_append.mp hc with hc | hc
    · exact ⟨(hFront c hc).1, (hFront c hc).2.2⟩
    · cases query with
      | none => cases hc
      | some query =>
        rcases List.mem_cons.mp hc with rfl | hc
        · decide
        · exact hQuery c hc
  have hWhole := List.takeWhile_eq_self_iff.mpr fun c hc => decide_eq_true (hAll c hc).1
  have hControl : (ascii "http://" ++ (host ++ 47 :: path) ++ queryPart query).any isControl =
      false := by
    rw [List.any_eq_false]
    intro c hc
    rw [(hAll c hc).2]
    exact Bool.false_ne_true
  obtain ⟨hRest, hText⟩ := takeWhile_queryPart (ascii "http://" ++ (host ++ 47 :: path)) query
    fun h => (hFront 63 h).2.1 rfl
  have hScheme : (ascii "http://").isPrefixOf (ascii "http://" ++ (host ++ 47 :: path)) = true :=
    List.isPrefixOf_iff_prefix.mpr (List.prefix_append _ _)
  have hDrop : (ascii "http://" ++ (host ++ 47 :: path)).drop 7 = host ++ 47 :: path := rfl
  have hSlash : ∀ c ∈ host, decide (c ≠ 47) = true := by
    intro c hc
    simp only [ne_eq, decide_eq_true_eq]
    rintro rfl
    exact absurd (hBytes _ hc) (by decide)
  have hHostPart : (host ++ 47 :: path).takeWhile (· ≠ 47) = host := by
    rw [List.takeWhile_append_of_pos hSlash]
    simp
  have hPathPart : (host ++ 47 :: path).dropWhile (· ≠ 47) = 47 :: path := by
    rw [List.dropWhile_append_of_pos hSlash]
    simp
  have hPathBytes : (47 :: path).all isPathByte = true := by
    rw [List.all_cons, List.all_eq_true.mpr hPath]
    rfl
  simp only [parseURL, hWhole, hControl, hRest, hText, hScheme, hDrop, hHostPart, hPathPart, hHost,
    hPathBytes, Bool.and_self, if_true, Bool.false_eq_true, if_false]

theorem isQueryByte_of_isControl {c : UInt8} (h : isControl c = true) :
    isQueryByte c = false ∧ c ≠ 61 ∧ c ≠ 38 := by
  simp only [isQueryByte, isUnreserved, isControl, UInt8.le_iff_toNat_le, UInt8.lt_iff_toNat_lt,
    Bool.or_eq_true, decide_eq_true_eq, beq_iff_eq, ne_eq, Bool.or_eq_false_iff,
    Bool.and_eq_false_imp, decide_eq_false_iff_not, beq_eq_false_iff_ne, ← UInt8.toNat_inj,
    UInt8.reduceToNat] at h ⊢
  omega

/-- The fields of a query arrive with the URL. -/
theorem parseURL_queryText {host path : Bytes} (hHost : isHost host = true)
    (hPath : ∀ c ∈ path, isPathByte c = true) (fields : List QueryField) :
    parseURL (ascii "http://" ++ (host ++ 47 :: path) ++ 63 :: queryText fields) =
      some ⟨host, 47 :: path, queryText fields⟩ := by
  have hQuery : ∀ c ∈ queryText fields, c ≠ 35 ∧ isControl c = false := by
    intro c hc
    refine ⟨?_, ?_⟩
    · rintro rfl
      exact not_mem_queryText fields rfl (by decide) (by decide) hc
    · by_contra hControl
      obtain ⟨hByte, hEquals, hAmp⟩ := isQueryByte_of_isControl (Bool.not_eq_false _ ▸ hControl)
      exact not_mem_queryText fields hByte hEquals hAmp hc
  exact @parseURL_parts host path (some (queryText fields)) hHost hPath hQuery

theorem parseURL_relative (rest : Bytes) : parseURL (47 :: rest) = none := by
  simp [parseURL, ascii]

end ShardDB.Lib
