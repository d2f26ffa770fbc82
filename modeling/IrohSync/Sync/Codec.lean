import IrohSync.Lib.JsonDecode
import IrohSync.Lib.JsonRead
import IrohSync.Sync.FrameSize

/-!
# Encoding and decoding messages

A message is encoded as the text of its value, and decoded from what a library reads in a
text.  Changes, batches and messages are read out of a value as their serialization attributes
say, also from the arrays that nothing writes.

Main results:

- Theorem {lit}`Change.fromJson_toJson`: a change is read back from its value.
- Theorem {lit}`decodeMessage_encodeMessage`: a message is decoded from its encoding, and a batch
  whose changes have no metadata field is decoded with empty metadata.
-/

namespace IrohSync

open FileIo Json Text

/-! ## Reading values -/

/-- What the codec uses of libraries: the reader of JSON texts, the reader of identifiers, and
the account of why bytes are no message. -/
structure Readers where
  json : String → Option Value
  uuid : String → Option Uuid
  explain : Bytes → String

/-- The operation with a lower-case name. -/
def ChangeOperation.ofName : String → Option ChangeOperation
  | "query" => some .query
  | "set" => some .set
  | "delete" => some .delete
  | "commit" => some .commit
  | "schema" => some .schema
  | "auth" => some .auth
  | "livenotify" => some .liveNotify
  | _ => none

/-- An operation: its name, or an object with the name as its only field.  In a value that was
buffered an empty object does for the null of that field. -/
def ChangeOperation.fromJson (buffered : Bool) : Value → Option ChangeOperation
  | .str name => ofName name
  | .obj [(name, .null)] => ofName name
  | .obj [(name, .obj [])] => if buffered then ofName name else none
  | _ => none

variable (readers : Readers)

/-- A change; its metadata may be missing. -/
def Change.fromJson (buffered : Bool) (v : Value) : Option Change := do
  let fields ← v.record ["id", "timestamp", "namespace", "database", "table", "operation", "key",
    "value", "metadata"] 8
  let id ← required (fun v => v.text.bind readers.uuid) fields "id"
  let timestamp ← required Value.word fields "timestamp"
  let ns ← required Value.text fields "namespace"
  let database ← required Value.text fields "database"
  let table ← optionField Value.text fields "table"
  let operation ← required (ChangeOperation.fromJson buffered) fields "operation"
  let key ← optionField Value.octets fields "key"
  let value ← optionField Value.octets fields "value"
  let metadata ← defaulted Value.textMap [] fields "metadata"
  return {
    id := id
    timestamp := timestamp
    «namespace» := ns
    database := database
    table := table
    operation := operation
    key := key
    value := value
    metadata := metadata }

/-- A batch. -/
def ChangeBatch.fromJson (buffered : Bool) (v : Value) : Option ChangeBatch := do
  let fields ← v.record ["offset", "changes", "is_final"] 3
  let offset ← required Value.word fields "offset"
  let changes ← required (Value.items (Change.fromJson readers buffered)) fields "changes"
  let isFinal ← required Value.flag fields "is_final"
  return { offset := offset, changes := changes, isFinal := isFinal }

/-- The content of a request.  It has named fields in an enumeration, so it is never read from
an array. -/
def requestFromJson (v : Value) : Option SyncMessage := do
  let fields ← v.fields
  let offset ← required Value.word fields "offset"
  let limit ← optionField Value.word fields "limit"
  return .request offset limit

/-- The content of an acknowledgment. -/
def ackFromJson (v : Value) : Option SyncMessage := do
  let fields ← v.fields
  let offset ← required Value.word fields "offset"
  return .ack offset

/-- A message without content. -/
def bareFromJson (msg : SyncMessage) : Option Value → Option SyncMessage
  | none => some msg
  | some .null => some msg
  | some _ => none

/-- The message with a tag and a content. -/
def contentFromJson (buffered : Bool) (tag : String) (data : Option Value) : Option SyncMessage :=
  match tag with
  | "Request" => data.bind requestFromJson
  | "Response" => (data.bind (ChangeBatch.fromJson readers buffered)).map .response
  | "Ack" => data.bind ackFromJson
  | "Ping" => bareFromJson .ping data
  | "Pong" => bareFromJson .pong data
  | _ => none

/-- A tag: its name, or an object with the name as its only field. -/
def tagFromJson : Value → Option String
  | .str name => some name
  | .obj [(name, .null)] => some name
  | _ => none

/-- A message: its tag and its content as fields, or as the items of an array. -/
def SyncMessage.fromJson : Value → Option SyncMessage
  | .obj fields => do
      let tag ← required tagFromJson fields "type"
      let data ← field fields "data"
      -- a content in front of its tag is buffered until the tag is known
      let names := fields.map Prod.fst
      contentFromJson readers (decide (names.idxOf "data" < names.idxOf "type")) tag data
  | .arr [.str tag, data] => contentFromJson readers false tag (some data)
  | _ => none

/-! ## The codec -/

/-- Encode a sync message to bytes using JSON. -/
def encodeMessage (msg : SyncMessage) : Except String Bytes :=
  .ok msg.toJson.bytes

/-- Decode a sync message from bytes using JSON. -/
def decodeMessage (data : Bytes) : Except String SyncMessage :=
  match ((fromUtf8 data).bind readers.json).bind (SyncMessage.fromJson readers) with
  | some msg => .ok msg
  | none => .error (readers.explain data)

/-- The encoding of messages on a connection. -/
def Readers.wire : Wire where
  encode := encodeMessage
  decode := decodeMessage readers

/-- The libraries read back what was written: values with numbers of 64 bits that are less
than 128 levels deep, and identifiers. -/
structure Readers.Lossless : Prop where
  json : ∀ {v : Value}, v.Fits 127 → readers.json (String.ofList v.print) = some v
  uuid : ∀ id : Uuid, readers.uuid id.hyphenated = some id

/-- The keys of each metadata map are distinct. -/
def SyncMessage.MapsWellFormed : SyncMessage → Prop
  | .response batch => ∀ change ∈ batch.changes, (change.metadata.map Prod.fst).Nodup
  | _ => True

/-- The value of a response to which the changes come with values of their own. -/
def responseJson (changeJson : Change → Value) (batch : ChangeBatch) : Value :=
  tagged "Response" (.obj [
    ("offset", .num batch.offset.toNat),
    ("changes", .arr (batch.changes.map changeJson)),
    ("is_final", .bool batch.isFinal)])

/-! ## Round trips -/

theorem ChangeOperation.ofName_name (operation : ChangeOperation) :
    ofName operation.name = some operation := by
  cases operation <;> rfl

variable {readers}

/-- The fields of a change in front of its metadata. -/
def Change.mainFields (change : Change) : List (String × Value) :=
  [("id", .str change.id.hyphenated),
    ("timestamp", .num change.timestamp.toNat),
    ("namespace", .str change.«namespace»),
    ("database", .str change.database),
    ("table", optionValue (change.table.map .str)),
    ("operation", .str change.operation.name),
    ("key", optionValue (change.key.map ofBytes)),
    ("value", optionValue (change.value.map ofBytes))]

/-- A change is read back from these fields and a metadata field that may be missing. -/
theorem Change.fromJson_mainFields (hreaders : readers.Lossless) (buffered : Bool)
    (change : Change) (back : List (String × Value)) {metadata : List (String × String)}
    (hback : ∀ field ∈ back, field.1 = "metadata")
    (hmetadata : defaulted Value.textMap [] back "metadata" = some metadata) :
    Change.fromJson readers buffered (.obj (change.mainFields ++ back)) =
      some { change with metadata := metadata } := by
  have hmain : ∀ {name : String}, name ≠ "metadata" →
      field (change.mainFields ++ back) name = field change.mainFields name :=
    fun hne => field_append_left fun field hfield heq => hne (heq.symm.trans (hback field hfield))
  have hid : required (fun v => v.text.bind readers.uuid) (change.mainFields ++ back) "id" =
      some change.id := required_eq (hmain (by decide)) (hreaders.uuid change.id)
  have htimestamp : required Value.word (change.mainFields ++ back) "timestamp" =
      some change.timestamp := required_eq (hmain (by decide)) (word_num change.timestamp)
  have hnamespace : required Value.text (change.mainFields ++ back) "namespace" =
      some change.«namespace» := required_eq (hmain (by decide)) rfl
  have hdatabase : required Value.text (change.mainFields ++ back) "database" =
      some change.database := required_eq (hmain (by decide)) rfl
  have htable : optionField Value.text (change.mainFields ++ back) "table" = some change.table :=
    optionField_eq (hmain (by decide)) (nullable_getD Value.str (fun _ => rfl) (by simp) _)
  have hoperation : required (ChangeOperation.fromJson buffered) (change.mainFields ++ back)
      "operation" = some change.operation :=
    required_eq (hmain (by decide)) change.operation.ofName_name
  have hkey : optionField Value.octets (change.mainFields ++ back) "key" = some change.key :=
    optionField_eq (hmain (by decide)) (nullable_getD ofBytes octets_ofBytes (by simp [ofBytes]) _)
  have hvalue : optionField Value.octets (change.mainFields ++ back) "value" =
      some change.value :=
    optionField_eq (hmain (by decide)) (nullable_getD ofBytes octets_ofBytes (by simp [ofBytes]) _)
  have hlast : defaulted Value.textMap [] (change.mainFields ++ back) "metadata" =
      some metadata := by
    rw [defaulted, field_append_right]
    · exact hmetadata
    · simp [Change.mainFields]
  simp only [Change.fromJson, Value.record, Option.bind_eq_bind, Option.bind_some, hid, htimestamp,
    hnamespace, hdatabase, htable, hoperation, hkey, hvalue, hlast]
  rfl

/-- A change is read back from its value. -/
theorem Change.fromJson_toJson (hreaders : readers.Lossless) {change : Change}
    (hkeys : (change.metadata.map Prod.fst).Nodup) (buffered : Bool) :
    Change.fromJson readers buffered change.toJson = some change :=
  Change.fromJson_mainFields hreaders buffered change [_]
    (fun _ hfield => by rw [List.mem_singleton.mp hfield]) (textMap_entries hkeys)

/-- Missing metadata is read as empty. -/
theorem Change.fromJson_without (hreaders : readers.Lossless) (change : Change)
    (buffered : Bool) :
    Change.fromJson readers buffered (change.toJson.without "metadata") =
      some { change with metadata := [] } :=
  Change.fromJson_mainFields hreaders buffered change [] (by simp) rfl

/-- A response is read back if its changes are. -/
theorem fromJson_responseJson {changeJson : Change → Value} {f : Change → Change}
    {batch : ChangeBatch}
    (hback : ∀ change ∈ batch.changes,
      Change.fromJson readers false (changeJson change) = some (f change)) :
    SyncMessage.fromJson readers (responseJson changeJson batch) =
      some (.response { batch with changes := batch.changes.map f }) := by
  let fields := [
    ("offset", Value.num batch.offset.toNat),
    ("changes", .arr (batch.changes.map changeJson)),
    ("is_final", .bool batch.isFinal)]
  have hoffset : required Value.word fields "offset" = some batch.offset :=
    required_eq rfl (word_num batch.offset)
  have hchanges : required (Value.items (Change.fromJson readers false)) fields "changes" =
      some (batch.changes.map f) := required_eq rfl (mapM_map hback)
  have hfinal : required Value.flag fields "is_final" = some batch.isFinal := required_eq rfl rfl
  have hbatch : ChangeBatch.fromJson readers false (.obj fields) =
      some { batch with changes := batch.changes.map f } := by
    simp only [ChangeBatch.fromJson, Value.record, Option.bind_eq_bind, Option.bind_some, hoffset,
      hchanges, hfinal]
    rfl
  exact congrArg (Option.map SyncMessage.response) hbatch

/-- A message is read back from its value. -/
theorem SyncMessage.fromJson_toJson (hreaders : readers.Lossless) {msg : SyncMessage}
    (hmaps : msg.MapsWellFormed) : SyncMessage.fromJson readers msg.toJson = some msg := by
  cases msg with
  | request offset limit =>
      let fields := [
        ("offset", Value.num offset.toNat),
        ("limit", optionValue (limit.map fun limit => .num limit.toNat))]
      have hoffset : required Value.word fields "offset" = some offset :=
        required_eq rfl (word_num offset)
      have hlimit : optionField Value.word fields "limit" = some limit :=
        optionField_eq rfl (nullable_getD (fun limit : UInt64 => .num limit.toNat) word_num
          (by simp) limit)
      change requestFromJson (.obj fields) = _
      simp only [requestFromJson, Value.fields, Option.bind_eq_bind, Option.bind_some, hoffset,
        hlimit]
      rfl
  | response batch =>
      have hback : SyncMessage.fromJson readers (responseJson Change.toJson batch) =
          some (.response { batch with changes := batch.changes.map id }) :=
        fromJson_responseJson fun change hchange =>
          Change.fromJson_toJson hreaders (hmaps change hchange) false
      rw [List.map_id] at hback
      exact hback
  | ack offset =>
      let fields := [("offset", Value.num offset.toNat)]
      have hoffset : required Value.word fields "offset" = some offset :=
        required_eq rfl (word_num offset)
      change ackFromJson (.obj fields) = _
      simp only [ackFromJson, Value.fields, Option.bind_eq_bind, Option.bind_some, hoffset]
      rfl
  | ping => rfl
  | pong => rfl

/-! ## Sizes and depths -/

theorem fits_optionValue {α : Type} {depth : Nat} {encode : α → Value}
    (hfits : ∀ x, (encode x).Fits depth) (value : Option α) :
    (optionValue (value.map encode)).Fits depth := by
  cases value with
  | none => exact .null depth
  | some x => exact hfits x

/-- A change is two levels deep. -/
theorem Change.fits_toJson (change : Change) (depth : Nat) :
    change.toJson.Fits (depth + 2) := by
  have hbytes : ∀ bytes : Option Bytes, (optionValue (bytes.map ofBytes)).Fits (depth + 1) :=
    fits_optionValue (fits_ofBytes depth)
  have htable : (optionValue (change.table.map .str)).Fits (depth + 1) :=
    fits_optionValue (Value.Fits.str (depth + 1)) change.table
  refine .obj ?_
  simp only [List.forall_mem_cons]
  exact ⟨.str _ _, fits_word _ _, .str _ _, .str _ _, htable, .str _ _, hbytes _, hbytes _,
    fits_textMap _ _, by simp⟩

/-- A response is three levels deeper than its changes. -/
theorem fits_responseJson {changeJson : Change → Value} {depth : Nat} (batch : ChangeBatch)
    (hchanges : ∀ change ∈ batch.changes, (changeJson change).Fits depth) :
    (responseJson changeJson batch).Fits (depth + 3) := by
  have hitems : (Value.arr (batch.changes.map changeJson)).Fits (depth + 1) := by
    refine .arr fun v hv => ?_
    rcases List.mem_map.mp hv with ⟨change, hchange, rfl⟩
    exact hchanges change hchange
  refine .obj ?_
  simp only [List.forall_mem_cons]
  refine ⟨.str _ _, .obj ?_, by simp⟩
  simp only [List.forall_mem_cons]
  exact ⟨fits_word _ _, hitems, .bool _ _, by simp⟩

/-- Messages are at most five levels deep. -/
theorem SyncMessage.fits_toJson (msg : SyncMessage) (depth : Nat) :
    msg.toJson.Fits (depth + 5) := by
  cases msg with
  | request offset limit =>
      have hlimit : (optionValue (limit.map fun limit => .num limit.toNat)).Fits (depth + 3) :=
        fits_optionValue (fits_word (depth + 3)) limit
      refine .obj ?_
      simp only [List.forall_mem_cons]
      refine ⟨.str _ _, .obj ?_, by simp⟩
      simp only [List.forall_mem_cons]
      exact ⟨fits_word _ _, hlimit, by simp⟩
  | response batch =>
      exact fits_responseJson batch fun change _ => change.fits_toJson depth
  | ack offset =>
      refine .obj ?_
      simp only [List.forall_mem_cons]
      refine ⟨.str _ _, .obj ?_, by simp⟩
      simp only [List.forall_mem_cons]
      exact ⟨fits_word _ _, by simp⟩
  | ping => exact .obj (by simp [Value.Fits.str])
  | pong => exact .obj (by simp [Value.Fits.str])

/-! ## The codec reads back what it wrote -/

/-- The bytes of a value that is read as a message. -/
theorem decodeMessage_bytes (hreaders : readers.Lossless) {v : Value} (hfits : v.Fits 127)
    {msg : SyncMessage} (hback : SyncMessage.fromJson readers v = some msg) :
    decodeMessage readers v.bytes = .ok msg := by
  rw [decodeMessage, Value.bytes, ← asBytes_ofList, fromUtf8_asBytes, Option.bind_some,
    hreaders.json hfits, Option.bind_some, hback]

/-- Every message is decoded from its encoding, with all its fields, and every batch that
comes without metadata is decoded with empty metadata. -/
theorem decodeMessage_encodeMessage (hreaders : readers.Lossless) (msg : SyncMessage)
    (hmaps : msg.MapsWellFormed) :
    (encodeMessage msg).bind (decodeMessage readers) = .ok msg ∧
      ∀ batch : ChangeBatch,
        decodeMessage readers
            (responseJson (fun change => change.toJson.without "metadata") batch).bytes =
          .ok (.response { batch with
            changes := batch.changes.map fun change => { change with metadata := [] } }) := by
  constructor
  · exact decodeMessage_bytes hreaders (msg.fits_toJson 122)
      (SyncMessage.fromJson_toJson hreaders hmaps)
  · intro batch
    have hfits : ∀ change ∈ batch.changes, (change.toJson.without "metadata").Fits 124 :=
      fun change _ => (change.fits_toJson 122).without "metadata"
    exact decodeMessage_bytes hreaders (fits_responseJson batch hfits)
      (fromJson_responseJson fun change _ => Change.fromJson_without hreaders change false)

/-! ## Readers -/

/-- Read pairs of hexadecimal digits. -/
def hexPairs : List Char → Bytes
  | high :: low :: rest => UInt8.ofNat (16 * hexValue high + hexValue low) :: hexPairs rest
  | _ => []

/-- The identifier with a hyphenated form. -/
def Uuid.ofHyphenated (s : String) : Option Uuid :=
  if h : (hexPairs (s.toList.filter (· != '-'))).length = 16 then
    let id : Uuid := ⟨hexPairs (s.toList.filter (· != '-')), h⟩
    if id.hyphenated = s then some id else none
  else none

/-- The readers of compact texts and of hyphenated identifiers. -/
def Readers.compact : Readers where
  json s := Json.read s.toList
  uuid := Uuid.ofHyphenated
  explain _ := "not a message"

theorem hexPairs_hexBytes (bytes : Bytes) : hexPairs (hexBytes bytes) = bytes := by
  induction bytes with
  | nil => rfl
  | cons b bytes ih =>
      rw [hexBytes] at ih ⊢
      rw [List.flatMap_cons, List.cons_append, List.cons_append, List.nil_append, hexPairs,
        hexValue_digits b.toNat_lt, UInt8.ofNat_toNat, ih]

/-- No hexadecimal digit is a hyphen. -/
theorem filter_hexBytes (bytes : Bytes) :
    (hexBytes bytes).filter (· != '-') = hexBytes bytes := by
  have hdigit : ∀ n, hexDigit n ≠ '-' := by
    have hsmall : ∀ n < 16, n.digitChar ≠ '-' := by decide
    exact fun n => hsmall _ (Nat.mod_lt n (by decide))
  refine List.filter_eq_self.mpr fun c hc => bne_iff_ne.mpr ?_
  rcases List.mem_flatMap.mp hc with ⟨b, _, hb⟩
  rcases List.mem_cons.mp hb with rfl | hlow
  · exact hdigit _
  · rw [List.mem_singleton.mp hlow]
    exact hdigit _

/-- The digits of the hyphenated form are those of the bytes. -/
theorem Uuid.filter_hyphenated (id : Uuid) :
    id.hyphenated.toList.filter (· != '-') = hexBytes id.bytes := by
  have hbytes : id.bytes = id.bytes.take 4 ++ ((id.bytes.drop 4).take 2 ++
      ((id.bytes.drop 6).take 2 ++ ((id.bytes.drop 8).take 2 ++ id.bytes.drop 10))) := by
    have hsplit : ∀ n m, (id.bytes.drop n).take m ++ id.bytes.drop (n + m) = id.bytes.drop n := by
      intro n m
      rw [← List.drop_drop, List.take_append_drop]
    rw [hsplit 8 2, hsplit 6 2, hsplit 4 2, List.take_append_drop]
  have happend : ∀ front back : Bytes, hexBytes (front ++ back) = hexBytes front ++ hexBytes back :=
    fun _ _ => List.flatMap_append
  conv_rhs => rw [hbytes, happend, happend, happend, happend]
  rw [Uuid.hyphenated, String.toList_ofList]
  simp only [List.filter_append, List.filter_cons, filter_hexBytes]
  simp

theorem Uuid.ofHyphenated_hyphenated (id : Uuid) : ofHyphenated id.hyphenated = some id := by
  have hbytes : hexPairs (id.hyphenated.toList.filter (· != '-')) = id.bytes := by
    rw [id.filter_hyphenated, hexPairs_hexBytes]
  have hid : ∀ h, (⟨hexPairs (id.hyphenated.toList.filter (· != '-')), h⟩ : Uuid) = id := by
    intro h
    congr
  rw [ofHyphenated, dif_pos (hbytes ▸ id.length_bytes)]
  simp only [hid, if_true]

theorem json_compact (s : String) : Readers.compact.json s = Json.read s.toList :=
  rfl

theorem uuid_compact : Readers.compact.uuid = Uuid.ofHyphenated :=
  rfl

theorem compact_lossless : Readers.compact.Lossless := by
  constructor
  · intro v _
    rw [json_compact, String.toList_ofList, read_print]
  · rw [uuid_compact]
    exact Uuid.ofHyphenated_hyphenated

/-- A response with one change, read by these readers. -/
theorem decodeMessage_encodeMessage_sample :
    (encodeMessage (.response ⟨0, [sampleChange], true⟩)).bind
        (decodeMessage Readers.compact) = .ok (.response ⟨0, [sampleChange], true⟩) ∧
      ∀ batch : ChangeBatch,
        decodeMessage Readers.compact
            (responseJson (fun change => change.toJson.without "metadata") batch).bytes =
          .ok (.response { batch with
            changes := batch.changes.map fun change => { change with metadata := [] } }) :=
  decodeMessage_encodeMessage compact_lossless (.response ⟨0, [sampleChange], true⟩) (by
    intro change hchange
    rw [List.mem_singleton.mp hchange]
    exact List.nodup_nil)

end IrohSync
