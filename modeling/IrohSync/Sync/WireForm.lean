import IrohSync.Lib.Json
import IrohSync.Change

/-!
# The wire form of messages

The JSON value of a message, as the serialization attributes of the message types
give it: a tag and its content, lower-case operation names, byte strings as arrays
of numbers and absent values as null.  The printing of the value is that of a
library and left to {lit}`Wire` where a message is sent.

Main results:

- Theorem {lit}`size_response`: the size of a response is the sum of the sizes of
  its changes and a small frame around them.
-/

namespace IrohSync

open FileIo Json Text

/-- A value that may be absent. -/
def optionValue (value : Option Value) : Value :=
  value.getD .null

/-- The two hexadecimal digits of each byte. -/
def hexBytes (bytes : Bytes) : List Char :=
  bytes.flatMap fun b => [hexDigit (b.toNat / 16), hexDigit b.toNat]

/-- The hyphenated form of an identifier. -/
def Uuid.hyphenated (id : Uuid) : String :=
  String.ofList (hexBytes (id.bytes.take 4) ++ '-' :: hexBytes ((id.bytes.drop 4).take 2) ++
    '-' :: hexBytes ((id.bytes.drop 6).take 2) ++ '-' :: hexBytes ((id.bytes.drop 8).take 2) ++
    '-' :: hexBytes (id.bytes.drop 10))

/-- The lower-case name of an operation. -/
def ChangeOperation.name : ChangeOperation → String
  | .query => "query"
  | .set => "set"
  | .delete => "delete"
  | .commit => "commit"
  | .schema => "schema"
  | .auth => "auth"
  | .liveNotify => "livenotify"

/-- The value of a change. -/
def Change.toJson (change : Change) : Value :=
  .obj [
    ("id", .str change.id.hyphenated),
    ("timestamp", .num change.timestamp.toNat),
    ("namespace", .str change.«namespace»),
    ("database", .str change.database),
    ("table", optionValue (change.table.map .str)),
    ("operation", .str change.operation.name),
    ("key", optionValue (change.key.map ofBytes)),
    ("value", optionValue (change.value.map ofBytes)),
    ("metadata", .obj (change.metadata.map fun entry => (entry.1, .str entry.2)))]

/-- The value of a batch. -/
def ChangeBatch.toJson (batch : ChangeBatch) : Value :=
  .obj [
    ("offset", .num batch.offset.toNat),
    ("changes", .arr (batch.changes.map Change.toJson)),
    ("is_final", .bool batch.isFinal)]

/-- A message with its tag and content. -/
def tagged (tag : String) (data : Value) : Value :=
  .obj [("type", .str tag), ("data", data)]

/-- The value of a message. -/
def SyncMessage.toJson : SyncMessage → Value
  | .request offset limit =>
      tagged "Request" (.obj [
        ("offset", .num offset.toNat),
        ("limit", optionValue (limit.map fun limit => .num limit.toNat))])
  | .response batch => tagged "Response" batch.toJson
  | .ack offset => tagged "Ack" (.obj [("offset", .num offset.toNat)])
  | .ping => .obj [("type", .str "Ping")]
  | .pong => .obj [("type", .str "Pong")]

/-! ## Sizes -/

/-- The size of a response: a frame of 63 bytes, the offset, the flag, and the
changes with commas between them. -/
theorem size_response (batch : ChangeBatch) :
    (SyncMessage.response batch).toJson.size =
      63 + (Value.num batch.offset.toNat).size + (Value.bool batch.isFinal).size +
        (batch.changes.map fun change => change.toJson.size).sum + (batch.changes.length - 1) := by
  have htype : fieldSize ("type", .str "Response") = 17 := by decide
  have hdata : (utf8 (quote "data")).length = 6 := by decide
  have hoffset : (utf8 (quote "offset")).length = 8 := by decide
  have hchanges : (utf8 (quote "changes")).length = 9 := by decide
  have hfinal : (utf8 (quote "is_final")).length = 10 := by decide
  rw [SyncMessage.toJson, tagged, size_obj]
  simp only [List.map_cons, List.map_nil, List.sum_cons, List.sum_nil, List.length_cons,
    List.length_nil, htype]
  rw [fieldSize, ChangeBatch.toJson, size_obj]
  simp only [List.map_cons, List.map_nil, List.sum_cons, List.sum_nil, List.length_cons,
    List.length_nil, fieldSize, size_arr, List.map_map, List.length_map, Function.comp_def, hdata,
    hoffset, hchanges, hfinal]
  omega

/-- A change takes more than two bytes for each byte of its value. -/
theorem le_size_value {change : Change} {value : Bytes} (hvalue : change.value = some value) :
    2 * value.length ≤ change.toJson.size := by
  have hbytes := le_size_ofBytes value
  have hfield : fieldSize ("value", optionValue (change.value.map ofBytes)) =
      (utf8 (quote "value")).length + 1 + (ofBytes value).size := by
    rw [hvalue]
    rfl
  rw [Change.toJson, size_obj]
  simp only [List.map_cons, List.map_nil, List.sum_cons, hfield]
  omega

end IrohSync
