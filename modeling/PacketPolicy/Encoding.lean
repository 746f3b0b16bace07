import PacketPolicy.Header.Match
import PacketPolicy.Header.Modification

/-!
# JSON form of header data

Values, patterns, packets, matches, modifications and predicates as JSON, and
back. Networks are written as they are stored, with their bits after the length,
and matches and modifications may be empty, so every value has a form of its own.
-/

namespace PacketPolicy

/-!
## JSON values

The shapes that the encodings of header data are built from: a record is an
object with its field names, a choice is the name of an alternative or an
object from that name to its content, a map with text keys is an object.
-/

/-- A JSON value. Numbers written with a fraction or an exponent are kept apart from integers
and carry no value, because no header data is encoded by one. -/
inductive Json where
  | null
  | bool (b : Bool)
  | int (n : Int)
  | fraction
  | string (s : String)
  | array (items : List Json)
  | object (members : List (String × Json))

namespace Json

instance : Inhabited Json := ⟨.null⟩

/-- The one member of an object with this name. -/
def record (field : String) (content : Json) : Json := .object [(field, content)]

/-- The content of a record with one field. Other members are ignored, and an array of the
field's content alone stands for the record too. -/
def field? (field : String) : Json → Option Json
  | .object members => members.lookup field
  | .array [content] => some content
  | _ => none

/-- The alternative that a choice names, with its content if it has any. -/
def choice? : Json → Option (String × Option Json)
  | .string name => some (name, none)
  | .object [(name, content)] => some (name, some content)
  | _ => none

/-- Nothing but `null`. -/
def isUnit : Option Json → Bool
  | none => true
  | some .null => true
  | _ => false

def string? : Json → Option String
  | .string s => some s
  | _ => none

def int? : Json → Option Int
  | .int n => some n
  | _ => none

def ofMap {α : Type} (encode : α → Json) (m : SortedMap String α) : Json :=
  .object (m.entries.map fun e => (e.1, encode e.2))

def map? {α : Type} (decode? : Json → Option α) : Json → Option (SortedMap String α)
  | .object members => do
    let entries ← members.mapM fun e => (decode? e.2).map (e.1, ·)
    return .ofList entries
  | _ => none

end Json

/-! ## Header data -/

namespace Value

def toJson : Value → Json
  | .int n => .record "Int" (.int n.toInt)
  | .text s => .record "String" (.string s)
  | .address a => .record "Ip" (.string a.render)

def ofJson? (j : Json) : Option Value := do
  match ← j.choice? with
  | ("Int", some content) => (← content.int?) |> Decimal.word? |>.map .int
  | ("String", some content) => content.string?.map .text
  | ("Ip", some content) => (← content.string?) |> Ipv4.Address.ofText? |>.map .address
  | _ => none

end Value

namespace Pattern

def toJson : Pattern → Json
  | .exactly v => .record "Exact" v.toJson
  | .within n => .record "Prefix" (.string n.render)

def ofJson? (j : Json) : Option Pattern := do
  match ← j.choice? with
  | ("Exact", some content) => (Value.ofJson? content).map .exactly
  | ("Prefix", some content) => (← content.string?) |> Ipv4.Network.ofText? |>.map .within
  | _ => none

end Pattern

namespace Packet

def toJson (p : Packet) : Json := .record "headers" (.ofMap Value.toJson p.headers)

def ofJson? (j : Json) : Option Packet := do
  return ⟨← (← j.field? "headers").map? Value.ofJson?⟩

end Packet

namespace Match

def toJson (m : Match) : Json := .record "fields" (.ofMap Pattern.toJson m.fields)

def ofJson? (j : Json) : Option Match := do
  return ⟨← (← j.field? "fields").map? Pattern.ofJson?⟩

end Match

namespace Modification

/-- The write of one header; a removal is `null`. -/
def writeToJson : Option Value → Json
  | none => .null
  | some v => v.toJson

def writeOfJson? : Json → Option (Option Value)
  | .null => some none
  | j => (Value.ofJson? j).map some

def toJson (m : Modification) : Json := .record "fields" (.ofMap writeToJson m.fields)

def ofJson? (j : Json) : Option Modification := do
  return ⟨← (← j.field? "fields").map? writeOfJson?⟩

end Modification

namespace Predicate

def toJson : Predicate → Json
  | .identity => .string "Identity"
  | .drop => .string "Drop"
  | .test m => .record "Match" m.toJson

def ofJson? (j : Json) : Option Predicate := do
  match ← j.choice? with
  | ("Identity", content) => if Json.isUnit content then some .identity else none
  | ("Drop", content) => if Json.isUnit content then some .drop else none
  | ("Match", some content) => (Match.ofJson? content).map .test
  | _ => none

end Predicate

end PacketPolicy
