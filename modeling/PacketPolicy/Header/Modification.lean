import PacketPolicy.Header.Packet

/-!
# Modifications

A modification sets some headers and removes others, all at once. Sequencing two
modifications gives one in which the later writes win.
-/

namespace PacketPolicy

/-!
## Header names

Names with a fixed meaning, and the headers that a switch can set by itself.
-/

abbrev HeaderSet := SortedSet String

namespace HeaderSet

/-- Layer 2 to 4 headers. -/
def basic : List String :=
  ["srcmac", "dstmac", "srcip", "dstip", "tos", "srcport", "dstport", "ethtype", "protocol"]

/-- VLAN tagging headers. -/
def tagging : List String := ["vlan_id", "vlan_pcp"]

/-- The switch that a packet is on, and its ports. -/
def location : List String := ["switch", "inport", "outport"]

/-- What a packet carries; a switch never sets these. -/
def content : List String := ["raw", "header_len", "payload_len"]

/-- The headers that a rule table may set, unless told otherwise. -/
def compilable : HeaderSet := .ofList (basic ++ tagging ++ location)

end HeaderSet

/-! ## Writes to headers -/

/-- What is written to each header: a value, or `none` to remove it. -/
@[ext] structure Modification where
  fields : SortedMap String (Option Value)
  deriving DecidableEq

namespace Modification

instance : Inhabited Modification := ⟨⟨.empty⟩⟩

/-- Nothing for no fields; of two writes to one header the later stays. -/
def ofList? (fields : List (String × Option Value)) : Option Modification :=
  if fields.isEmpty then none else some ⟨.ofList fields⟩

/-- The modification of one header or more. -/
def ofHead (field : String) (v : Option Value) (rest : List (String × Option Value)) :
    Modification :=
  ⟨.ofList ((field, v) :: rest)⟩

def single (field : String) (v : Option Value) : Modification := ofHead field v []

/-- Leave by a port. -/
def leaveBy (port : Int64) : Modification := single "outport" (some (.int port))

/-- Come in at a location; the port to leave by is forgotten. -/
def comeInAt (l : Location) : Modification :=
  ofHead "switch" (some (.int l.switch)) [("inport", some (.int l.port)), ("outport", none)]

/-- `none` if the header is not written, `some none` if it is removed. -/
def get? (m : Modification) (field : String) : Option (Option Value) := m.fields.get? field

/-- First the one, then the other. -/
def andThen (m later : Modification) : Modification := ⟨m.fields.insertMany later.fields.entries⟩

def names (m : Modification) : List String := m.fields.keys

/-- Some header outside the set is written. -/
def writesOutside (m : Modification) (headers : HeaderSet) : Bool :=
  m.names.any fun field => field ∉ headers

def write (p : Packet) : String × Option Value → Packet
  | (field, some v) => p.set field v
  | (field, none) => p.unset field

def apply (m : Modification) (p : Packet) : Packet := m.fields.entries.foldl write p

def render (m : Modification) : String :=
  ", ".intercalate (m.fields.entries.map fun e => e.1 ++ "=" ++ (e.2.elim "none" Value.render))

end Modification

end PacketPolicy
