import PacketPolicy.Encoding
import PacketPolicy.Proofs.RoundTrip

/-!
# Header data survive their JSON form

Values, patterns, packets, matches, modifications and predicates are read back from their
JSON form as they were. A network keeps the bits after its length, a removal is told from
a header that is not written, and no restriction on names or texts is needed. Reading is
laxer than writing, and forgets how a form was spelled at the first time.
-/

namespace PacketPolicy

namespace Json

/-- Reading undoes writing. -/
structure RoundTrip {α : Type} (encode : α → Json) (decode? : Json → Option α) : Prop where
  reads : ∀ x, decode? (encode x) = some x
  distinct : ∀ x y, encode x = encode y → x = y
  /-- Whatever a value was read from, its own form is read as that value again. -/
  settles : ∀ j x, decode? j = some x → decode? (encode x) = some x

variable {α : Type} {encode : α → Json} {decode? : Json → Option α}

theorem RoundTrip.of_reads (h : ∀ x, decode? (encode x) = some x) : RoundTrip encode decode? where
  reads := h
  distinct x y hxy := by
    have hsome : some x = some y := by rw [← h x, hxy, h y]
    exact Option.some.inj hsome
  settles _ x _ := h x

/-! ## Records and maps -/

@[simp] theorem choice?_record (name : String) (content : Json) :
    (record name content).choice? = some (name, some content) := rfl

@[simp] theorem field?_record (name : String) (content : Json) :
    (record name content).field? name = some content := by
  simp [record, field?]

/-- The form of a map has at each name the form of what the map has there. -/
theorem field?_ofMap (encode : α → Json) (m : SortedMap String α) (name : String) :
    (ofMap encode m).field? name = (m.get? name).map encode := by
  rw [ofMap, field?, SortedMap.get?]
  induction m.entries with
  | nil => rfl
  | cons e rest ih =>
    rw [List.map_cons, List.lookup_cons, SortedMap.lookup, ih]
    by_cases h : name = e.1
    · simp [h]
    · simp [h, beq_eq_false_iff_ne.2 h]

/-- A map is read back if its values are. -/
theorem map?_ofMap (h : ∀ x, decode? (encode x) = some x) (m : SortedMap String α) :
    map? decode? (ofMap encode m) = some m := by
  have hentries : ∀ l : List (String × α), (l.map fun e => (e.1, encode e.2)).mapM
      (fun e => (decode? e.2).map (e.1, ·)) = some l := by
    intro l
    induction l with
    | nil => rfl
    | cons e rest ih => simp [h, ih]
  rw [ofMap, map?, hentries m.entries]
  exact congrArg some m.ofList_entries

end Json

/-! ## Header data -/

namespace Ipv4

theorem Address.ofText?_render (a : Address) : Address.ofText? a.render = some a := by
  rw [Address.ofText?, Address.render, String.toList_ofList, Address.ofChars?_chars]

theorem Network.ofText?_render (n : Network) : Network.ofText? n.render = some n := by
  rw [Network.ofText?, Network.render, String.toList_ofList]
  exact (Network.Spelled.withLength n 0).ofChars?_eq

end Ipv4

theorem Value.ofJson?_toJson (v : Value) : Value.ofJson? v.toJson = some v := by
  cases v with
  | int n => simp [toJson, ofJson?, Json.int?, Decimal.word?_toInt]
  | text s => simp [toJson, ofJson?, Json.string?]
  | address a => simp [toJson, ofJson?, Json.string?, a.ofText?_render]

theorem Pattern.ofJson?_toJson (p : Pattern) : Pattern.ofJson? p.toJson = some p := by
  cases p with
  | exactly v => simp [toJson, ofJson?, v.ofJson?_toJson]
  | within n => simp [toJson, ofJson?, Json.string?, n.ofText?_render]

theorem Packet.ofJson?_toJson (p : Packet) : Packet.ofJson? p.toJson = some p := by
  simp [toJson, ofJson?, Json.map?_ofMap Value.ofJson?_toJson]

theorem Match.ofJson?_toJson (m : Match) : Match.ofJson? m.toJson = some m := by
  simp [toJson, ofJson?, Json.map?_ofMap Pattern.ofJson?_toJson]

/-- No value is written as `null`, so a removal is told apart. -/
theorem Modification.writeOfJson?_writeToJson (w : Option Value) :
    writeOfJson? (writeToJson w) = some w := by
  cases w with
  | none => rfl
  | some v =>
    have hread : writeOfJson? v.toJson = (Value.ofJson? v.toJson).map some := by
      cases v <;> rfl
    rw [writeToJson, hread, v.ofJson?_toJson]
    rfl

theorem Modification.ofJson?_toJson (m : Modification) :
    Modification.ofJson? m.toJson = some m := by
  simp [toJson, ofJson?, Json.map?_ofMap writeOfJson?_writeToJson]

theorem Predicate.ofJson?_toJson (p : Predicate) : Predicate.ofJson? p.toJson = some p := by
  cases p with
  | identity => rfl
  | drop => rfl
  | test m => simp [toJson, ofJson?, m.ofJson?_toJson]

/-- All header data are read back from their forms, whatever they hold. The form of a record has at
each name the form of what it has there; a network keeps the bits after its length. -/
theorem header_data_round_trips :
    Json.RoundTrip Value.toJson Value.ofJson? ∧
    Json.RoundTrip Pattern.toJson Pattern.ofJson? ∧
    Json.RoundTrip Packet.toJson Packet.ofJson? ∧
    Json.RoundTrip Match.toJson Match.ofJson? ∧
    Json.RoundTrip Modification.toJson Modification.ofJson? ∧
    Json.RoundTrip Predicate.toJson Predicate.ofJson? ∧
    (∀ (p : Packet) name, (p.toJson.field? "headers").bind (Json.field? name) =
      (p.get? name).map Value.toJson) ∧
    (∀ (m : Match) name, (m.toJson.field? "fields").bind (Json.field? name) =
      (m.get? name).map Pattern.toJson) ∧
    (∀ (m : Modification) name, (m.toJson.field? "fields").bind (Json.field? name) =
      (m.get? name).map fun w => w.elim .null Value.toJson) ∧
    ∀ n : Ipv4.Network, (Pattern.within n).toJson = .object [("Prefix",
      .string (.ofList (n.address.chars ++ '/' :: Decimal.ofNat n.length)))] := by
  have hwrite : Modification.writeToJson = fun w => w.elim .null Value.toJson := by
    funext w
    cases w <;> rfl
  refine ⟨.of_reads Value.ofJson?_toJson, .of_reads Pattern.ofJson?_toJson,
    .of_reads Packet.ofJson?_toJson, .of_reads Match.ofJson?_toJson,
    .of_reads Modification.ofJson?_toJson, .of_reads Predicate.ofJson?_toJson, ?_, ?_, ?_, ?_⟩
  · intro p name
    rw [Packet.toJson, Json.field?_record]
    exact Json.field?_ofMap Value.toJson p.headers name
  · intro m name
    rw [Match.toJson, Json.field?_record]
    exact Json.field?_ofMap Pattern.toJson m.fields name
  · intro m name
    rw [Modification.toJson, Json.field?_record, ← hwrite]
    exact Json.field?_ofMap Modification.writeToJson m.fields name
  · exact fun n => rfl

end PacketPolicy
