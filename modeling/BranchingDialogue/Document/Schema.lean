import BranchingDialogue.Report.Basic

/-!
# The schema of documents

What a JSON document may look like, as a JSON schema. Fields are listed in the order of their names; a
field with a default may be left out.
-/

namespace BranchingDialogue

namespace Schema

/-- The shape of a value in a document. -/
inductive Shape where
  | anything
  | text
  | int32
  | list (item : Shape)
  /-- A record with a definition of its own. -/
  | record (name : String)
  deriving DecidableEq, Repr

/-- A field of a record. -/
structure Field where
  name : String
  shape : Shape
  /-- The value of the field where it is left out. -/
  default : Option Report
  /-- What there is to say about the field. -/
  note : Option String

/-- A field that has to be there. -/
def Field.required (name : String) (shape : Shape) : Field := ⟨name, shape, none, none⟩

/-- A text that may be left out. -/
def Field.optionalText (name : String) : Field := ⟨name, .text, some (.text ""), none⟩

/-- A list that may be left out. -/
def Field.optionalList (name : String) (item : Shape) : Field :=
  ⟨name, .list item, some (.list []), none⟩

/-- A kind of records. -/
structure Definition where
  name : String
  note : Option String
  fields : List Field

/-- What a document is made of. -/
def document : Definition where
  name := "GraphDocument"
  note := none
  fields :=
    [.optionalList "Data" .anything, .optionalList "Edges" (.record "EdgeRecord"),
      .required "Nodes" (.list (.record "NodeRecord")), .optionalText "ObjectID",
      .optionalList "Positions" (.record "Position"),
      .optionalList "Properties" (.record "PropertyRecord"), .required "Version" .int32]

/-- The records in a document. -/
def definitions : List Definition :=
  [{ name := "EdgeRecord", note := none,
      fields :=
        [.required "InputPort" (.record "PortRecord"),
          .required "OutputPort" (.record "PortRecord")] },
    { name := "NodeRecord", note := none,
      fields := [.required "Binder" .text, .required "ID" .text, .optionalText "Type"] },
    { name := "PortRecord", note := none,
      fields :=
        [.required "NodeID" .text,
          { Field.required "PortNumber" .int32 with
            note := some
              "Negative numbers address secondary sockets, see [\x60crate::graph::flip\x60]." }] },
    { name := "Position",
      note := some "Editor canvas position. Kept for round trips, never read by the runtime.",
      fields := [.required "x" .int32, .required "y" .int32] },
    { name := "PropertyRecord", note := none,
      fields :=
        [.required "ID" .text, .required "Name" .text, .optionalText "Type",
          .required "Value" .anything] }]

/-- A note as a field of a report. -/
def noteField : Option String → List (String × Report)
  | none => []
  | some s => [("description", .text s)]

/-- A shape in a report, after some other fields. Where there is nothing to say, everything goes. -/
def Shape.report (before : List (String × Report)) : Shape → Report
  | .anything => if before.isEmpty then .bool true else .record before
  | .text => .record (before ++ [("type", .text "string")])
  | .int32 => .record (before ++ [("type", .text "integer"), ("format", .text "int32")])
  | .list item => .record (before ++ [("type", .text "array"), ("items", item.report [])])
  | .record name => .record (before ++ [("$ref", .text ("#/definitions/" ++ name))])

/-- A field in a report. -/
def Field.report (f : Field) : String × Report :=
  let default := match f.default with | some x => [("default", x)] | none => []
  (f.name, f.shape.report (noteField f.note ++ default))

/-- The fields of a report on a definition. -/
def Definition.body (d : Definition) : List (String × Report) :=
  [("type", .text "object"),
    ("required", .texts ((d.fields.filter (·.default.isNone)).map (·.name))),
    ("properties", .record (d.fields.map Field.report))]

/-- A definition in a report. -/
def Definition.report (d : Definition) : String × Report :=
  (d.name, .record (noteField d.note ++ d.body))

/-- The schema in a report. -/
def report : Report :=
  .record <|
    [("$schema", .text "http://json-schema.org/draft-07/schema#"), ("title", .text document.name)]
    ++ document.body ++ [("definitions", .record (definitions.map Definition.report))]

end Schema

end BranchingDialogue
