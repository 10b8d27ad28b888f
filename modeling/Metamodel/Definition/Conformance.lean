import Metamodel.Definition.Basic

set_option autoImplicit false

/-! # Conformance of definitions to their entity

A definition conforms to its entity if every field it fills is declared with the role it plays,
property values have the declared type, single-valued fields hold at most one value, children belong
to the declared entity and conform themselves, and every required field is filled.

`Definition.faults` lists every way in which a definition fails this, in reading order: properties,
links, children with their own faults, and last the required fields that are empty.
`Definition.check` reports the first. `Definition.misplacedLinks` lists, ahead of any other check,
the links that stand in a field which is no link field. Definitions of provided entities have no
faults. -/

namespace Metamodel

/-- A way in which a definition fails to conform to its entity. -/
inductive Fault
  /-- The entity declares no such field. -/
  | unknownField (key entity field : String)
  /-- Required fields that hold no value. -/
  | missing (key : String) (fields : List String)
  /-- A property value of another type. -/
  | wrongType (key field : String) (expected actual : ValueType)
  /-- A child of another entity. -/
  | wrongChild (key field expected actual : String)
  /-- A field declared with another role than the one it is given. -/
  | wrongRole (key field : String) (given declared : Role)
  /-- Several values in a field that takes one. -/
  | tooMany (key field : String) (count : Nat)
deriving DecidableEq, Repr

namespace Fault

/-- The message for a fault. -/
def message : Fault → String
  | .unknownField key entity field =>
    "unknown property \"" ++ field ++ "\" on " ++ entity ++ " \"" ++ key ++ "\""
  | .missing key fields =>
    "missing mandatory properties on \"" ++ key ++ "\": " ++ String.intercalate ", " fields
  | .wrongType key field expected actual => mismatch key field expected.label actual.label
  | .wrongChild key field expected actual => mismatch key field expected actual
  | .wrongRole key field _ declared =>
    "field \"" ++ field ++ "\" on \"" ++ key ++ "\" is declared as a " ++ declared.label
  | .tooMany key field count =>
    "field \"" ++ field ++ "\" on \"" ++ key ++ "\" accepts a single value but got " ++
      toString count
where
  mismatch (key field expected actual : String) : String :=
    "type mismatch on \"" ++ key ++ "\"." ++ field ++ ": expected " ++ expected ++ ", got " ++
      actual

/-- The identifier of the kind of fault. -/
def code : Fault → String
  | .unknownField .. => "modelbook::validate::unknown_property"
  | .missing .. => "modelbook::validate::missing_mandatory"
  | .wrongType .. | .wrongChild .. => "modelbook::validate::type_mismatch"
  | .wrongRole .. => "modelbook::validate::kind_mismatch"
  | .tooMany .. => "modelbook::validate::too_many_values"

/-- Advice on a fault. -/
def help : Fault → String
  | .unknownField _ entity _ =>
    "The grammar of " ++ entity ++
      " does not declare this field. Check the spelling against the grammar."
  | .missing .. =>
    "These fields are required by the grammar and have no value after all `alter` blocks " ++
      "were merged."
  | .wrongType .. | .wrongChild .. =>
    "Strings are quoted (\"text\"), booleans are bare `true`/`false`, integers are bare digits."
  | .wrongRole .. =>
    "Properties take literal values, links take definition names, children take nested blocks."
  | .tooMany .. => "Only fields declared with cardinality `many` accept a list."

end Fault

namespace Definition

/-! ## Faults of single fields -/

/-- The fault of a field that is not declared. -/
def unknownField (d : Definition) (field : String) : Fault :=
  .unknownField d.key d.entity.name field

/-- The faults of a property. -/
def propertyFaults (d : Definition) (p : String × Value) : List Fault :=
  match d.entity.field? p.1 with
  | none => [d.unknownField p.1]
  | some f => match f.shape with
    | .property type => if p.2.type = type then [] else [.wrongType d.key p.1 type p.2.type]
    | shape => [.wrongRole d.key p.1 .property shape.role]

/-- The fault of a field that holds `count` values. -/
def countFaults (d : Definition) (f : Field) (count : Nat) : List Fault :=
  if 1 < count ∧ f.cardinality.isMultiple = false then [.tooMany d.key f.name count] else []

/-- The faults in the place of a link field, whatever it holds. -/
def linkPlaceFaults (d : Definition) (field : String) : List Fault :=
  match d.entity.field? field with
  | none => [d.unknownField field]
  | some f => match f.shape with
    | .link _ => []
    | shape => [.wrongRole d.key field .link shape.role]

/-- The faults of a link field. -/
def linkFaults (d : Definition) (l : String × List String) : List Fault :=
  d.linkPlaceFaults l.1 ++ match d.entity.field? l.1 with
    | some f => d.countFaults f l.2.length
    | none => []

/-- The required fields that hold no value. -/
def missingFields (d : Definition) : List String :=
  d.entity.requiredFields.filter (!d.isFilled ·)

/-- The fault of the required fields that hold no value, if there are any. -/
def missingFaults (d : Definition) : List Fault :=
  if d.missingFields = [] then [] else [.missing d.key d.missingFields]

/-! ## Faults of a whole definition -/

/-- All faults of a definition and its children, in reading order. -/
def faults (d : Definition) : List Fault :=
  if d.entity.isProvided then []
  else
    d.properties.flatMap d.propertyFaults ++ d.links.flatMap d.linkFaults ++
      (d.children.flatMap fun e => match d.entity.field? e.1 with
        | none => [d.unknownField e.1]
        | some f => match f.shape with
          | .child target => d.countFaults f e.2.length ++ e.2.flatMap fun c =>
              if c.entity.name = target then c.faults
              else [.wrongChild d.key e.1 target c.entity.name]
          | shape => [.wrongRole d.key e.1 .child shape.role]) ++
      d.missingFaults
termination_by sizeOf d
decreasing_by exact sizeOf_child ‹_› ‹_›

/-- The links of a definition and its children that stand in no link field. -/
def misplacedLinks (d : Definition) : List Fault :=
  if d.entity.isProvided then []
  else
    (d.links.flatMap fun l => d.linkPlaceFaults l.1) ++
      d.children.flatMap fun e => e.2.flatMap fun c => c.misplacedLinks
termination_by sizeOf d
decreasing_by exact sizeOf_child ‹_› ‹_›

/-- Succeeds if there are no faults, and reports the first otherwise. -/
def reportFirst : List Fault → Except Fault Unit
  | [] => .ok ()
  | f :: _ => .error f

/-- Checks that a definition conforms to its entity. -/
def check (d : Definition) : Except Fault Unit := reportFirst d.faults

/-- Checks that every link of a definition stands in a link field. -/
def checkLinkFields (d : Definition) : Except Fault Unit := reportFirst d.misplacedLinks

end Definition

end Metamodel
