import Metamodel.Json
import Metamodel.Notebook.Basic

set_option autoImplicit false

/-! # Notebooks as JSON documents

The document of a notebook lists its sketches under their names, in order. A sketch is an object
that first says its kind; everything else follows under fixed keys, and what is absent is null. -/

namespace Metamodel

/-! ## Parts of sketches -/

namespace DomainScope

/-- A scope as an object. -/
def toJson : DomainScope → Json
  | .primitive dataType formatter constraints => .object
    [("scope", .string "Primitive"), ("data_type", .string dataType.name),
      ("formatter", .optional formatter), ("constraints", .array (constraints.map .string))]
  | .valueObject className => .object
    [("scope", .string "ValueObject"), ("class_name", .string className)]
  | .dataObject entityDefinition => .object
    [("scope", .string "DataObject"), ("entity_definition", .string entityDefinition)]

end DomainScope

namespace AttributeKind

/-- A kind of attribute as an object. -/
def toJson (k : AttributeKind) : Json := .object <| ("type", .string k.label) ::
  match k with
  | .id | .data => []
  | .foreignKey target => [("target", .string target)]
  | .computed expression => [("expression", .string expression)]

end AttributeKind

namespace Attribute

/-- An attribute as an object. -/
def toJson (a : Attribute) : Json := .object
  [("name", .string a.name), ("label", .string a.label), ("kind", a.kind.toJson),
    ("cardinality", .string a.cardinality.label), ("persistent", .bool a.persistent),
    ("domain", .string a.domain)]

end Attribute

namespace AssociationEnd

/-- An end of an association as an object. -/
def toJson (e : AssociationEnd) : Json := .object
  [("entity_definition", .string e.definition), ("navigable", .bool e.navigable),
    ("role", .string e.role), ("label", .string e.label),
    ("multiplicity", .string e.multiplicity.label)]

end AssociationEnd

/-! ## Sketches -/

/-- The members of a constraint. -/
def Constraint.members (c : Constraint) : List (String × Json) :=
  [("name", .string c.name), ("package", .optional c.package),
    ("class_name", .string c.className), ("args", .optional c.args), ("msg", .optional c.msg)]

/-- The members of a formatter. -/
def Formatter.members (f : Formatter) : List (String × Json) :=
  [("name", .string f.name), ("package", .optional f.package),
    ("class_name", .string f.className), ("args", .optional f.args)]

/-- The members of a domain. -/
def Domain.members (d : Domain) : List (String × Json) :=
  [("name", .string d.name), ("package", .optional d.package), ("scope", d.scope.toJson),
    ("store_type", .optional d.storeType), ("multiple", .bool d.multiple)]

/-- The members of an entity definition. -/
def EntityDefinition.members (e : EntityDefinition) : List (String × Json) :=
  [("name", .string e.name), ("package", .optional e.package),
    ("stereotype", .string e.stereotype.name), ("data_space", .string e.dataSpace),
    ("fields", .array (e.attributes.map Attribute.toJson)),
    ("sort_field", .optional e.sort), ("display_field", .optional e.display),
    ("handle_field", .optional e.handle), ("fragment_of", .optional e.origin)]

/-- The members of an association. -/
def Association.members (a : Association) : List (String × Json) :=
  let ends : List (String × Json) :=
    [("name", .string a.name), ("package", .optional a.package),
      ("node_a", a.endA.toJson), ("node_b", a.endB.toJson)]
  match a.realisation with
  | .foreignKey primary name =>
    ("association", .string "Simple") :: ends ++
      [("primary", .string primary.label), ("fk_field_name", .string name)]
  | .joinTable name =>
    ("association", .string "ManyToMany") :: ends ++ [("table_name", .string name)]

namespace Sketch

/-- The members of a sketch behind its kind. -/
def members : Sketch → List (String × Json)
  | .constraint c => c.members
  | .formatter f => f.members
  | .domain d => d.members
  | .entityDefinition e => e.members
  | .association a => a.members

/-- A sketch as an object. -/
def toJson (s : Sketch) : Json := .object (("kind", .string s.kind.name) :: s.members)

end Sketch

/-! ## Notebooks -/

namespace Notebook

/-- A notebook as a document. -/
def toJson (n : Notebook) : Json :=
  .object [("sketches", .object (n.sketches.map fun s => (s.name, s.toJson)))]

/-- The text of a notebook, indented or compact. -/
def document (n : Notebook) (pretty : Bool) : String :=
  n.toJson.render (if pretty then .indented else .compact)

end Notebook

end Metamodel
