import Metamodel.Model.Rule

set_option autoImplicit false

/-! # Drafts of entity definitions

An entity definition is drafted before it is finished: other definitions may still add foreign keys
to it. A draft can be built at any time, as often as wanted. `EntityDraft.violations` lists what
keeps it from being built, in the order in which it is reported, and `EntityDraft.build` gives the
entity definition if there is nothing.

A draft that names no stereotype is a fragment if it has an origin, else an entity if it has an
identifier, else a value object. -/

namespace Metamodel

/-- An identifier of a draft. -/
structure IdDraft where
  name : String
  label : String
  domain : String
deriving DecidableEq, Repr

/-- The finished identifier. Identifiers are persistent. -/
def IdDraft.attribute (a : IdDraft) : Attribute := ⟨a.name, a.label, .id, .one, true, a.domain⟩

/-- What a data attribute of a draft is for. -/
inductive DataRole
  /-- It holds data; its persistence is that of the definition if it is not given. -/
  | own (persistent : Option Bool)
  /-- It refers to an object of another entity definition. -/
  | foreignKey (target : String)
deriving DecidableEq, Repr

/-- A data attribute or foreign key of a draft. -/
structure DataDraft where
  name : String
  label : String
  domain : String
  cardinality : Cardinality
  role : DataRole
deriving DecidableEq, Repr

/-- The finished data attribute or foreign key; `persistent` says whether objects of the definition
are stored. -/
def DataDraft.attribute (persistent : Bool) (a : DataDraft) : Attribute :=
  match a.role with
  | .own given => ⟨a.name, a.label, .data, a.cardinality, given.getD persistent, a.domain⟩
  | .foreignKey target =>
    ⟨a.name, a.label, .foreignKey target, a.cardinality, persistent, a.domain⟩

/-- A computed attribute of a draft. -/
structure ComputedDraft where
  name : String
  label : String
  domain : String
  cardinality : Cardinality
  expression : String
deriving DecidableEq, Repr

/-- The finished computed attribute. Computed attributes are not persistent. -/
def ComputedDraft.attribute (a : ComputedDraft) : Attribute :=
  ⟨a.name, a.label, .computed a.expression, a.cardinality, false, a.domain⟩

/-- A draft of an entity definition. -/
structure EntityDraft where
  name : String
  package : Option String
  stereotype : Option Stereotype
  dataSpace : Option String
  ids : List IdDraft
  data : List DataDraft
  computed : List ComputedDraft
  sort : Option String
  display : Option String
  handle : Option String
  origin : Option String
deriving DecidableEq, Repr

/-- One change to a draft. -/
inductive DraftChange
  | package (p : Option String)
  | stereotype (s : Stereotype)
  | dataSpace (s : String)
  | sort (field : String)
  | display (field : String)
  | handle (field : String)
  | origin (definition : String)
  | addId (id : IdDraft)
  | addData (data : DataDraft)
  | addComputed (computed : ComputedDraft)
deriving DecidableEq, Repr

namespace EntityDraft

/-- A draft that says nothing but its name. -/
def empty (name : String) : EntityDraft :=
  ⟨name, none, none, none, [], [], [], none, none, none, none⟩

/-- The draft with one more data attribute or foreign key, behind those it has. -/
def addData (d : EntityDraft) (a : DataDraft) : EntityDraft := { d with data := d.data ++ [a] }

/-- The draft after a change. -/
def apply (d : EntityDraft) : DraftChange → EntityDraft
  | .package p => { d with package := p }
  | .stereotype s => { d with stereotype := some s }
  | .dataSpace s => { d with dataSpace := some s }
  | .sort a => { d with sort := some a }
  | .display a => { d with display := some a }
  | .handle a => { d with handle := some a }
  | .origin o => { d with origin := some o }
  | .addId a => { d with ids := d.ids ++ [a] }
  | .addData a => d.addData a
  | .addComputed a => { d with computed := d.computed ++ [a] }

/-- Changes never touch the name. -/
@[simp] theorem name_apply (d : EntityDraft) (c : DraftChange) : (d.apply c).name = d.name := by
  cases c <;> rfl

/-- The names of all attributes, in the order of the finished definition. -/
def attributeNames (d : EntityDraft) : List String :=
  d.ids.map IdDraft.name ++ d.data.map DataDraft.name ++ d.computed.map ComputedDraft.name

/-- Whether the draft has an attribute of the given name. -/
def hasAttribute (d : EntityDraft) (name : String) : Bool := d.attributeNames.contains name

theorem hasAttribute_eq_false_iff {d : EntityDraft} {name : String} :
    d.hasAttribute name = false ↔ name ∉ d.attributeNames := by
  simp [hasAttribute]

/-! ## The definition a draft stands for -/

/-- The stereotype in effect. -/
def effectiveStereotype (d : EntityDraft) : Stereotype :=
  d.stereotype.getD <|
    if d.origin.isSome then .fragment else if d.ids.isEmpty then .valueObject else .entity

/-- The data space in effect. -/
def effectiveDataSpace (d : EntityDraft) : String := d.dataSpace.getD "main"

/-- The attributes: identifiers, data and foreign keys, computed ones. -/
def attributes (d : EntityDraft) : List Attribute :=
  d.ids.map IdDraft.attribute ++
    d.data.map (DataDraft.attribute d.effectiveStereotype.isPersistent) ++
    d.computed.map ComputedDraft.attribute

/-- The finished entity definition. -/
def finished (d : EntityDraft) : EntityDefinition where
  name := d.name
  package := d.package
  stereotype := d.effectiveStereotype
  dataSpace := d.effectiveDataSpace
  attributes := d.attributes
  sort := d.sort
  display := d.display
  handle := d.handle
  origin := d.origin

/-! ## What keeps a draft from being built -/

/-- Whether a data space is a small letter followed by 3 to 60 letters or digits, all ASCII. -/
def isDataSpace (s : String) : Bool :=
  match s.toList with
  | [] => false
  | c :: cs => c.isLower && cs.all Char.isAlphanum && 3 ≤ cs.length && cs.length ≤ 60

/-- The names that stand in a list, or in `before`, already. -/
def repeated (before : List String) : List String → List String
  | [] => []
  | n :: ns => if n ∈ before then n :: repeated before ns else repeated (n :: before) ns

/-- The rules about identifiers and stereotypes that the draft breaks. -/
def identityViolations (d : EntityDraft) : List Rule :=
  let s := d.effectiveStereotype
  (if 1 < d.ids.length then [.severalIds d.ids.length] else []) ++
    (if s.isPersistent ∧ d.ids = [] then [.idRequired s] else []) ++
    (if s.isPersistent = false ∧ d.ids ≠ [] then [.idForbidden s] else []) ++
    (if s = .fragment ↔ d.origin.isSome then [] else [.fragmentMismatch])

/-- All rules that the draft breaks. -/
def brokenRules (d : EntityDraft) : List Rule :=
  d.identityViolations ++
    (if isDataSpace d.effectiveDataSpace then [] else
      [.malformedDataSpace d.effectiveDataSpace]) ++
    (repeated [] d.attributeNames).map .duplicateAttribute

/-- The selected attributes that the draft does not have. -/
def missingSelections (d : EntityDraft) : List String :=
  ([d.sort, d.display, d.handle].filterMap fun s => s).filter (!d.hasAttribute ·)

/-- Everything that keeps the draft from being built. -/
def violations (d : EntityDraft) : List SketchError :=
  d.brokenRules.map (.broken d.name) ++ d.missingSelections.map (.attributeNotFound d.name)

/-- The entity definition, or the first thing that keeps the draft from being built. -/
def build (d : EntityDraft) : Except SketchError EntityDefinition :=
  match d.violations with
  | [] => .ok d.finished
  | e :: _ => .error e

end EntityDraft

end Metamodel
