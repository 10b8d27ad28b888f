import Metamodel.Proofs.Filling

set_option autoImplicit false

/-! # Faults of statements

A statement is at fault where it names an entity that the grammar does not have, or a field that the
entity around the word does not have. `Statement.faults` lists these faults in document order: the
entity of the statement before its body, the entries of the body one after the other, and those of a
nested body where it stands. Where an entity is not known, nothing within it is looked at.

A statement describes a definition exactly if it has no fault, and otherwise the first one is
reported (`reports_definitionOf`). -/

namespace Metamodel

/-! ## Faults in document order -/

section Faults

variable (grammar : Grammar) (source : String)

/-- The fault of a word that is to name a field of an entity. -/
def Entity.faultsOfField (e : Entity) (field : Located String) : List SourceError :=
  if e.hasField field.value then [] else [.unknownField source e.name field.value field.span]

/-- The faults within the entity of the given name, or that there is no such entity. -/
def Grammar.faultsWithin (name : String) (span : Span) (faults : Entity → List SourceError) :
    List SourceError :=
  match grammar.entity? name with
  | some e => faults e
  | none => [.unknownEntity source name span]

mutual

/-- The faults of an entry of a definition of the given entity. -/
def Entry.faults (entity : Entity) : Entry → List SourceError
  | .property field _ => entity.faultsOfField source field
  | .links field _ => entity.faultsOfField source field
  | .child head _ body => match entity.childField? head.value with
    | some (_, target) =>
      grammar.faultsWithin source target head.span fun inner => Entry.faultsOfBody inner body
    | none => [.unknownField source entity.name head.value head.span]

/-- The faults of some entries, in order. -/
def Entry.faultsOfBody (entity : Entity) : List Entry → List SourceError
  | [] => []
  | entry :: rest => entry.faults entity ++ Entry.faultsOfBody entity rest

end

/-- The faults of a statement, in document order. -/
def Statement.faults (s : Statement) : List SourceError :=
  grammar.faultsWithin source s.entity.value s.entity.span fun entity =>
    Entry.faultsOfBody grammar source entity s.body

end Faults

/-! ## The first fault is reported -/

namespace Repository

variable (r : Repository) (source : String)

theorem reports_withField (d : Definition) (field : Located String) :
    Reports (withField source d field) (d.entity.faultsOfField source field) := by
  rw [withField, Entity.faultsOfField]
  split
  · exact .ok ()
  · exact .error _ []

theorem reports_entityAt_bind {α : Type} {f : Entity → Except SourceError α}
    {faults : Entity → List SourceError} (name : String) (span : Span)
    (h : ∀ e, Reports (f e) (faults e)) :
    Reports (r.entityAt source name span >>= f)
      (r.dialect.grammar.faultsWithin source name span faults) := by
  rw [entityAt, entity?, Grammar.faultsWithin]
  cases r.dialect.grammar.entity? name with
  | some e => exact h e
  | none => exact .error _ []

mutual

theorem reports_addEntry (d : Definition) :
    ∀ e : Entry, Reports (r.addEntry source d e)
      (e.faults r.dialect.grammar source d.entity)
  | .property field value => by
    rw [addEntry, Entry.faults]
    exact (reports_withField source d field).bind_pure fun _ =>
      d.setProperty field.value value.value
  | .links field targets => by
    rw [addEntry, Entry.faults]
    exact (reports_withField source d field).bind_pure fun _ =>
      d.addLinks field.value (targets.map Located.value)
  | .child head name body => by
    rw [addEntry, Entry.faults]
    cases d.entity.childField? head.value with
    | none => exact .error _ []
    | some place =>
      refine reports_entityAt_bind r source place.2 head.span fun inner => ?_
      exact (reports_addEntries (Definition.empty inner name.value d.package) body).bind_pure
        fun child => d.addChild place.1 child

theorem reports_addEntries (d : Definition) :
    ∀ es : List Entry, Reports (r.addEntries source d es)
      (Entry.faultsOfBody r.dialect.grammar source d.entity es)
  | [] => by
    rw [addEntries, Entry.faultsOfBody]
    exact .ok d
  | e :: es => by
    rw [addEntries, Entry.faultsOfBody]
    refine (reports_addEntry d e).bind fun d' hd' => ?_
    -- An entry leaves the entity as it is, so the rest is judged by the same one.
    rw [← entity_addEntry r source e hd']
    exact reports_addEntries d' es

end

/-- A statement describes a definition if it has no fault, or else its first fault is reported. -/
theorem reports_definitionOf (s : Statement) :
    Reports (r.definitionOf source s) (s.faults r.dialect.grammar source) :=
  reports_entityAt_bind r source s.entity.value s.entity.span fun _ =>
    reports_addEntries r source _ s.body

end Repository

end Metamodel
