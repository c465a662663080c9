import Aggregate.Unicode.Blank
import Aggregate.Unicode.Case

/-!
# Entity types

What is declared about the entities of one type: their identifier property, and their properties with the way each
holds its value.

- `Property` and `EntityType`;
- `EntityType.references`: the properties through which an entity holds other entities with rows of their own, and
  the types of those entities;
- `EntityType.defect?`: what is wrong with a declaration, if anything.
-/

namespace Aggregate

/-- How a property holds its value. -/
inductive Holding where
  /-- A plain value in the owner's row. -/
  | scalar
  /-- A reference to one entity. -/
  | single
  /-- A value object that is stored with its owner. -/
  | embedded
  /-- A list of entities, each known by its index. -/
  | list
  /-- A map of entities, each known by its key. -/
  | map
  /-- A set of entities. -/
  | set
  deriving DecidableEq, Repr

/-- The name of a holding in declarations. -/
def Holding.name : Holding → String
  | scalar => "scalar"
  | single => "single"
  | embedded => "embedded"
  | list => "list"
  | map => "map"
  | set => "set"

/-- A declared property. -/
structure Property where
  name : String
  /-- The type of the entities held. -/
  target : Option String
  holding : Holding
  /-- The column that keeps an index or a map key. -/
  keyColumn : Option String
  /-- An immutable container keeps its kind. -/
  immutable : Bool
  deriving DecidableEq, Repr

namespace Property

/-- Whether the property holds entities. -/
def isEntity (p : Property) : Bool := p.target.isSome && p.holding != .scalar

/-- Whether the property's value is stored with its owner. -/
def isEmbedded (p : Property) : Bool := p.holding == .embedded

/-- Whether the property is a map. -/
def isMap (p : Property) : Bool := p.holding == .map

/-- Whether the entities held are told apart by an index or a key. -/
def isQualified (p : Property) : Bool := p.holding == .list || p.holding == .map

/-- Whether the property holds a container. -/
def isCollection (p : Property) : Bool := p.isQualified || p.holding == .set

/-- The column for an index or a map key: the declared one, or else the owner's name in snake case and `_key`. -/
def keyColumnFor (p : Property) (owner : String) : String :=
  p.keyColumn.getD (Unicode.snakeCase owner ++ "_key")

end Property

/-- A property that holds entities with rows of their own, and their type. -/
structure Reference where
  property : Property
  target : String
  deriving DecidableEq, Repr

/-- The property as a reference, if it is one. -/
def Property.reference? (p : Property) : Option Reference :=
  match p.target, p.holding with
  | none, _ | some _, .scalar | some _, .embedded => none
  | some target, _ => some ⟨p, target⟩

/-- A declared entity type. -/
structure EntityType where
  name : String
  idProperty : Option String
  properties : List Property
  deriving DecidableEq, Repr

namespace EntityType

/-- The property declared under a name; the first one counts. -/
def property? (e : EntityType) (name : String) : Option Property :=
  e.properties.find? (·.name == name)

/-- Whether a name is that of the identifier or of a declared property. -/
def declares (e : EntityType) (name : String) : Bool :=
  e.idProperty == some name || (e.property? name).isSome

/-- The properties that hold entities with rows of their own, in order of declaration. -/
def references (e : EntityType) : List Reference :=
  e.properties.filterMap Property.reference?

/-! ## Defects -/

/-- What can be wrong with the declaration of an entity type. -/
inductive Defect where
  | blankName
  | blankIdProperty
  | untargeted (property : String)
  | blankKeyColumn (property : String)
  deriving DecidableEq, Repr

/-- The text of a defect. -/
def Defect.message : Defect → String
  | blankName => "Entity name cannot be empty"
  | blankIdProperty => "Identifier property cannot be empty"
  | untargeted property => "Property '" ++ property ++ "' has no target type"
  | blankKeyColumn property => "Property '" ++ property ++ "' has an empty key column"

/-- Whether an optional name is given but blank. -/
def isBlankName (name : Option String) : Bool := name.any Unicode.isBlankText

/-- What is wrong with one property. -/
def propertyDefect? (p : Property) : Option Defect :=
  if p.holding != .scalar && p.target.isNone then some (.untargeted p.name)
  else if isBlankName p.keyColumn then some (.blankKeyColumn p.name)
  else none

/-- The first thing that is wrong with a declaration. -/
def defect? (e : EntityType) : Option Defect :=
  if Unicode.isBlankText e.name then some .blankName
  else if isBlankName e.idProperty then some .blankIdProperty
  else e.properties.findSome? propertyDefect?

end EntityType

end Aggregate
