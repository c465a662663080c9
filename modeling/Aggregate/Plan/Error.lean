import Aggregate.Plan.Action

/-!
# Errors of changes

Why a change cannot be planned or carried out.
-/

namespace Aggregate

/-- What a change asks of its surroundings. -/
inductive Precondition where
  /-- An update needs the identifier of the root. -/
  | unidentifiedRoot (type : String)
  /-- An identifier can be written back to a registered type only. -/
  | unregistered (type : String) (id : Value)
  /-- An identifier can be written back to a type with an identifier property only. -/
  | noIdProperty (type : String) (id : Value)
  /-- An identifier can be written back where there is a value only. -/
  | noValue (node : Address) (id : Value)
  deriving DecidableEq

/-- The text of a precondition that does not hold. -/
def Precondition.message : Precondition → String
  | unidentifiedRoot type => "Cannot update " ++ type ++ " without an identifier"
  | unregistered type id =>
    type ++ " is not a registered entity and cannot receive generated id " ++ id.render
  | noIdProperty type id => type ++ " has no identifier property to receive generated id " ++ id.render
  | noValue node id => "No value at " ++ node.render ++ " to receive generated id " ++ id.render

/-- An action that its executor could not carry out. -/
structure ExecutionFailure where
  kind : ActionKind
  /-- What the action was about to write. -/
  described : String
  /-- The executor's reason. -/
  cause : String
  deriving DecidableEq

/-- Why a change cannot be planned or carried out. -/
inductive ChangeError where
  | resolution (cause : ResolutionError)
  | mapping (cause : MappingError)
  | execution (failure : ExecutionFailure)
  | precondition (broken : Precondition)
  deriving DecidableEq

/-- The text of a change error. -/
def ChangeError.message : ChangeError → String
  | resolution cause => "Resolution failed: " ++ cause.message
  | mapping cause => "Mapping error: " ++ cause.message
  | execution failure => "Failed to execute " ++ failure.kind.label ++ " for " ++ failure.described
  | precondition broken => "Precondition violated: " ++ broken.message

end Aggregate
