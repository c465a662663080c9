import Aggregate.ChangeSet.Execution

/-!
# Scripted execution

An executor that answers from a list of replies and remembers what it was shown, for looking at executions without a
store.
-/

namespace Aggregate.Scripted

/-- What an executor is shown with an action. -/
structure Sight where
  /-- The text of the action at that moment. -/
  text : String
  /-- The number of actions run before. -/
  executed : Nat
  dependency : Option ActionKind
  /-- The identifier made up for the dependency. -/
  dependencyId : Option Value
  deriving DecidableEq

/-- The replies still to give, and what was seen. -/
structure Script where
  replies : List (Except String (Option Value))
  seen : List Sight

/-- What is to be seen of an action. -/
def sight (w : Workspace) (a : Action) (executed : List Action) : Sight :=
  let dependency := a.dependency executed
  ⟨a.render w, executed.length, dependency.map (·.kind), dependency.bind (·.generatedId)⟩

/-- Gives the next reply; after the last one, every action succeeds without an identifier. -/
def executor : Executor Script := fun w a executed s =>
  ⟨s.replies.headD (.ok none), [], ⟨s.replies.tail, s.seen ++ [sight w a executed]⟩⟩

end Aggregate.Scripted
