import Aggregate.Data.Binary64

/-!
# Documents

The tree that a text in a data format stands for. Tables keep their entries as written, repetitions included.
-/

namespace Aggregate

/-- The content of a document. -/
inductive Data where
  | null
  | bool (b : Bool)
  | int (n : Int)
  | real (x : Binary64)
  | text (s : String)
  /-- Something that is none of the others, such as a date, by its spelling. -/
  | other (spelling : String)
  | list (items : List Data)
  | table (entries : List (String × Data))

namespace Data

instance : Inhabited Data := ⟨.null⟩

end Data

end Aggregate
