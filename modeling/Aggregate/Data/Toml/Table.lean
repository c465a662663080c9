import Aggregate.Data.Basic
import Aggregate.Data.Toml.Text

/-!
# Putting TOML tables together

The lines of a document fill a tree of tables one after another. Which table a line may still change depends on how
that table came to be. Entries stay in the order in which they were made.

- `bindKey`: an entry with a key of one or more parts;
- `declareTable` and `declareItem`: the headers of tables and of items of a list of tables;
- `assemble`: the document that lines make up.
-/

namespace Aggregate.Toml

/-- How a table came to be. -/
inductive Origin where
  /-- Through a header of its own, or as the document itself. -/
  | declared
  /-- Through the header of a table inside it. -/
  | implied
  /-- Through the key of an entry inside it. -/
  | dotted
  deriving DecidableEq

/-- What a name is bound to while tables are put together. -/
inductive Node where
  | value (d : Data)
  | table (origin : Origin) (entries : List (String × Node))
  /-- A list of tables, the last one in front. -/
  | tables (last : List (String × Node)) (earlier : List (List (String × Node)))

/-- The entries of a table. -/
abbrev Entries := List (String × Node)

/-! ## The document of a tree -/

mutual

/-- The document of a node. -/
def Node.toData : Node → Data
  | .value d => d
  | .table _ entries => .table (Entries.toData entries)
  | .tables last earlier => .list (Entries.listData earlier [.table (Entries.toData last)])
termination_by structural n => n

/-- An entry of a document. -/
def Node.entryData : String × Node → String × Data
  | (name, n) => (name, n.toData)
termination_by structural e => e

/-- The entries of a document. -/
def Entries.toData : List (String × Node) → List (String × Data)
  | [] => []
  | e :: rest => Node.entryData e :: Entries.toData rest
termination_by structural es => es

/-- The documents of several tables in reverse order, in front of others. -/
def Entries.listData : List (List (String × Node)) → List Data → List Data
  | [], ds => ds
  | es :: rest, ds => Entries.listData rest (.table (Entries.toData es) :: ds)
termination_by structural ess => ess

end

/-! ## Changes -/

/-- The entries with a name bound to a node: in place, or behind the others. -/
def bindNode (name : String) (n : Node) : Entries → Entries
  | [] => [(name, n)]
  | e :: rest => if e.1 = name then (name, n) :: rest else e :: bindNode name n rest

/-- Changes the table at the end of a path. Tables that are missing on the way come to be as `origin` says. A key does
not lead into a table with a header of its own, and a path into a list of tables leads into the last one. -/
def within (origin : Origin) (change : Origin → Entries → Option Entries) :
    List String → Origin → Entries → Option Entries
  | [], own, entries => change own entries
  | name :: path, _, entries => do
    let node ← match entries.lookup name with
      | none => (within origin change path origin []).map (.table origin)
      | some (.value _) => none
      | some (.table own inner) =>
        if origin = .dotted && own = .declared then none
        else (within origin change path own inner).map (.table own)
      | some (.tables last earlier) => (within origin change path .declared last).map (.tables · earlier)
    return bindNode name node entries

/-- Binds a name that is not bound yet. -/
def bindNew (name : String) (d : Data) (entries : Entries) : Option Entries :=
  if (entries.lookup name).isSome then none else some (bindNode name (.value d) entries)

/-- Binds a key. A key of one part does not add to a table that a longer key has made, and a longer key adds only to
such a table. -/
def bindKey (key : Key) (d : Data) (own : Origin) (entries : Entries) : Option Entries :=
  within .dotted (fun own inner => if (own = .dotted) = (key.path = []) then none else bindNew key.name d inner)
    key.path own entries

/-- Declares a table, which may be there only through headers of tables inside it, and then moves to the end. -/
def declareTable (name : String) (entries : Entries) : Option Entries :=
  match entries.lookup name with
  | none => some (bindNode name (.table .declared []) entries)
  | some (.table .implied inner) => some (entries.filter (·.1 ≠ name) ++ [(name, .table .declared inner)])
  | some _ => none

/-- Declares one more item of a list of tables. -/
def declareItem (name : String) (entries : Entries) : Option Entries :=
  match entries.lookup name with
  | none => some (bindNode name (.tables [] []) entries)
  | some (.tables last earlier) => some (bindNode name (.tables [] (last :: earlier)) entries)
  | some _ => none

/-! ## Documents -/

/-- A line of a document. -/
inductive Line where
  | table (key : Key)
  | item (key : Key)
  | entry (key : Key) (d : Data)

/-- The tables put together so far. -/
structure Tree where
  /-- The table that entries go into. -/
  current : List String
  entries : Entries

/-- The tree with one more line. -/
def Tree.add (tree : Tree) : Line → Option Tree
  | .table key => do
    return ⟨key.parts, ← within .implied (fun _ => declareTable key.name) key.path .declared tree.entries⟩
  | .item key => do
    return ⟨key.parts, ← within .implied (fun _ => declareItem key.name) key.path .declared tree.entries⟩
  | .entry key d => do
    return { tree with entries := ← within .implied (bindKey key d) tree.current .declared tree.entries }

/-- The document that lines make up. -/
def assemble (lines : List Line) : Option Data := do
  let tree ← lines.foldlM Tree.add ⟨[], []⟩
  return .table (Entries.toData tree.entries)

/-- The table that the entries of an inline table make up. -/
def assembleInline (entries : List (Key × Data)) : Option Data :=
  assemble (entries.map fun (key, d) => .entry key d)

end Aggregate.Toml
