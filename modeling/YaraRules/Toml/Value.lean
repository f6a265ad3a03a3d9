/-! Values of TOML documents, and tables as they are put together. Where a table came
from decides what may be added to it later. -/

namespace YaraRules.Toml

inductive Value where
  | string (text : String)
  | integer (value : Int)
  /-- A binary64 number by its bits. -/
  | float (bits : UInt64)
  | boolean (value : Bool)
  /-- A date, a time or both, as written. -/
  | datetime (text : String)
  | array (items : List Value)
  | table (entries : List (String × Value))
deriving Inhabited

/-- How a table came into being. -/
inductive Origin where
  /-- By a header of its own, or in braces. -/
  | written
  /-- By the header of a table inside it. -/
  | implied
  /-- By dotted keys. -/
  | dotted
deriving DecidableEq, Inhabited, Repr

/-- What stands under a key while a document is read. -/
inductive Node where
  | value (value : Value)
  | table (origin : Origin) (entries : List (String × Node))
  /-- Tables with the same header in double brackets. -/
  | tables (items : List (List (String × Node)))
deriving Inhabited

abbrev Entries := List (String × Node)

namespace Node

mutual

/-- The value of a finished node. -/
def toValue : Node → Value
  | value v => v
  | table _ entries => .table (entriesToValues entries)
  | tables items => .array (tablesToValues items)

def entriesToValues : List (String × Node) → List (String × Value)
  | [] => []
  | (key, node) :: rest => (key, node.toValue) :: entriesToValues rest

def tablesToValues : List (List (String × Node)) → List Value
  | [] => []
  | entries :: rest => .table (entriesToValues entries) :: tablesToValues rest

end

end Node

namespace Entries

def get? (entries : Entries) (key : String) : Option Node := entries.lookup key

/-- Puts a node under a key, in place of the one that is there. -/
def put (entries : Entries) (key : String) (node : Node) : Entries :=
  if (entries.get? key).isSome then
    entries.map fun (k, old) => if k == key then (k, node) else (k, old)
  else entries ++ [(key, node)]

/-- Changes the table that a path leads to from a table. Tables on the way are added
with origin `missing`; of tables in double brackets the last one counts. Dotted
keys do not lead through a table that was written. -/
def update (missing : Origin) (change : Origin → Entries → Option Entries) :
    List String → Origin → Entries → Option Entries
  | [], origin, entries => change origin entries
  | key :: path, _, entries =>
    match entries.get? key with
    | none => do
      return entries.put key (.table missing (← update missing change path missing []))
    | some (.value _) => none
    | some (.table origin inner) =>
      if missing = .dotted ∧ origin = .written then none
      else do return entries.put key (.table origin (← update missing change path origin inner))
    | some (.tables items) =>
      match items.getLast? with
      | none => none
      | some last => do
        let last ← update missing change path .written last
        return entries.put key (.tables (items.dropLast ++ [last]))

/-- Adds a value under a dotted key. All parts but the last name tables, and the
table of the last part has to be of the dotted kind if there are any. -/
def insert (path : List String) (key : String) (value : Value) (origin : Origin)
    (entries : Entries) : Option Entries :=
  entries.update .dotted (fun origin inner =>
    if (origin == .dotted) == path.isEmpty then none
    else if (inner.get? key).isSome then none
    else some (inner.put key (.value value))) path origin

/-- Opens the table of a header. A table that was only implied may be opened once. -/
def openTable (path : List String) (key : String) (entries : Entries) : Option Entries :=
  entries.update .implied (fun _ inner =>
    match inner.get? key with
    | none => some (inner.put key (.table .written []))
    | some (.table .implied below) => some (inner.put key (.table .written below))
    | some _ => none) path .written

/-- Starts another table of a header in double brackets. -/
def openNext (path : List String) (key : String) (entries : Entries) : Option Entries :=
  entries.update .implied (fun _ inner =>
    match inner.get? key with
    | none => some (inner.put key (.tables [[]]))
    | some (.tables items) => some (inner.put key (.tables (items ++ [[]])))
    | some _ => none) path .written

end Entries

end YaraRules.Toml
