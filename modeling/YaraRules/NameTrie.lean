/-! Names with values, kept in the order of insertion and found by name or by the
beginning of it. A tree of characters leads from a name to the places of its
values in the list of all items. -/

namespace YaraRules

namespace NameTrie

/-- Places of the values whose name ends here, and the longer names by their next character. -/
inductive Node where
  | mk (places : List Nat) (children : List (Char × Node))
deriving Inhabited

namespace Node

def empty : Node := mk [] []

def places : Node → List Nat
  | mk places _ => places

def children : Node → List (Char × Node)
  | mk _ children => children

/-- The node that a name leads to. -/
def find? : Node → List Char → Option Node
  | node, [] => some node
  | node, c :: name =>
    match node.children.lookup c with
    | some child => child.find? name
    | none => none

/-- Replaces the child for a character, or adds it. -/
def putChild (c : Char) (child : Node) : List (Char × Node) → List (Char × Node)
  | [] => [(c, child)]
  | (d, other) :: rest => if d == c then (d, child) :: rest else (d, other) :: putChild c child rest

/-- Changes the places at a name, which is added if it is missing. -/
def update (f : List Nat → List Nat) : Node → List Char → Node
  | mk places children, [] => mk (f places) children
  | mk places children, c :: name =>
    mk places (putChild c (update f ((children.lookup c).getD empty) name) children)

mutual

/-- Places of the values whose name goes through the node. -/
def allPlaces : Node → List Nat
  | mk places children => places ++ allPlacesBelow children

def allPlacesBelow : List (Char × Node) → List Nat
  | [] => []
  | (_, child) :: rest => child.allPlaces ++ allPlacesBelow rest

end

end Node

end NameTrie

/-- A map from names to values that may hold a name more than once. -/
structure NameTrie (α : Type) where
  root : NameTrie.Node := .empty
  /-- Every item ever inserted; those that were removed leave a gap. -/
  items : Array (Option (String × α)) := #[]
  size : Nat := 0
deriving Inhabited

namespace NameTrie

variable {α : Type}

def isEmpty (t : NameTrie α) : Bool := t.size == 0

def placesOf (t : NameTrie α) (name : String) : List Nat :=
  match t.root.find? name.toList with
  | some node => node.places
  | none => []

def valueAt? (t : NameTrie α) (place : Nat) : Option α := (t.items[place]?).join.map (·.2)

/-- The first value inserted under a name. -/
def get? (t : NameTrie α) (name : String) : Option α := do
  t.valueAt? (← (t.placesOf name).head?)

def contains (t : NameTrie α) (name : String) : Bool := (t.get? name).isSome

/-- Adds a value also if the name is taken. -/
def insertAgain (t : NameTrie α) (name : String) (value : α) : NameTrie α where
  root := t.root.update (· ++ [t.items.size]) name.toList
  items := t.items.push (some (name, value))
  size := t.size + 1

/-- Adds a value unless the name is taken. -/
def insert? (t : NameTrie α) (name : String) (value : α) : Option (NameTrie α) :=
  if t.contains name then none else some (t.insertAgain name value)

private def setValue (value : α) : Option (String × α) → Option (String × α) :=
  Option.map fun (name, _) => (name, value)

/-- Replaces the first value under a name. -/
def set (t : NameTrie α) (name : String) (value : α) : NameTrie α :=
  match (t.placesOf name).head? with
  | some place => { t with items := t.items.modify place (setValue value) }
  | none => t

/-- Values whose name starts with `start`, in the order of insertion. -/
def findByStart (t : NameTrie α) (start : String) : List α :=
  match t.root.find? start.toList with
  | some node =>
    let places := node.allPlaces
    ((List.range t.items.size).filter places.contains).filterMap t.valueAt?
  | none => []

/-- Removes every value under a name and gives them back. -/
def remove (t : NameTrie α) (name : String) : List α × NameTrie α :=
  match t.root.find? name.toList with
  | some node =>
    let places := node.places
    (places.filterMap t.valueAt?,
      { root := t.root.update (fun _ => []) name.toList
        items := places.foldl (fun items place => items.modify place fun _ => none) t.items
        size := t.size - places.length })
  | none => ([], t)

/-- Moves the values of one name to another, unless that one is taken or the first has none. -/
def rename? (t : NameTrie α) (old new : String) : Option (NameTrie α) :=
  if t.contains new then none
  else
    match t.placesOf old with
    | [] => none
    | places =>
      some { t with
        root := (t.root.update (fun _ => []) old.toList).update (fun _ => places) new.toList
        items := places.foldl
          (fun items place => items.modify place (Option.map fun (_, value) => (new, value)))
          t.items }

/-- Names and values in the order of insertion. -/
def toList (t : NameTrie α) : List (String × α) := t.items.toList.filterMap id

def values (t : NameTrie α) : List α := t.toList.map (·.2)

/-- Changes every value. -/
def mapValues (t : NameTrie α) (f : α → α) : NameTrie α :=
  { t with items := t.items.map (Option.map fun (name, value) => (name, f value)) }

end NameTrie

end YaraRules
