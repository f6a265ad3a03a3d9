import YaraRules.Signature

/-! Symbols: what an identifier of a condition can stand for, and the tables that
names are looked up in. -/

namespace YaraRules

/-- A named thing that conditions can refer to. -/
inductive Symbol where
  /-- A single value. -/
  | value (name : String) (type : ValueType)
  /-- Elements indexed by integers. `element` describes them when they are structures. -/
  | array (name : String) (type : ValueType) (element : Option Symbol)
  /-- Elements indexed by strings. -/
  | dictionary (name : String) (type : ValueType) (element : Option Symbol)
  /-- A function with its overloads, ordered by mangled name. -/
  | function (name : String) (overloads : List Signature)
  /-- A structure with its attributes in order of declaration. -/
  | structure (name : String) (attributes : List Symbol)
deriving Inhabited

namespace Symbol

def name : Symbol → String
  | value name _ => name
  | array name _ _ => name
  | dictionary name _ _ => name
  | function name _ => name
  | .structure name _ => name

/-- Type of an expression that names the symbol. -/
def type : Symbol → ValueType
  | value _ type => type
  | _ => .object

/-- Type of the elements of an array or a dictionary. -/
def elementType? : Symbol → Option ValueType
  | array _ type _ => some type
  | dictionary _ type _ => some type
  | _ => none

/-- Structure of the elements of an array or a dictionary of structures. -/
def element? : Symbol → Option Symbol
  | array _ _ element => element
  | dictionary _ _ element => element
  | _ => none

def overloads : Symbol → List Signature
  | function _ overloads => overloads
  | _ => []

def attributes : Symbol → List Symbol
  | .structure _ attributes => attributes
  | _ => []

def isStructure : Symbol → Bool
  | .structure .. => true
  | _ => false

def isArray : Symbol → Bool
  | array .. => true
  | _ => false

def isDictionary : Symbol → Bool
  | dictionary .. => true
  | _ => false

def isFunction : Symbol → Bool
  | function .. => true
  | _ => false

/-- The same symbol under another name, as loop variables need it. -/
def renamed (name : String) : Symbol → Symbol
  | value _ type => value name type
  | array _ type element => array name type element
  | dictionary _ type element => dictionary name type element
  | function _ overloads => function name overloads
  | .structure _ attributes => .structure name attributes

/-- The attribute of a structure with the given name. -/
def attribute? (symbol : Symbol) (name : String) : Option Symbol :=
  symbol.attributes.find? (·.name == name)

/-- One-line description. -/
def text : Symbol → String
  | value name type => name ++ ": " ++ type.text
  | array name type _ => name ++ ": array<" ++ type.text ++ ">"
  | dictionary name type _ => name ++ ": dictionary<" ++ type.text ++ ">"
  | function name _ => name ++ ": function"
  | .structure name _ => name ++ ": struct"

/-- Adds an attribute; one of the same name is replaced where it stands. -/
def putAttribute (symbol : Symbol) : List Symbol → List Symbol
  | [] => [symbol]
  | other :: rest =>
    if other.name == symbol.name then symbol :: rest else other :: putAttribute symbol rest

end Symbol

/-- A map from names to symbols. -/
structure SymbolTable where
  symbols : List Symbol := []
deriving Inhabited

namespace SymbolTable

def lookup? (table : SymbolTable) (name : String) : Option Symbol :=
  table.symbols.find? (·.name == name)

def contains (table : SymbolTable) (name : String) : Bool := (table.lookup? name).isSome

def isEmpty (table : SymbolTable) : Bool := table.symbols.isEmpty

/-- Adds a symbol under its own name, in place of the symbol that had it. -/
def insert (table : SymbolTable) (symbol : Symbol) : SymbolTable :=
  ⟨Symbol.putAttribute symbol table.symbols⟩

end SymbolTable

end YaraRules
