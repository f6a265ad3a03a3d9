import YaraRules.Features
import YaraRules.Symbol

/-! How a module states what it offers: a list of declarations, some of them
visible only with certain features. -/

namespace YaraRules

/-- A declaration inside a structure. -/
inductive Declaration where
  | values (type : ValueType) (names : List String)
  /-- Overloads of a function, by their argument types. -/
  | function (name : String) (args : List (List ValueType)) (result : ValueType)
  | array (name : String) (type : ValueType)
  | dictionary (name : String) (type : ValueType)
  | arrayOf (name : String) (declarations : List Declaration)
  | structure (name : String) (declarations : List Declaration)
  /-- Visible only if one of the features is selected. -/
  | only (features : Features) (declarations : List Declaration)

namespace Declaration

abbrev integers (names : List String) : Declaration := values .integer names

abbrev strings (names : List String) : Declaration := values .string names

/-- Overloads that a function of this name already has. -/
private def overloadsOf (name : String) (attributes : List Symbol) : List Signature :=
  match attributes.find? (·.name == name) with
  | some symbol => symbol.overloads
  | none => []

mutual

/-- Attributes after a declaration, given those before it. -/
def addTo (features : Features) : Declaration → List Symbol → List Symbol
  | values type names, attributes =>
    names.foldl (fun attributes name => (Symbol.value name type).putAttribute attributes) attributes
  | function name args result, attributes =>
    let overloads := args.foldl
      (fun overloads args => (Signature.declared name args result).insertSorted overloads)
      (overloadsOf name attributes)
    (Symbol.function name overloads).putAttribute attributes
  | array name type, attributes => (Symbol.array name type none).putAttribute attributes
  | dictionary name type, attributes => (Symbol.dictionary name type none).putAttribute attributes
  | arrayOf name declarations, attributes =>
    let element := Symbol.structure name (addAll features declarations [])
    (Symbol.array name .object (some element)).putAttribute attributes
  | .structure name declarations, attributes =>
    (Symbol.structure name (addAll features declarations [])).putAttribute attributes
  | only needed declarations, attributes =>
    if features.intersects needed then addAll features declarations attributes else attributes

/-- Attributes after declarations in order. -/
def addAll (features : Features) : List Declaration → List Symbol → List Symbol
  | [], attributes => attributes
  | declaration :: rest, attributes =>
    addAll features rest (declaration.addTo features attributes)

end

end Declaration

end YaraRules
