import Mathlib.Data.List.Forall2
import YaraRules.Proofs.NameRoles

/-! What the words of a condition stand for and what types its nodes have, said of the
condition alone. A condition sees rules and modules that came before it, the strings
of its own rule and the variables of the loops around each expression. -/

namespace YaraRules

/-- A loop, as the expressions in its body see it. -/
inductive Loop where
  /-- Over strings. -/
  | strings
  /-- Over what an iterable holds. -/
  | through (vars : List Handle) (iterable : Expr)

/-- Where an expression stands in a condition. -/
structure Site where
  /-- Loops whose body holds the expression, the innermost first. -/
  loops : List Loop := []
  /-- The expression is what a quantifier chooses from. -/
  choice : Bool := false

namespace Expr

/-- Where the children of an expression stand, given the loops around it. -/
def sitesBelow (loops : List Loop) : Expr → List Site
  | of .. => [⟨loops, false⟩, ⟨loops, true⟩]
  | ofAnchored .. => [⟨loops, false⟩, ⟨loops, true⟩, ⟨loops, false⟩]
  | forOf .. => [⟨loops, false⟩, ⟨loops, true⟩, ⟨.strings :: loops, false⟩]
  | forIn _ _ _ vars _ iterable _ _ => [⟨loops, false⟩, ⟨loops, false⟩, ⟨.through vars iterable :: loops, false⟩]
  | e => e.children.map fun _ => ⟨loops, false⟩

/-- The children of an expression with the places where they stand. -/
def placed (loops : List Loop) (e : Expr) : List (Site × Expr) := (e.sitesBelow loops).zip e.children

/-- Every node of an expression with the place where it stands. -/
def sited (e : Expr) (site : Site) : List (Site × Expr) :=
  e.fold (fun e below site =>
    (site, e) :: ((e.sitesBelow site.loops).zipWith (fun site child => child site) below).flatten) site

theorem sited_eq (e : Expr) (site : Site) :
    e.sited site = (site, e) :: (e.placed site.loops).flatMap fun child => child.2.sited child.1 := by
  rw [sited, fold_eq, placed, List.zip, List.flatMap, List.map_zipWith, List.zipWith_map_right]
  rfl

theorem mem_sited_self (e : Expr) (site : Site) : (site, e) ∈ e.sited site := by
  rw [sited_eq]
  exact List.mem_cons_self

theorem children_of_placed {loops : List Loop} {e : Expr} {child : Site × Expr} (member : child ∈ e.placed loops) :
    child.2 ∈ e.children := (List.of_mem_zip member).2

end Expr

/-! ### What is accepted -/

/-- The type is one of these or is not known before a file is scanned. -/
def ValueType.Among (types : List ValueType) (type : ValueType) : Prop := type = .undefined ∨ type ∈ types

/-- Types that may be negated and the like. Anything may be tested for being defined. -/
def UnaryOp.accepted : UnaryOp → List ValueType
  | not => [.boolean, .integer, .float, .string]
  | minus => [.integer, .float]
  | bitNot => [.integer]
  | defined => [.boolean, .integer, .string, .regexp, .object, .float]

namespace BinaryOp

/-- Operators that give a number that may have a fraction. -/
def isArithmetic : BinaryOp → Bool
  | plus | minus | multiply | divide => true
  | _ => false

/-- Operators that work on whole numbers only. -/
def isIntegral : BinaryOp → Bool
  | modulo | bitXor | bitAnd | bitOr | shiftLeft | shiftRight => true
  | _ => false

def acceptedLeft : BinaryOp → List ValueType
  | and | or => [.boolean, .integer, .float, .string]
  | lt | gt | le | ge | eq | ne => [.integer, .float, .string, .boolean]
  | contains | icontains | startsWith | istartsWith | endsWith | iendsWith | iequals | .matches => [.string]
  | plus | minus | multiply | divide => [.integer, .float]
  | modulo | bitXor | bitAnd | bitOr | shiftLeft | shiftRight => [.integer]

/-- Types on the right of an operator, given the type on its left. -/
def acceptedRight (left : ValueType) : BinaryOp → List ValueType
  | .matches => [.regexp]
  | lt | gt | le | ge | eq | ne =>
    match left with
    | .string => [.string]
    | .boolean => [.boolean]
    | _ => [.integer, .float]
  | op => op.acceptedLeft

end BinaryOp

namespace Signature

/-- An argument of a type goes for a parameter: an integer goes for a float and an undefined value for anything. -/
def Passes (expected actual : ValueType) : Prop :=
  actual = .undefined ∨ actual = expected ∨ expected = .float ∧ actual = .integer

instance (expected actual : ValueType) : Decidable (Passes expected actual) := inferInstanceAs (Decidable (_ ∨ _))

/-- A function takes arguments of these types. -/
def Takes (s : Signature) (actual : List ValueType) : Prop := List.Forall₂ Passes s.args actual

instance (s : Signature) (actual : List ValueType) : Decidable (s.Takes actual) :=
  inferInstanceAs (Decidable (List.Forall₂ ..))

theorem accepts_iff (s : Signature) (actual : List ValueType) : s.accepts actual = true ↔ s.Takes actual := by
  have passes_iff (expected actual : ValueType) : passes expected actual = true ↔ Passes expected actual := by
    simp only [passes, Passes, Bool.or_eq_true, Bool.and_eq_true, beq_iff_eq]
    tauto
  unfold accepts Takes
  rw [List.forall₂_iff_zip]
  simp only [Bool.and_eq_true, beq_iff_eq, List.all_eq_true, Prod.forall, passes_iff]

end Signature

/-- The type of an expression of one token that names nothing. -/
def AtomKind.type : AtomKind → ValueType
  | boolean | stringRef | wildcard => .boolean
  | string => .string
  | float => .float
  | integer | filesize | entrypoint | all | any | none | count | offset | length => .integer
  | them | name => .undefined

/-! ### What is in sight -/

/-- What a name stands for. -/
inductive Referent where
  | rule
  | symbol (value : Symbol)

namespace Referent

def symbol? : Referent → Option Symbol
  | rule => none
  | symbol value => some value

def type : Referent → ValueType
  | rule => .boolean
  | symbol value => value.type

end Referent

/-- What the condition of a rule sees outside of itself. -/
structure Outlook where
  /-- Texts of the tokens of the condition. -/
  word : Handle → String
  /-- Names of the rules before. -/
  rules : List String
  /-- Imports of modules before. -/
  imports : List Import
  globals : List Symbol
  /-- Strings of the rule. -/
  strings : List StringDefinition

namespace Outlook

variable (o : Outlook) (scopes : List SymbolTable)

/-- What a name stands for: a variable of the innermost loop that has it, a rule, a module or a global. -/
def referent? (name : String) : Option Referent :=
  match scopes.findSome? (·.lookup? name) with
  | some symbol => some (.symbol symbol)
  | none =>
    if name ∈ o.rules then some .rule
    else
      match o.imports.find? (·.moduleName == name) with
      | some i => some (.symbol i.imported.content)
      | none => (o.globals.find? (·.name == name)).map .symbol

/-- The symbol of a name, a field or an element. -/
def symbolOf : Expr → Option Symbol
  | .atom _ .name token => (o.referent? scopes (o.word token)).bind Referent.symbol?
  | .field _ structure_ _ member => (symbolOf structure_).bind (·.attribute? (o.word member))
  | .index _ array _ _ _ => (symbolOf array).bind Symbol.element?
  | _ => none

mutual

/-- The type of an expression, from its leaves and their symbols. What a quantifier chooses from has none. -/
def typeOf : Expr → ValueType
  | .atom _ .name token => ((o.referent? scopes (o.word token)).map Referent.type).getD .undefined
  | .atom _ kind _ => kind.type
  | .regexp .. => .regexp
  | .stringAt .. => .boolean
  | .stringIn _ counted _ _ _ => if counted then .integer else .boolean
  | .stringIndexed .. => .integer
  | .unary _ .minus _ operand => typeOf operand
  | .unary _ .bitNot _ _ => .integer
  | .unary _ _ _ _ => .boolean
  | .binary _ op left _ right =>
    if op.isArithmetic then
      if typeOf left = .float ∨ typeOf right = .float then .float else .integer
    else if op.isIntegral then .integer
    else .boolean
  | .paren _ _ inner _ => typeOf inner
  | .range .. => .integer
  | .set _ _ elements _ => (typesOf elements).headD .undefined
  | e@(.field ..) => ((o.symbolOf scopes e).map Symbol.type).getD .undefined
  | .index _ array _ _ _ => ((o.symbolOf scopes array).bind Symbol.elementType?).getD .undefined
  | .call _ function _ args _ =>
    let types := typesOf args
    let overloads := ((o.symbolOf scopes function).map Symbol.overloads).getD []
    ((overloads.find? fun signature => signature.Takes types).map Signature.result).getD .undefined
  | .integerFunction .. => .integer
  | .of .. | .ofAnchored .. | .forOf .. | .forIn .. => .boolean
  | .percentage .. => .integer

def typesOf : List Expr → List ValueType
  | [] => []
  | e :: rest => typeOf e :: typesOf rest

end

theorem typesOf_eq (es : List Expr) : o.typesOf scopes es = es.map (o.typeOf scopes) := by
  induction es with
  | nil => rfl
  | cons e rest later => rw [typesOf, later, List.map_cons]

/-- What a variable holds while a loop goes through an iterable, by its place among the variables. -/
def heldBy (iterable : Expr) (place : Nat) (name : String) : Symbol :=
  match o.symbolOf scopes iterable, iterable with
  | some container, _ =>
    if container.isDictionary ∧ place = 0 then .value name .string
    else
      match container.element? with
      | some element => element.renamed name
      | none => .value name (container.elementType?.getD .undefined)
  | none, .set .. => .value name (o.typeOf scopes iterable)
  | none, _ => .value name .integer

/-- The variables of the loops around an expression, the innermost loop first. -/
def tables : List Loop → List SymbolTable
  | [] => []
  | .strings :: loops => tables loops
  | .through vars iterable :: loops =>
    ⟨vars.mapIdx fun place var => o.heldBy (tables loops) iterable place (o.word var)⟩ :: tables loops

/-- The type of an expression where it stands. -/
def typeAt (site : Site) (e : Expr) : ValueType := if site.choice then .undefined else o.typeOf (o.tables site.loops) e

/-- A name stands for something. -/
def Known (loops : List Loop) (name : String) : Prop :=
  (∃ vars iterable, .through vars iterable ∈ loops ∧ ∃ var ∈ vars, o.word var = name) ∨ name ∈ o.rules ∨
    (∃ i ∈ o.imports, i.moduleName = name) ∨ ∃ symbol ∈ o.globals, symbol.name = name

/-- A reference, with whatever sigil, names a string of the rule; or it is bare and the string is that of a loop. -/
def NamesString (loops : List Loop) (reference : String) : Prop :=
  match reference.toList.drop 1 with
  | [] => .strings ∈ loops
  | name => ∃ string ∈ o.strings, (o.word string.id).toList = '$' :: name

/-- The words of a node stand for what there is. -/
def Bound (loops : List Loop) : Expr → Prop
  | .atom _ .name token => o.Known loops (o.word token)
  | .atom _ .wildcard token =>
    ∃ string ∈ o.strings, (Grammar.withoutStars (o.word token)).toList <+: (o.word string.id).toList
  | .atom _ .them _ => o.strings ≠ []
  | .forIn _ _ _ vars _ _ _ _ => (vars.map o.word).Nodup ∧ ∀ var ∈ vars, ¬ o.Known loops (o.word var)
  | e => ∀ token, e.stringToken? = some token → o.NamesString loops (o.word token)

/-- The operands of a node have types that it accepts, or types that are not known. -/
def Fitting (loops : List Loop) : Expr → Prop
  | .unary _ op _ operand => operand.type.Among op.accepted
  | .binary _ op left _ right => left.type.Among op.acceptedLeft ∧ right.type.Among (op.acceptedRight left.type)
  | .range _ _ low _ high _ => low.type.Among [.integer] ∧ high.type.Among [.integer]
  | .stringAt _ _ _ offset => offset.type.Among [.integer]
  | .stringIndexed _ _ _ _ index _ => index.type.Among [.integer]
  | .field _ structure_ _ member => ∃ symbol, o.symbolOf (o.tables loops) structure_ = some symbol ∧
      (symbol.attribute? (o.word member)).isSome
  | .index _ array _ index _ => ∃ container, o.symbolOf (o.tables loops) array = some container ∧
      (container.isArray ∧ index.type.Among [.integer] ∨ container.isDictionary ∧ index.type.Among [.string])
  | .call _ function _ args _ => ∃ symbol, o.symbolOf (o.tables loops) function = some symbol ∧
      ∃ signature ∈ symbol.overloads, signature.Takes (args.map Expr.type)
  | .integerFunction _ _ _ arg _ => arg.type.Among [.integer]
  | .of _ quantifier _ _ => quantifier.type.Among [.integer]
  | .ofAnchored _ quantifier _ _ _ anchor => quantifier.type.Among [.integer] ∧ anchor.type.Among [.integer]
  | .forOf _ _ quantifier _ _ _ _ => quantifier.type.Among [.integer]
  | .forIn _ _ quantifier _ _ iterable _ _ => quantifier.type.Among [.integer] ∧
      ∀ type opening elements closing, iterable = .set type opening elements closing →
        (∀ element ∈ elements, element.type.Among [.integer]) ∨ ∀ element ∈ elements, element.type.Among [.string]
  | .percentage _ operand _ => operand.type.Among [.integer]
  | _ => True

/-- A node means something where it stands. -/
structure Fits (site : Site) (e : Expr) : Prop where
  bound : o.Bound site.loops e
  typed : e.type = o.typeAt site e
  fitting : o.Fitting site.loops e

/-- Every node of an expression means something. -/
def Fine (site : Site) (e : Expr) : Prop := ∀ node ∈ e.sited site, o.Fits node.1 node.2

variable {o}

theorem Fine.root {site : Site} {e : Expr} (fine : o.Fine site e) : o.Fits site e := fine _ (e.mem_sited_self site)

/-- What is made of good parts is good if it fits them together. -/
theorem Fine.node {site : Site} {e : Expr} (fits : o.Fits site e)
    (below : ∀ child ∈ e.placed site.loops, o.Fine child.1 child.2) : o.Fine site e := by
  intro node member
  rw [Expr.sited_eq, List.mem_cons, List.mem_flatMap] at member
  rcases member with rfl | ⟨child, inside, deeper⟩
  · exact fits
  · exact below child inside node deeper

theorem Fine.type {loops : List Loop} {e : Expr} (fine : o.Fine ⟨loops, false⟩ e) :
    e.type = o.typeOf (o.tables loops) e :=
  fine.root.typed

/-- A side that is a string or a boolean is compared with one of the same type or with one whose type is not known. -/
theorem Fitting.unmixed {loops : List Loop} {type : ValueType} {op : BinaryOp} {left right : Expr} {token : Handle}
    (fitting : o.Fitting loops (.binary type op left token right)) (compares : op.isComparison)
    (strict : left.type ∈ [.string, .boolean] ∨ right.type ∈ [.string, .boolean]) :
    left.type = right.type ∨ left.type = .undefined ∨ right.type = .undefined := by
  obtain ⟨onLeft, onRight⟩ := fitting
  revert onLeft onRight strict
  generalize left.type = l
  generalize right.type = r
  unfold ValueType.Among
  cases op <;> cases compares <;> cases l <;> cases r <;> decide

/-! ### Other words -/

/-- The same things in sight while tokens have other texts. -/
def reworded (o : Outlook) (word : Handle → String) : Outlook := { o with word }

section

variable {word : Handle → String} {scopes : List SymbolTable}

private theorem symbolOf_congr (e : Expr) (same : ∀ h ∈ e.handles, word h = o.word h) :
    (o.reworded word).symbolOf scopes e = o.symbolOf scopes e := by
  induction e using Expr.by_children with
  | step e below =>
    cases e with
    | atom type kind token =>
      cases kind with
      | name =>
        exact congrArg (fun text => (o.referent? scopes text).bind Referent.symbol?)
          (same token (by simp [Expr.handles]))
      | _ => rfl
    | field type structure_ dot member =>
      have inner := below structure_ (by simp [Expr.children]) fun h inside => same h (by simp [Expr.handles, inside])
      have word : word member = o.word member := same member (by simp [Expr.handles])
      simp only [symbolOf, inner]
      exact congrArg (fun text => (o.symbolOf scopes structure_).bind (·.attribute? text)) word
    | index type array opening i closing =>
      have inner := below array (by simp [Expr.children]) fun h inside => same h (by simp [Expr.handles, inside])
      simp only [symbolOf, inner]
    | _ => rfl

private theorem typeOf_congr (e : Expr) (same : ∀ h ∈ e.handles, word h = o.word h) :
    (o.reworded word).typeOf scopes e = o.typeOf scopes e := by
  induction e using Expr.by_children with
  | step e below =>
    have child (e' : Expr) (member : e' ∈ e.children) : (o.reworded word).typeOf scopes e' = o.typeOf scopes e' :=
      below e' member fun h inside => same h (Expr.handles_of_child member inside)
    have symbol (e' : Expr) (member : e' ∈ e.children) : (o.reworded word).symbolOf scopes e' = o.symbolOf scopes e' :=
      symbolOf_congr e' fun h inside => same h (Expr.handles_of_child member inside)
    have whole : (o.reworded word).symbolOf scopes e = o.symbolOf scopes e := symbolOf_congr e same
    cases e with
    | atom type kind token =>
      cases kind with
      | name =>
        exact congrArg (fun text => ((o.referent? scopes text).map Referent.type).getD .undefined)
          (same token (by simp [Expr.handles]))
      | _ => rfl
    | set type opening elements closing =>
      simp only [typeOf, typesOf_eq]
      have types : elements.map ((o.reworded word).typeOf scopes) = elements.map (o.typeOf scopes) :=
        List.map_congr_left child
      rw [types]
    | call type function opening args closing =>
      simp only [typeOf, typesOf_eq, symbol function (by simp [Expr.children])]
      rw [List.map_congr_left fun e' member => child e' (by simp [Expr.children, member])]
    | unary type op token operand =>
      cases op with
      | minus => exact child operand (by simp [Expr.children])
      | _ => rfl
    | binary type op left token right =>
      simp only [typeOf, child left (by simp [Expr.children]), child right (by simp [Expr.children])]
    | paren type opening inner closing => exact child inner (by simp [Expr.children])
    | field type structure_ dot member => simp only [typeOf, whole]
    | index type array opening i closing => simp only [typeOf, symbol array (by simp [Expr.children])]
    | _ => rfl

end

end Outlook

/-- Handles of the variables of a loop and of what it goes through. -/
def Loop.handles : Loop → List Handle
  | strings => []
  | through vars iterable => vars ++ iterable.handles

namespace Outlook

section

variable {o : Outlook} {word : Handle → String} {loops : List Loop}

private theorem tables_congr (same : ∀ h ∈ loops.flatMap Loop.handles, word h = o.word h) :
    (o.reworded word).tables loops = o.tables loops := by
  induction loops with
  | nil => rfl
  | cons loop rest ih =>
    have outer := ih fun h member => same h (by simp_all)
    cases loop with
    | strings => exact outer
    | through vars iterable =>
      have inner (h : Handle) (member : h ∈ iterable.handles) : word h = o.word h :=
        same h (by simp [Loop.handles, member])
      have held (place : Nat) (small : place < vars.length) :
        (o.reworded word).heldBy (o.tables rest) iterable place (word vars[place]) =
          o.heldBy (o.tables rest) iterable place (o.word vars[place]) := by
        rw [same vars[place] (by simp [Loop.handles])]
        simp only [heldBy, symbolOf_congr iterable inner, typeOf_congr iterable inner]
      have symbols : vars.mapIdx (fun place var => (o.reworded word).heldBy (o.tables rest) iterable place (word var)) =
          vars.mapIdx fun place var => o.heldBy (o.tables rest) iterable place (o.word var) :=
        List.ext_getElem (by simp) fun place small _ => by simpa using held place (by simpa using small)
      simp only [tables, outer]
      exact congrArg (fun symbols => SymbolTable.mk symbols :: o.tables rest) symbols

private theorem known_congr (same : ∀ h ∈ loops.flatMap Loop.handles, word h = o.word h) (name : String) :
    (o.reworded word).Known loops name ↔ o.Known loops name := by
  have texts (vars : List Handle) (iterable : Expr) (around : .through vars iterable ∈ loops) (var : Handle)
    (member : var ∈ vars) :
      word var = o.word var := same var (List.mem_flatMap.mpr ⟨_, around, by simp [Loop.handles, member]⟩)
  refine or_congr_left (exists_congr fun vars => exists_congr fun iterable => and_congr_right fun around => ?_)
  refine exists_congr fun var => and_congr_right fun member => ?_
  exact texts vars iterable around var member ▸ Iff.rfl

private theorem namesString_congr (same : ∀ string ∈ o.strings, word string.id = o.word string.id)
    (reference : String) : (o.reworded word).NamesString loops reference ↔ o.NamesString loops reference := by
  unfold NamesString
  split
  · rfl
  · exact exists_congr fun string => and_congr_right fun member => same string member ▸ Iff.rfl

variable {e : Expr} (around : ∀ h ∈ loops.flatMap Loop.handles, word h = o.word h) (own : ∀ h ∈ e.handles,
  word h = o.word h)
  (strings : ∀ string ∈ o.strings, word string.id = o.word string.id)
include around own strings

theorem Bound.reworded (bound : o.Bound loops e) : (o.reworded word).Bound loops e := by
  have reference (token : Handle) (named : e.stringToken? = some token)
      (names : o.NamesString loops (o.word token)) : (o.reworded word).NamesString loops (word token) := by
    rw [own token (Expr.stringToken?_mem named)]
    exact (namesString_congr strings _).mpr names
  cases e with
  | atom type kind token =>
    have text : word token = o.word token := own token (by simp [Expr.handles])
    cases kind with
    | name =>
      show (o.reworded word).Known loops (word token)
      rwa [known_congr around, text]
    | wildcard =>
      obtain ⟨string, member, start⟩ := bound
      refine ⟨string, member, ?_⟩
      show (Grammar.withoutStars (word token)).toList <+: (word string.id).toList
      rwa [text, strings string member]
    | them => exact bound
    | _ => exact fun token named => reference token named (bound token named)
  | forIn type for_ quantifier vars in_ iterable colon body =>
    have texts (var : Handle) (member : var ∈ vars) : word var = o.word var := own var (by simp [Expr.handles, member])
    refine ⟨?_, fun var member => ?_⟩
    · show (vars.map word).Nodup
      rw [List.map_congr_left texts]
      exact bound.1
    · show ¬ (o.reworded word).Known loops (word var)
      rw [known_congr around, texts var member]
      exact bound.2 var member
  | _ => exact fun token named => reference token named (bound token named)

omit strings in
theorem Fitting.reworded (fitting : o.Fitting loops e) : (o.reworded word).Fitting loops e := by
  have symbol (child : Expr) (member : child ∈ e.children) :
      (o.reworded word).symbolOf ((o.reworded word).tables loops) child = o.symbolOf (o.tables loops) child := by
    rw [tables_congr around]
    exact symbolOf_congr child fun h inside => own h (Expr.handles_of_child member inside)
  cases e with
  | field type structure_ dot member =>
    obtain ⟨parent, found, rest⟩ := fitting
    refine ⟨parent, (symbol structure_ (by simp [Expr.children])).trans found, ?_⟩
    show (parent.attribute? (word member)).isSome
    rwa [own member (by simp [Expr.handles])]
  | index type array opening index closing =>
    obtain ⟨container, found, rest⟩ := fitting
    exact ⟨container, (symbol array (by simp [Expr.children])).trans found, rest⟩
  | call type function opening args closing =>
    obtain ⟨container, found, rest⟩ := fitting
    exact ⟨container, (symbol function (by simp [Expr.children])).trans found, rest⟩
  | _ => exact fitting

end

theorem Fits.reworded {o : Outlook} {word : Handle → String} {site : Site} {e : Expr} (fits : o.Fits site e)
    (around : ∀ h ∈ site.loops.flatMap Loop.handles, word h = o.word h) (own : ∀ h ∈ e.handles, word h = o.word h)
    (strings : ∀ string ∈ o.strings, word string.id = o.word string.id) : (o.reworded word).Fits site e where
  bound := fits.bound.reworded around own strings
  typed := by
    rw [fits.typed, typeAt, typeAt, tables_congr around, typeOf_congr e own]
  fitting := fits.fitting.reworded around own

end Outlook

namespace Expr

private theorem loops_of_placed {loops : List Loop} {e : Expr} {child : Site × Expr} (member : child ∈ e.placed loops) :
    child.1.loops = loops ∨ ∃ loop, child.1.loops = loop :: loops ∧ loop.handles ⊆ e.handles := by
  have site := (List.of_mem_zip member).1
  cases e with
  | of =>
    simp only [sitesBelow, List.mem_cons, List.not_mem_nil, or_false] at site
    rcases site with same | same <;> simp [same]
  | ofAnchored =>
    simp only [sitesBelow, List.mem_cons, List.not_mem_nil, or_false] at site
    rcases site with same | same | same <;> simp [same]
  | forOf =>
    simp only [sitesBelow, List.mem_cons, List.not_mem_nil, or_false] at site
    rcases site with same | same | same <;> simp [same, Loop.handles]
  | forIn =>
    simp only [sitesBelow, List.mem_cons, List.not_mem_nil, or_false] at site
    rcases site with same | same | same
    · simp [same]
    · simp [same]
    · refine .inr ⟨_, by rw [same], fun h inside => ?_⟩
      simp only [Loop.handles, List.mem_append] at inside
      simp only [handles, List.mem_cons, List.mem_append]
      tauto
  | _ => simp_all [sitesBelow]

private theorem handles_of_sited (e : Expr) : ∀ site, ∀ node ∈ e.sited site, node.2.handles ⊆ e.handles ∧
    node.1.loops.flatMap Loop.handles ⊆ site.loops.flatMap Loop.handles ++ e.handles := by
  induction e using by_children with
  | step e below =>
    intro site node member
    rw [sited_eq, List.mem_cons, List.mem_flatMap] at member
    rcases member with rfl | ⟨child, inside, deeper⟩
    · exact ⟨List.Subset.refl _, List.subset_append_left _ _⟩
    · obtain ⟨own, around⟩ := below child.2 (children_of_placed inside) child.1 node deeper
      have within := handles_of_child (children_of_placed inside)
      have loops : child.1.loops.flatMap Loop.handles ⊆ site.loops.flatMap Loop.handles ++ e.handles := by
        rcases loops_of_placed inside with same | ⟨loop, same, part⟩
        · exact same ▸ List.subset_append_left _ _
        · rw [same, List.flatMap_cons]
          exact List.append_subset.mpr ⟨List.Subset.trans part (List.subset_append_right _ _),
            List.subset_append_left _ _⟩
      refine ⟨List.Subset.trans own within, List.Subset.trans around (List.append_subset.mpr ⟨loops, ?_⟩)⟩
      exact List.Subset.trans within (List.subset_append_right _ _)

end Expr

/-- What a condition means depends on the texts of its own tokens and on the names of the strings. -/
theorem Outlook.Fine.reworded {o : Outlook} {word : Handle → String} {e : Expr} (fine : o.Fine {} e)
    (own : ∀ h ∈ e.handles, word h = o.word h) (strings : ∀ string ∈ o.strings, word string.id = o.word string.id) :
    (o.reworded word).Fine {} e := by
  intro node member
  obtain ⟨within, around⟩ := e.handles_of_sited {} node member
  exact (fine node member).reworded (fun h inside => own h (by simpa using around inside)) (fun h inside =>
    own h (within inside)) strings

end YaraRules
