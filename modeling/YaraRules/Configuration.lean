import YaraRules.FileTree
import YaraRules.Grammar.Basic
import YaraRules.Layout.Render
import YaraRules.Toml.Document

/-! Settings for reading and laying out rules, from a TOML document. Every setting may
be left out. What the document says beside the settings is passed over. -/

namespace YaraRules

/-- Features by the names that configurations have for them. -/
inductive FeatureSet where
  | basic | avast | virusTotal | allCurrent | everything
deriving DecidableEq, Inhabited, Repr

namespace FeatureSet

def all : List FeatureSet := [.basic, .avast, .virusTotal, .allCurrent, .everything]

def name : FeatureSet → String
  | basic => "basic"
  | avast => "avast"
  | virusTotal => "virus-total"
  | allCurrent => "all-current"
  | everything => "everything"

def features : FeatureSet → Features
  | basic => { basic := true }
  | avast => { basic := true, avast := true }
  | virusTotal => { basic := true, virusTotal := true }
  | allCurrent => .current
  | everything => .everything

end FeatureSet

def IncludeMode.all : List IncludeMode := [.always, .once]

def IncludeMode.name : IncludeMode → String
  | always => "regular"
  | once => "include-guarded"

structure Configuration where
  featureSet : FeatureSet := .allCurrent
  mode : IncludeMode := .always
  style : LayoutStyle := {}
deriving DecidableEq, Inhabited

/-- Why a document is no configuration. -/
inductive ConfigurationError where
  /-- The document cannot be read at all. -/
  | unreadable
  /-- A setting has none of the values that it may have. -/
  | unknownVariant (path : List String)
  /-- A setting is of another type. -/
  | invalidType (path : List String)
deriving DecidableEq

namespace Configuration

open Toml (Value)

/-- The settings of a reader. -/
def settings (c : Configuration) : Settings := ⟨c.featureSet.features, c.mode⟩

/-- Reads a setting from the value at a path. -/
abbrev Setting (α : Type) := List String → Value → Except ConfigurationError α

private def leastKey? (entries : List (String × Value)) : Option String :=
  entries.foldl (fun best (key, _) =>
    match best with
    | some other => if key < other then some key else some other
    | none => some key) none

/-- The key under which a date or a time has its text. -/
def datetimeKey : String := "$__toml_private_datetime"

/-- A date as a setting meets it: a table that has the text of the date under one key. -/
private def unfolded : Value → Value
  | .datetime text => .table [(datetimeKey, .string text)]
  | value => value

/-- One of several values by its name. A table stands for its first key, and no named
value has content of its own. -/
private def choice {α : Type} (name : α → String) (all : List α) : Setting α := fun path value =>
  let named (s : String) : Option α := all.find? (name · == s)
  match unfolded value with
  | .string s => ((named s).map .ok).getD (.error (.unknownVariant path))
  | .table entries =>
    match leastKey? entries with
    | none => .error (.invalidType path)
    | some key =>
      let inner := path ++ [key]
      .error (if (named key).isSome then .invalidType inner else .unknownVariant inner)
  | _ => .error (.invalidType path)

private def text : Setting String
  | _, .string s => .ok s
  | path, _ => .error (.invalidType path)

private def flag : Setting Bool
  | _, .boolean b => .ok b
  | path, _ => .error (.invalidType path)

/-- A setting of a section, which keeps its default if it is not given. -/
private def setting {α : Type} (read : Setting α) (default : α) (section_ key : String) :
    Option Value → Except ConfigurationError α
  | some value => read [section_, key] value
  | none => .ok default

/-- Where a section has its settings: under their names, or one after the other in an
array. -/
inductive SectionForm where
  | named (entries : List (String × Value))
  | listed (items : List Value)

private def formOf (root : List (String × Value)) (section_ : String) :
    Except ConfigurationError SectionForm :=
  match (root.lookup section_).map unfolded with
  | none => .ok (.named [])
  | some (.table entries) => .ok (.named entries)
  | some (.array items) => .ok (.listed items)
  | some _ => .error (.invalidType [section_])

private def styleOf (root : List (String × Value)) : Except ConfigurationError LayoutStyle := do
  let default : LayoutStyle := {}
  match ← formOf root "fmt" with
  | .named entries =>
    let key := "align-trailing-comments"
    let alignComments ← setting flag default.alignComments "fmt" key (entries.lookup key)
    let indent ← setting text default.indent "fmt" "indent" (entries.lookup "indent")
    return { indent, alignComments }
  | .listed items =>
    let indent ← setting text default.indent "fmt" "0" items[0]?
    let alignComments ← setting flag default.alignComments "fmt" "1" items[1]?
    return { indent, alignComments }

private def parserOf (root : List (String × Value)) :
    Except ConfigurationError (FeatureSet × IncludeMode) := do
  let features := choice FeatureSet.name FeatureSet.all
  let mode := choice IncludeMode.name IncludeMode.all
  let (featureKey, featureValue, modeKey, modeValue) :=
    match ← formOf root "parser" with
    | .named entries => ("features", entries.lookup "features", "mode", entries.lookup "mode")
    | .listed items => ("0", items[0]?, "1", items[1]?)
  let featureSet ← setting features .allCurrent "parser" featureKey featureValue
  let mode ← setting mode .always "parser" modeKey modeValue
  return (featureSet, mode)

/-- The configuration that a document describes. -/
def ofText (document : String) : Except ConfigurationError Configuration :=
  match Toml.read? document with
  | none => .error .unreadable
  | some root => do
    let style ← styleOf root
    let (featureSet, mode) ← parserOf root
    return { featureSet, mode, style }

/-- The configuration in a file, which has to be valid UTF-8. -/
def ofFile (tree : FileTree) (path : String) : Except ConfigurationError Configuration :=
  match tree.read path with
  | .ok content => if Utf8.valid content then ofText content.toText else .error .unreadable
  | .error _ => .error .unreadable

end Configuration

end YaraRules
