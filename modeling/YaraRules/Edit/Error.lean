import YaraRules.TokenStream.Basic

/-! Why a file cannot be edited as asked. -/

namespace YaraRules

inductive EditError where
  | duplicateRule (name : String)
  | ruleNotFound (name : String)
  | unknownModule (name : String)
  | moduleInUse (name : String)
  | invalidIdentifier (name : String)
  | duplicateTag (tag : String)
  | metaNotFound (key : String)
  | invalidStringIdentifier (id : String)
  | duplicateString (id : String)
  | stringNotFound (id : String)
  | stringInUse (id : String)
  /-- The tokens cannot be changed as needed. -/
  | tokens (error : TokenStream.Error)
deriving DecidableEq

/-- Name of the kind of error. -/
def EditError.label : EditError → String
  | duplicateRule _ => "DuplicateRule"
  | ruleNotFound _ => "RuleNotFound"
  | unknownModule _ => "UnknownModule"
  | moduleInUse _ => "ModuleInUse"
  | invalidIdentifier _ => "InvalidIdentifier"
  | duplicateTag _ => "DuplicateTag"
  | metaNotFound _ => "MetaNotFound"
  | invalidStringIdentifier _ => "InvalidStringIdentifier"
  | duplicateString _ => "DuplicateString"
  | stringNotFound _ => "StringNotFound"
  | stringInUse _ => "StringInUse"
  | tokens (.invalidHandle _) => "InvalidHandle"
  | tokens (.invalidRange ..) => "InvalidRange"

/-- What went wrong, in words; errors of the token stream have none. -/
def EditError.message : EditError → String
  | duplicateRule name => "rule '" ++ name ++ "' already exists"
  | ruleNotFound name => "rule '" ++ name ++ "' not found"
  | unknownModule name => "unknown module '" ++ name ++ "'"
  | moduleInUse name => "module '" ++ name ++ "' is still referenced"
  | invalidIdentifier name => "'" ++ name ++ "' is not a valid identifier"
  | duplicateTag tag => "tag '" ++ tag ++ "' already exists"
  | metaNotFound key => "meta '" ++ key ++ "' not found"
  | invalidStringIdentifier id => "'" ++ id ++ "' is not a valid string identifier"
  | duplicateString id => "string '" ++ id ++ "' already exists"
  | stringNotFound id => "string '" ++ id ++ "' not found"
  | stringInUse id => "string '" ++ id ++ "' is referenced in the condition"
  | tokens _ => ""

end YaraRules
