import YaraRules.Module.Declaration

/-! Web pages that imitate others. -/

namespace YaraRules.Module

def phishDeclarations : List Declaration :=
  [.strings ["url", "domain", "title"],
   .integers ["number_of_forms", "number_of_links", "has_password_field"],
   .arrayOf "forms"
    [.strings ["action", "method"],
     .integers ["number_of_inputs"]],
   .function "brand" [[.string], [.regexp]] .integer,
   .function "link" [[.regexp]] .integer]

end YaraRules.Module
