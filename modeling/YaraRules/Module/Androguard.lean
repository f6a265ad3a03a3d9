import YaraRules.Module.Declaration

/-! Android packages: manifest, permissions and certificates. -/

namespace YaraRules.Module

def androguardDeclarations : List Declaration :=
  [.strings ["package_name", "app_name", "main_activity", "displayed_version"],
   .integers
    ["min_sdk", "max_sdk", "target_sdk", "effective_target_sdk", "permissions_number",
     "signature_present"],
   .integers ["LOW", "MEDIUM", "HIGH", "CRITICAL"],
   .function "activity" [[.string], [.regexp]] .integer,
   .function "permission" [[.string], [.regexp]] .integer,
   .function "service" [[.string], [.regexp]] .integer,
   .function "receiver" [[.string], [.regexp]] .integer,
   .function "provider" [[.string], [.regexp]] .integer,
   .function "filter" [[.string], [.regexp]] .integer,
   .function "url" [[.string], [.regexp]] .integer,
   .function "functionality" [[.string], [.regexp]] .integer,
   .function "new_permission" [[.string], [.regexp]] .integer,
   .function "is_signed" [[]] .integer,
   .structure "certificate"
    [.strings ["sha1", "issuer", "subject", "not_before", "not_after"],
     .function "subject" [[.string], [.regexp]] .integer,
     .function "issuer" [[.string], [.regexp]] .integer],
   .arrayOf "signature"
    [.strings ["hits", "names"]],
   .structure "risk"
    [.integers ["score", "level"]]]

end YaraRules.Module
