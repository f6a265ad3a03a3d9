import YaraRules.Module.Declaration

/-! Facts about the scanned file from outside it. -/

namespace YaraRules.Module

def metadataDeclarations : List Declaration :=
  [.strings ["file_name", "file_type", "detection"],
   .integers ["file_size", "is_signed"],
   .array "source_urls" .string,
   .dictionary "attributes" .string,
   .structure "exif"
    [.strings ["author", "company", "description", "product"],
     .integers ["width", "height"]],
   .function "has_attribute" [[.string]] .integer]

end YaraRules.Module
