import YaraRules.Module.Declaration

/-! What can be measured of the scanned file: digests, its type by content, statistics of its
parts, and the time of the scan. -/

namespace YaraRules.Module

/-- Digests of parts of the scanned file. -/
def hashDeclarations : List Declaration :=
  [.function "md5" [[.integer, .integer], [.string]] .string,
   .function "sha1" [[.integer, .integer], [.string]] .string,
   .function "sha256" [[.integer, .integer], [.string]] .string,
   .function "checksum32" [[.integer, .integer], [.string]] .integer,
   .function "crc32" [[.integer, .integer], [.string]] .integer]

/-- File types by content. -/
def magicDeclarations : List Declaration :=
  [.function "type" [[]] .string,
   .function "mime_type" [[]] .string]

/-- Statistics of parts of the scanned file. -/
def mathDeclarations : List Declaration :=
  [.integers ["MEAN_BYTES"],
   .function "entropy" [[.integer, .integer], [.string]] .float,
   .function "monte_carlo_pi" [[.integer, .integer], [.string]] .float,
   .function "serial_correlation" [[.integer, .integer], [.string]] .float,
   .function "mean" [[.integer, .integer], [.string]] .float,
   .function "deviation" [[.integer, .integer, .float], [.string, .float]] .float,
   .function "in_range" [[.float, .float, .float]] .integer,
   .function "max" [[.integer, .integer]] .integer,
   .function "min" [[.integer, .integer]] .integer,
   .function "abs" [[.integer]] .integer,
   .function "count" [[.integer, .integer, .integer], [.integer]] .integer,
   .function "percentage" [[.integer, .integer, .integer], [.integer]] .float,
   .function "mode" [[.integer, .integer], []] .integer,
   .function "to_number" [[.boolean]] .integer,
   .function "to_string" [[.integer], [.integer, .integer]] .string]

/-- The time of the scan. -/
def timeDeclarations : List Declaration :=
  [.function "now" [[]] .integer]

end YaraRules.Module
