import YaraRules.Module.Androguard
import YaraRules.Module.Cuckoo
import YaraRules.Module.Executables
import YaraRules.Module.Measures
import YaraRules.Module.Metadata
import YaraRules.Module.Pe
import YaraRules.Module.Phish

/-! The modules that rules can import, and the symbols that need no import. -/

namespace YaraRules

/-- A module and the features that make it importable. -/
structure Module.Entry where
  name : String
  features : Features
  declarations : List Declaration

/-- A module as it is seen with a selection of features. -/
structure Module where
  name : String
  /-- Features that make the module importable. -/
  features : Features
  /-- How often the pool that loaded it had been emptied. -/
  generation : Nat
  /-- Structure that holds every attribute of the module. -/
  content : Symbol
deriving Inhabited

namespace Module

private def basicOnly : Features := { basic := true }

private def avastOnly : Features := { avast := true }

/-- Every known module, in order of name. -/
def registry : List Entry :=
  [⟨"androguard", avastOnly, androguardDeclarations⟩,
   ⟨"cuckoo", basicOnly, cuckooDeclarations⟩,
   ⟨"dex", basicOnly, dexDeclarations⟩,
   ⟨"dotnet", basicOnly, dotnetDeclarations⟩,
   ⟨"elf", basicOnly, elfDeclarations⟩,
   ⟨"hash", basicOnly, hashDeclarations⟩,
   ⟨"macho", basicOnly, machoDeclarations⟩,
   ⟨"magic", basicOnly, magicDeclarations⟩,
   ⟨"math", basicOnly, mathDeclarations⟩,
   ⟨"metadata", avastOnly, metadataDeclarations⟩,
   ⟨"pe", basicOnly, peDeclarations⟩,
   ⟨"phish", avastOnly, phishDeclarations⟩,
   ⟨"time", basicOnly, timeDeclarations⟩]

def known : List String := registry.map (·.name)

/-- Structure of a module with a selection of features. -/
def Entry.content (entry : Entry) (features : Features) : Symbol :=
  .structure entry.name (Declaration.addAll features entry.declarations [])

end Module

/-- Loads modules for one selection of features at a time; another selection empties it. -/
structure ModulePool where
  features : Features := Features.current
  emptied : Nat := 0
deriving Inhabited

namespace ModulePool

/-- The pool after a request with `features`. -/
def select (pool : ModulePool) (features : Features) : ModulePool :=
  if features = pool.features then pool else ⟨features, pool.emptied + 1⟩

/-- The module of the given name, if `features` make it importable. -/
def load (pool : ModulePool) (name : String) (features : Features) :
    Option Module × ModulePool :=
  let pool := pool.select features
  match Module.registry.find? (·.name == name) with
  | some entry =>
    if entry.features.intersects features then
      (some ⟨entry.name, entry.features, pool.emptied, entry.content features⟩, pool)
    else (none, pool)
  | none => (none, pool)

end ModulePool

/-- Identifiers that VirusTotal offers to every rule without an import. -/
def virusTotalGlobals : List Symbol :=
  [.value "new_file" .boolean, .value "positives" .integer, .value "submissions" .integer,
   .value "file_type" .string, .value "file_name" .string, .value "signatures" .string,
   .value "first_submitted" .integer, .value "last_submitted" .integer,
   .array "tags" .string none]

end YaraRules
