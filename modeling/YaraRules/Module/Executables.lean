import YaraRules.Module.Declaration

/-! Formats of executables for other systems than Windows, and assemblies of the common language runtime. -/

namespace YaraRules.Module

/-! ### ELF executables -/

def elfDeclarations : List Declaration :=
  [.integers ["ET_NONE", "ET_REL", "ET_EXEC", "ET_DYN", "ET_CORE"],
   .integers
    ["EM_NONE", "EM_M32", "EM_SPARC", "EM_386", "EM_68K", "EM_88K", "EM_860", "EM_MIPS",
     "EM_MIPS_RS3_LE", "EM_PPC", "EM_PPC64", "EM_ARM", "EM_X86_64", "EM_AARCH64"],
   .integers
    ["SHT_NULL", "SHT_PROGBITS", "SHT_SYMTAB", "SHT_STRTAB", "SHT_RELA", "SHT_HASH",
     "SHT_DYNAMIC", "SHT_NOTE", "SHT_NOBITS", "SHT_REL", "SHT_SHLIB", "SHT_DYNSYM", "SHF_WRITE",
     "SHF_ALLOC", "SHF_EXECINSTR"],
   .integers
    ["PT_NULL", "PT_LOAD", "PT_DYNAMIC", "PT_INTERP", "PT_NOTE", "PT_SHLIB", "PT_PHDR", "PT_TLS",
     "PT_GNU_EH_FRAME", "PT_GNU_STACK", "PF_X", "PF_W", "PF_R"],
   .integers
    ["STT_NOTYPE", "STT_OBJECT", "STT_FUNC", "STT_SECTION", "STT_FILE", "STT_COMMON", "STT_TLS",
     "STB_LOCAL", "STB_GLOBAL", "STB_WEAK"],
   .integers
    ["type", "machine", "entry_point", "number_of_sections", "sh_offset", "sh_entry_size",
     "number_of_segments", "ph_offset", "ph_entry_size", "dynamic_section_entries",
     "symtab_entries", "dynsym_entries"],
   .arrayOf "sections"
    [.integers ["type", "flags", "address", "size", "offset"],
     .strings ["name"]],
   .arrayOf "segments"
    [.integers
      ["type", "flags", "offset", "virtual_address", "physical_address", "file_size",
       "memory_size", "alignment"]],
   .arrayOf "dynamic"
    [.integers ["type", "val"]],
   .arrayOf "symtab"
    [.strings ["name"],
     .integers ["value", "size", "type", "bind", "shndx", "visibility"]],
   .arrayOf "dynsym"
    [.strings ["name"],
     .integers ["value", "size", "type", "bind", "shndx", "visibility"]],
   .function "telfhash" [[]] .string,
   .function "import_md5" [[]] .string]

/-! ### Mach-O executables -/

def machoDeclarations : List Declaration :=
  [.integers
    ["MH_MAGIC", "MH_CIGAM", "MH_MAGIC_64", "MH_CIGAM_64", "FAT_MAGIC", "FAT_CIGAM",
     "FAT_MAGIC_64", "FAT_CIGAM_64"],
   .integers
    ["CPU_TYPE_MC680X0", "CPU_TYPE_X86", "CPU_TYPE_X86_64", "CPU_TYPE_MIPS", "CPU_TYPE_ARM",
     "CPU_TYPE_ARM64", "CPU_TYPE_SPARC", "CPU_TYPE_POWERPC", "CPU_TYPE_POWERPC64"],
   .integers
    ["MH_OBJECT", "MH_EXECUTE", "MH_FVMLIB", "MH_CORE", "MH_PRELOAD", "MH_DYLIB", "MH_DYLINKER",
     "MH_BUNDLE", "MH_DYLIB_STUB", "MH_DSYM", "MH_KEXT_BUNDLE"],
   .integers
    ["MH_NOUNDEFS", "MH_INCRLINK", "MH_DYLDLINK", "MH_BINDATLOAD", "MH_PREBOUND", "MH_SPLIT_SEGS",
     "MH_TWOLEVEL", "MH_PIE", "MH_NO_HEAP_EXECUTION"],
   .integers
    ["magic", "cputype", "cpusubtype", "filetype", "ncmds", "sizeofcmds", "flags", "reserved",
     "number_of_segments", "entry_point", "stack_size", "nfat_arch"],
   .strings ["dynamic_linker", "source_version", "uuid"],
   .array "dylibs_names" .string,
   .array "rpaths" .string,
   .arrayOf "segments"
    [.strings ["segname"],
     .integers ["vmaddr", "vmsize", "fileoff", "fsize", "maxprot", "initprot", "nsects", "flags"],
     .arrayOf "sections"
      [.strings ["segname", "sectname"],
       .integers ["addr", "size", "offset", "align", "reloff", "nreloc", "flags"]]],
   .arrayOf "dylibs"
    [.strings ["name"],
     .integers ["timestamp", "compatibility_version", "current_version"]],
   .arrayOf "fat_arch"
    [.integers ["cputype", "cpusubtype", "offset", "size", "align"]],
   .function "file_index_for_arch" [[.integer], [.integer, .integer]] .integer,
   .function "entry_point_for_arch" [[.integer], [.integer, .integer]] .integer,
   .function "has_dylib" [[.string]] .boolean,
   .function "has_rpath" [[.string]] .boolean,
   .function "dylib_hash" [[]] .string,
   .function "entitlement_hash" [[]] .string]

/-! ### Dalvik executables -/

def dexDeclarations : List Declaration :=
  [.strings
    ["DEX_FILE_MAGIC_035", "DEX_FILE_MAGIC_036", "DEX_FILE_MAGIC_037", "DEX_FILE_MAGIC_038",
     "DEX_FILE_MAGIC_039"],
   .integers
    ["ENDIAN_CONSTANT", "REVERSE_ENDIAN_CONSTANT", "NO_INDEX", "ACC_PUBLIC", "ACC_PRIVATE",
     "ACC_PROTECTED", "ACC_STATIC", "ACC_FINAL", "ACC_SYNCHRONIZED", "ACC_NATIVE",
     "ACC_INTERFACE", "ACC_ABSTRACT", "ACC_CONSTRUCTOR"],
   .structure "header"
    [.strings ["magic", "signature"],
     .integers
      ["checksum", "file_size", "header_size", "endian_tag", "link_size", "link_offset",
       "map_offset", "string_ids_size", "string_ids_offset", "type_ids_size", "type_ids_offset",
       "proto_ids_size", "proto_ids_offset", "field_ids_size", "field_ids_offset",
       "method_ids_size", "method_ids_offset", "class_defs_size", "class_defs_offset",
       "data_size", "data_offset"]],
   .arrayOf "string_ids"
    [.integers ["offset", "size"],
     .strings ["value"]],
   .arrayOf "method_ids"
    [.integers ["class_idx", "proto_idx", "name_idx"]],
   .arrayOf "class_defs"
    [.integers
      ["class_idx", "access_flags", "super_idx", "interfaces_offset", "source_file_idx",
       "annotations_offset", "class_data_offset", "static_values_offset"]],
   .arrayOf "method"
    [.strings ["class_name", "method_name"],
     .integers ["access_flags", "code_off"]],
   .integers ["number_of_methods"],
   .function "has_method" [[.string], [.string, .string], [.regexp], [.regexp, .regexp]] .integer,
   .function "has_class" [[.string], [.regexp]] .integer]

/-! ### Assemblies of the common language runtime -/

def dotnetDeclarations : List Declaration :=
  [.integers
    ["is_dotnet", "number_of_streams", "number_of_guids", "number_of_resources",
     "number_of_user_strings", "number_of_modulerefs", "number_of_assembly_refs",
     "number_of_classes", "number_of_field_offsets", "typelib"],
   .strings ["version", "module_name"],
   .array "guids" .string,
   .array "user_strings" .string,
   .array "modulerefs" .string,
   .array "field_offsets" .integer,
   .arrayOf "streams"
    [.strings ["name"],
     .integers ["offset", "size"]],
   .arrayOf "resources"
    [.integers ["offset", "length"],
     .strings ["name"]],
   .structure "assembly"
    [.strings ["name", "culture"],
     .structure "version"
      [.integers ["major", "minor", "build_number", "revision_number"]]],
   .arrayOf "assembly_refs"
    [.strings ["name", "public_key_or_token"],
     .structure "version"
      [.integers ["major", "minor", "build_number", "revision_number"]]],
   .arrayOf "classes"
    [.strings ["fullname", "name", "namespace", "visibility", "type"],
     .integers
      ["abstract", "sealed", "number_of_generic_parameters", "number_of_base_types",
       "number_of_methods"],
     .array "generic_parameters" .string,
     .array "base_types" .string,
     .arrayOf "methods"
      [.strings ["name", "visibility", "return_type"],
       .integers
        ["abstract", "final", "virtual", "static", "number_of_parameters",
         "number_of_generic_parameters"],
       .array "generic_parameters" .string,
       .arrayOf "parameters"
        [.strings ["name", "type"]]]]]

end YaraRules.Module
