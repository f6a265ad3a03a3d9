import YaraRules.Module.Declaration

/-! Portable executables. -/

namespace YaraRules.Module

def peDeclarations : List Declaration :=
  [.integers
    ["MACHINE_UNKNOWN", "MACHINE_AM33", "MACHINE_AMD64", "MACHINE_ARM", "MACHINE_ARMNT",
     "MACHINE_ARM64", "MACHINE_EBC", "MACHINE_I386", "MACHINE_IA64", "MACHINE_M32R",
     "MACHINE_MIPS16", "MACHINE_MIPSFPU", "MACHINE_MIPSFPU16", "MACHINE_POWERPC",
     "MACHINE_POWERPCFP", "MACHINE_R4000", "MACHINE_SH3", "MACHINE_SH3DSP", "MACHINE_SH4",
     "MACHINE_SH5", "MACHINE_THUMB", "MACHINE_WCEMIPSV2"],
   .integers
    ["SUBSYSTEM_UNKNOWN", "SUBSYSTEM_NATIVE", "SUBSYSTEM_WINDOWS_GUI", "SUBSYSTEM_WINDOWS_CUI",
     "SUBSYSTEM_OS2_CUI", "SUBSYSTEM_POSIX_CUI", "SUBSYSTEM_NATIVE_WINDOWS",
     "SUBSYSTEM_WINDOWS_CE_GUI", "SUBSYSTEM_EFI_APPLICATION", "SUBSYSTEM_EFI_BOOT_SERVICE_DRIVER",
     "SUBSYSTEM_EFI_RUNTIME_DRIVER", "SUBSYSTEM_EFI_ROM_IMAGE", "SUBSYSTEM_XBOX",
     "SUBSYSTEM_WINDOWS_BOOT_APPLICATION"],
   .integers
    ["RELOCS_STRIPPED", "EXECUTABLE_IMAGE", "LINE_NUMS_STRIPPED", "LOCAL_SYMS_STRIPPED",
     "AGGRESIVE_WS_TRIM", "LARGE_ADDRESS_AWARE", "BYTES_REVERSED_LO", "MACHINE_32BIT",
     "DEBUG_STRIPPED", "REMOVABLE_RUN_FROM_SWAP", "NET_RUN_FROM_SWAP", "SYSTEM", "DLL",
     "UP_SYSTEM_ONLY", "BYTES_REVERSED_HI"],
   .integers
    ["HIGH_ENTROPY_VA", "DYNAMIC_BASE", "FORCE_INTEGRITY", "NX_COMPAT", "NO_ISOLATION", "NO_SEH",
     "NO_BIND", "APPCONTAINER", "WDM_DRIVER", "GUARD_CF", "TERMINAL_SERVER_AWARE"],
   .integers
    ["IMAGE_DIRECTORY_ENTRY_EXPORT", "IMAGE_DIRECTORY_ENTRY_IMPORT",
     "IMAGE_DIRECTORY_ENTRY_RESOURCE", "IMAGE_DIRECTORY_ENTRY_EXCEPTION",
     "IMAGE_DIRECTORY_ENTRY_SECURITY", "IMAGE_DIRECTORY_ENTRY_BASERELOC",
     "IMAGE_DIRECTORY_ENTRY_DEBUG", "IMAGE_DIRECTORY_ENTRY_ARCHITECTURE",
     "IMAGE_DIRECTORY_ENTRY_GLOBALPTR", "IMAGE_DIRECTORY_ENTRY_TLS",
     "IMAGE_DIRECTORY_ENTRY_LOAD_CONFIG", "IMAGE_DIRECTORY_ENTRY_BOUND_IMPORT",
     "IMAGE_DIRECTORY_ENTRY_IAT", "IMAGE_DIRECTORY_ENTRY_DELAY_IMPORT",
     "IMAGE_DIRECTORY_ENTRY_COM_DESCRIPTOR"],
   .integers
    ["SECTION_NO_PAD", "SECTION_CNT_CODE", "SECTION_CNT_INITIALIZED_DATA",
     "SECTION_CNT_UNINITIALIZED_DATA", "SECTION_LNK_OTHER", "SECTION_LNK_INFO",
     "SECTION_LNK_REMOVE", "SECTION_LNK_COMDAT", "SECTION_GPREL", "SECTION_MEM_PURGEABLE",
     "SECTION_MEM_LOCKED", "SECTION_MEM_PRELOAD", "SECTION_LNK_NRELOC_OVFL",
     "SECTION_MEM_DISCARDABLE", "SECTION_MEM_NOT_CACHED", "SECTION_MEM_NOT_PAGED",
     "SECTION_MEM_SHARED", "SECTION_MEM_EXECUTE", "SECTION_MEM_READ", "SECTION_MEM_WRITE"],
   .integers
    ["RESOURCE_TYPE_CURSOR", "RESOURCE_TYPE_BITMAP", "RESOURCE_TYPE_ICON", "RESOURCE_TYPE_MENU",
     "RESOURCE_TYPE_DIALOG", "RESOURCE_TYPE_STRING", "RESOURCE_TYPE_FONTDIR",
     "RESOURCE_TYPE_FONT", "RESOURCE_TYPE_ACCELERATOR", "RESOURCE_TYPE_RCDATA",
     "RESOURCE_TYPE_MESSAGETABLE", "RESOURCE_TYPE_GROUP_CURSOR", "RESOURCE_TYPE_GROUP_ICON",
     "RESOURCE_TYPE_VERSION", "RESOURCE_TYPE_DLGINCLUDE", "RESOURCE_TYPE_PLUGPLAY",
     "RESOURCE_TYPE_VXD", "RESOURCE_TYPE_ANICURSOR", "RESOURCE_TYPE_ANIICON",
     "RESOURCE_TYPE_HTML", "RESOURCE_TYPE_MANIFEST"],
   .integers
    ["is_pe", "machine", "number_of_sections", "timestamp", "pointer_to_symbol_table",
     "number_of_symbols", "size_of_optional_header", "characteristics", "entry_point",
     "entry_point_raw", "image_base", "number_of_rva_and_sizes", "number_of_resources",
     "number_of_version_infos", "win32_version_value", "size_of_image", "size_of_headers",
     "checksum", "subsystem", "dll_characteristics", "size_of_stack_reserve",
     "size_of_stack_commit", "size_of_heap_reserve", "size_of_heap_commit", "loader_flags",
     "opthdr_magic", "size_of_code", "size_of_initialized_data", "size_of_uninitialized_data",
     "base_of_code", "base_of_data", "section_alignment", "file_alignment", "export_timestamp",
     "resource_timestamp", "number_of_imports", "number_of_imported_functions",
     "number_of_delayed_imports", "number_of_delayed_imported_functions", "number_of_exports",
     "number_of_signatures"],
   .strings ["dll_name", "pdb_path"],
   .structure "linker_version"
    [.integers ["major", "minor"]],
   .structure "os_version"
    [.integers ["major", "minor"]],
   .structure "image_version"
    [.integers ["major", "minor"]],
   .structure "subsystem_version"
    [.integers ["major", "minor"]],
   .structure "resource_version"
    [.integers ["major", "minor"]],
   .structure "overlay"
    [.integers ["offset", "size"]],
   .structure "rich_signature"
    [.integers ["offset", "length", "key"],
     .strings ["raw_data", "clear_data"],
     .function "version" [[.integer], [.integer, .integer]] .integer,
     .function "toolid" [[.integer], [.integer, .integer]] .integer],
   .arrayOf "data_directories"
    [.integers ["virtual_address", "size"]],
   .arrayOf "sections"
    [.strings ["name", "full_name"],
     .integers
      ["characteristics", "virtual_address", "virtual_size", "raw_data_offset", "raw_data_size",
       "pointer_to_relocations", "pointer_to_line_numbers", "number_of_relocations",
       "number_of_line_numbers"]],
   .arrayOf "resources"
    [.integers ["rva", "offset", "length", "type", "id", "language"],
     .strings ["type_string", "name_string", "language_string"]],
   .dictionary "version_info" .string,
   .arrayOf "version_info_list"
    [.strings ["key", "value"]],
   .arrayOf "import_details"
    [.strings ["library_name"],
     .integers ["number_of_functions"],
     .arrayOf "functions"
      [.strings ["name"],
       .integers ["ordinal", "rva"]]],
   .arrayOf "delayed_import_details"
    [.strings ["library_name"],
     .integers ["number_of_functions"],
     .arrayOf "functions"
      [.strings ["name"],
       .integers ["ordinal", "rva"]]],
   .arrayOf "export_details"
    [.integers ["offset", "ordinal", "rva"],
     .strings ["name", "forward_name"]],
   .arrayOf "signatures"
    [.strings ["thumbprint", "issuer", "subject", "algorithm", "algorithm_oid", "serial"],
     .integers ["version", "not_before", "not_after"],
     .function "valid_on" [[.integer]] .integer],
   .function "exports" [[.string], [.integer], [.regexp]] .integer,
   .function "exports_index" [[.string], [.integer], [.regexp]] .integer,
   .function "imports" [[.string, .string], [.string, .integer], [.string], [.regexp, .regexp]]
    .integer,
   .function "imports"
    [[.integer, .string, .string], [.integer, .string, .integer], [.integer, .string],
     [.integer, .regexp, .regexp]] .integer,
   .function "locale" [[.integer]] .integer,
   .function "language" [[.integer]] .integer,
   .function "is_dll" [[]] .integer,
   .function "is_32bit" [[]] .integer,
   .function "is_64bit" [[]] .integer,
   .function "section_index" [[.string], [.integer]] .integer,
   .function "rva_to_offset" [[.integer]] .integer,
   .function "calculate_checksum" [[]] .integer,
   .function "imphash" [[]] .string,
   .only { avast := true }
    [.function "iconhash" [[]] .string,
     .function "exphash" [[]] .string]]

end YaraRules.Module
