import YaraRules.Module.Declaration

/-! Behaviour reports: network, registry, filesystem and mutexes. -/

namespace YaraRules.Module

def cuckooDeclarations : List Declaration :=
  [.structure "network"
    [.function "dns_lookup" [[.regexp]] .integer,
     .function "http_request" [[.regexp]] .integer,
     .function "http_user_agent" [[.regexp]] .integer,
     .function "host" [[.regexp]] .integer,
     .function "tcp" [[.regexp, .integer]] .integer,
     .function "udp" [[.regexp, .integer]] .integer,
     .only { virusTotal := true }
      [.function "http_post" [[.regexp]] .integer,
       .function "http_request_body" [[.regexp]] .integer,
       .function "http_response_body" [[.regexp]] .integer],
     .only { deprecated := true }
      [.function "http_get" [[.regexp]] .integer]],
   .structure "registry"
    [.function "key_access" [[.regexp]] .integer,
     .only { virusTotal := true }
      [.function "key_create" [[.regexp]] .integer,
       .function "key_delete" [[.regexp]] .integer,
       .function "key_read" [[.regexp]] .integer,
       .function "key_write" [[.regexp]] .integer,
       .function "key_value_access" [[.regexp, .regexp]] .integer]],
   .structure "filesystem"
    [.function "file_access" [[.regexp]] .integer,
     .only { virusTotal := true }
      [.function "file_copy" [[.regexp, .regexp]] .integer,
       .function "file_delete" [[.regexp]] .integer,
       .function "file_move" [[.regexp, .regexp]] .integer,
       .function "file_open" [[.regexp]] .integer,
       .function "file_read" [[.regexp]] .integer,
       .function "file_write" [[.regexp]] .integer]],
   .structure "sync"
    [.function "mutex" [[.regexp]] .integer,
     .only { virusTotal := true }
      [.function "mutex_create" [[.regexp]] .integer,
       .function "mutex_open" [[.regexp]] .integer]],
   .only { virusTotal := true }
    [.structure "process"
      [.function "executed_command" [[.regexp]] .integer,
       .function "api_call" [[.regexp]] .integer,
       .function "created_service" [[.regexp]] .integer,
       .function "started_service" [[.regexp]] .integer,
       .function "terminated_process" [[.regexp]] .integer],
     .structure "signature"
      [.function "name" [[.regexp]] .integer]]]

end YaraRules.Module
