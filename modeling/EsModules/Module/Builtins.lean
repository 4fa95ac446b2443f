import EsModules.Text.Basic

/-!
# Builtin modules

A registry of the modules that the runtime itself supplies.  Asking for one ignores the protocol
`node:` and any subpath.
-/

namespace EsModules

/-- The modules that the runtime supplies, by the names of their packages. -/
structure Builtins where
  /-- The names. -/
  names : List (List Char)
  deriving DecidableEq, Repr

namespace Builtins

/-- The names of the modules that Node supplies. -/
def nodeNames : List String :=
  ["_http_agent", "_http_client", "_http_common", "_http_incoming", "_http_outgoing",
   "_http_server", "_stream_duplex", "_stream_passthrough", "_stream_readable",
   "_stream_transform", "_stream_wrap", "_stream_writable", "_tls_common", "_tls_wrap",
   "assert", "async_hooks", "buffer", "child_process", "cluster", "console", "constants",
   "crypto", "dgram", "diagnostics_channel", "dns", "domain", "events", "fs", "http", "http2",
   "https", "inspector", "module", "net", "os", "path", "perf_hooks", "process", "punycode",
   "querystring", "readline", "repl", "stream", "string_decoder", "sys", "timers", "tls",
   "trace_events", "tty", "url", "util", "v8", "vm", "wasi", "worker_threads", "zlib"]

/-- The registry of the modules that Node supplies. -/
def node : Builtins := ⟨nodeNames.map String.toList⟩

/-- A registry with one more name. -/
def insert (b : Builtins) (name : List Char) : Builtins := ⟨b.names ++ [name]⟩

/-- The protocol of builtin modules. -/
def protocol : List Char := "node:".toList

/-- An id without the protocol of builtin modules. -/
def bareId (id : List Char) : List Char := (Text.dropPrefix? protocol id).getD id

theorem bareId_eq_self {id : List Char} (h : ¬ protocol <+: id) : bareId id = id := by
  unfold bareId
  cases hdrop : Text.dropPrefix? protocol id with
  | none => rfl
  | some rest => exact absurd ⟨rest, Text.dropPrefix?_eq_some_iff.1 hdrop⟩ h

/-- The name of the package in an id. -/
def packageName (id : List Char) : List Char := (bareId id).takeWhile (· != '/')

/-- Whether an id names a builtin module. -/
def contains (b : Builtins) (id : List Char) : Bool := b.names.contains (packageName id)

/-- The id of a builtin module with its protocol. -/
def canonical? (b : Builtins) (id : List Char) : Option (List Char) :=
  if b.contains id then some (protocol ++ bareId id) else none

end Builtins

end EsModules
