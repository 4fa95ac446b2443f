import EsModules.IoError
import EsModules.Token.Lexer

/-!
# Errors

The causes for which a module is not found, read or rewritten.  Each has a stable code and a
text; the codes of the not-found class let resolution go on to the next candidate.
-/

namespace EsModules

/-- What makes an operation give up without an answer. -/
inductive Fault
  /-- A word of a source lies partly behind its end. -/
  | overrun
  /-- Two places to be rewritten overlap. -/
  | overlap
  /-- A source cannot be cut where its comments are said to be. -/
  | uncut
  deriving DecidableEq, Repr

/-- Why an operation on modules fails. -/
inductive Error
  /-- No anchor and no variant of a specifier leads to a module. -/
  | notFound (specifier : List Char) (anchors : List (List Char))
  /-- Nothing stands where a specifier leads. -/
  | moduleNotFound (target base : List Char)
  /-- A specifier leads to a directory. -/
  | directoryImport (path base : List Char)
  /-- A package does not export a subpath. -/
  | subpathNotExported (subpath manifest base : List Char)
  /-- A specifier has a protocol that is not supported. -/
  | unsupportedProtocol (specifier protocol : List Char)
  /-- A specifier is not valid. -/
  | invalidSpecifier (specifier reason : List Char)
  /-- A target of an exports or imports map is not valid. -/
  | invalidTarget (target key manifest : List Char)
  /-- A manifest is not valid. -/
  | invalidConfig (manifest reason : List Char)
  /-- A package does not define an internal import. -/
  | importNotDefined (specifier base : List Char)
  /-- The lexer rejects a source. -/
  | rejected (cause : LexError)
  /-- There is no manifest at a path. -/
  | manifestAbsent (path : List Char)
  /-- A file operation fails. -/
  | io (cause : IoError)
  /-- Any other error, given by its text. -/
  | internal (text : List Char)
  /-- There is no answer at all. -/
  | fault (cause : Fault)
  deriving DecidableEq, Repr

namespace Error

/-- The code of an error. -/
def code : Error → String
  | .notFound .. | .moduleNotFound .. => "ERR_MODULE_NOT_FOUND"
  | .directoryImport .. => "ERR_UNSUPPORTED_DIR_IMPORT"
  | .subpathNotExported .. => "ERR_PACKAGE_PATH_NOT_EXPORTED"
  | .unsupportedProtocol .. => "ERR_UNSUPPORTED_ESM_URL_SCHEME"
  | .invalidSpecifier .. => "ERR_INVALID_MODULE_SPECIFIER"
  | .invalidTarget .. => "ERR_INVALID_PACKAGE_TARGET"
  | .invalidConfig .. => "ERR_INVALID_PACKAGE_CONFIG"
  | .importNotDefined .. => "ERR_PACKAGE_IMPORT_NOT_DEFINED"
  | .rejected _ => "ERR_PARSE_DEGRADED"
  | .manifestAbsent _ => "ERR_MANIFEST_ABSENT"
  | .io _ => "ERR_IO"
  | .internal _ => "ERR_INTERNAL"
  | .fault _ => "ERR_FAULT"

/-- Whether resolution may go on to the next candidate after an error. -/
def isNotFound : Error → Bool
  | .notFound .. | .moduleNotFound .. | .directoryImport .. | .subpathNotExported .. => true
  | _ => false

/-- The text of an error. -/
def message : Error → List Char
  | .notFound specifier anchors =>
    "Cannot find module '".toList ++ specifier ++ "' imported from ".toList
      ++ Text.joinWith ", ".toList anchors
  | .moduleNotFound target base =>
    "Cannot find module '".toList ++ target ++ "' imported from ".toList ++ base
  | .directoryImport path base =>
    "Directory import '".toList ++ path
      ++ "' is not supported resolving ES modules imported from ".toList ++ base
  | .subpathNotExported subpath manifest base =>
    "Package subpath '".toList ++ subpath ++ "' is not defined by \"exports\" in ".toList
      ++ manifest ++ " imported from ".toList ++ base
  | .unsupportedProtocol specifier protocol =>
    "Unsupported protocol '".toList ++ protocol ++ "' in '".toList ++ specifier
      ++ "': only file, data, node, http and https URLs can be resolved".toList
  | .invalidSpecifier specifier reason =>
    "Invalid module specifier '".toList ++ specifier ++ "': ".toList ++ reason
  | .invalidTarget target key manifest =>
    "Invalid package target '".toList ++ target ++ "' for key '".toList ++ key ++ "' in ".toList
      ++ manifest
  | .invalidConfig manifest reason =>
    "Invalid package config ".toList ++ manifest ++ ": ".toList ++ reason
  | .importNotDefined specifier base =>
    "Package import specifier '".toList ++ specifier ++ "' is not defined imported from ".toList
      ++ base
  | .rejected cause => "Tokenizer rejected source: ".toList ++ cause.message.toList
  | .manifestAbsent path => "No package manifest at ".toList ++ path
  | .io cause => "IO error: ".toList ++ cause.message.toList
  | .internal text => text
  | .fault .overrun => "a word lies partly behind the end of its source".toList
  | .fault .overlap => "places to be rewritten overlap".toList
  | .fault .uncut => "a source cannot be cut at its comments".toList

end Error

end EsModules
