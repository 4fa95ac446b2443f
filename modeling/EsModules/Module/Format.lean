import EsModules.Error
import EsModules.Pattern.Search

/-!
# Module formats

A source shows its format by the constructs that stand at the front of a line or behind a space
or a semicolon: declarations and `import.meta` for modules, assignments to exports, calls of
`require` and uses of `global` for scripts.  Comments may be left out of account.

* `stripComments`: a source without its comments.
* `Format.ofSource`: which constructs a source holds.
-/

namespace EsModules

/-- Which constructs a source holds. -/
structure Format where
  /-- Whether it holds those of modules. -/
  hasModule : Bool
  /-- Whether it holds those of scripts. -/
  hasScript : Bool
  deriving DecidableEq, Repr

namespace Format

open Pattern

/-! ## Constructs -/

/-- The front of a line, or a space or semicolon. -/
def front : Pattern Unit := alt (char fun c => Ascii.isSpace c || c == ';') lineStart

/-- The characters between `import` and `from`. -/
def isBindingChar (c : Char) : Bool :=
  Ascii.isSpace c || Ascii.isWordChar c || "*,\x7b\x7d".toList.contains c

/-- A construct that only modules have. -/
def moduleConstruct : Pattern Unit :=
  front ++ oneOf
    [word "import" ++ run isBindingChar ++ word "from",
     word "import" ++ spaces ++ char (fun c => "\"'*\x7b".toList.contains c),
     word "export" ++ wordEdge ++ spaces
       ++ alt (char fun c => c == '*' || c == '\x7b')
         (oneWord ["default", "class", "type", "interface", "enum", "function", "const", "var",
           "let", "async function"]),
     word "import.meta" ++ wordEdge]

/-- A construct that only scripts have. -/
def scriptConstruct : Pattern Unit :=
  front ++ oneOf
    [word "module.exports" ++ wordEdge,
     word "exports." ++ char Ascii.isWordChar,
     word "require" ++ spaces ++ char (· == '('),
     word "global." ++ char Ascii.isWordChar]

/-- The constructs of a source, comments and all. -/
def ofText (source : List Char) : Format :=
  ⟨moduleConstruct.occursIn source, scriptConstruct.occursIn source⟩

/-- Whether a source holds constructs of both kinds. -/
def isMixed (f : Format) : Bool := f.hasModule && f.hasScript

/-! ## Comments -/

/-- A comment, in a source that the lexer rejects. -/
def comment : Pattern Unit :=
  alt (word "/*" ++ shortRun1 isInLine ++ word "*/")
    (word "//" ++ run fun c => c != '\n' && c != '\r')

/-- A source from an offset on, without some spans that are taken one after the other; it has to be
cut at the ends of each. -/
def withoutSpans (source : List Char) : Nat → List Span → Except Fault (List Char)
  | offset, [] => piece offset (Text.byteLength source)
  | offset, s :: spans => do
    let front ← piece offset s.start
    let back ← withoutSpans source s.stop spans
    return front ++ back
where
  /-- The part of the source between two offsets. -/
  piece (start stop : Nat) : Except Fault (List Char) :=
    match Text.slice? start stop source with
    | some text => .ok text
    | none => .error .uncut

/-- A source without its comments. -/
def stripComments (source : List Char) : Except Fault (List Char) :=
  match commentSpans source with
  | .ok spans => withoutSpans source 0 spans
  | .error .overrun => .error .overrun
  | .error _ => .ok (comment.replaceAll [] source)

/-- A source, without its comments if they are to be left out of account. -/
def prepare (strip : Bool) (source : List Char) : Except Fault (List Char) :=
  if strip then stripComments source else .ok source

/-- The constructs of a source, with or without regard to comments. -/
def ofSource (strip : Bool) (source : List Char) : Except Fault Format :=
  (prepare strip source).map ofText

end Format

end EsModules
