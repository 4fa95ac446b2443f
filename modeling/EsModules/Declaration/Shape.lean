import EsModules.Pattern

/-!
# Shapes of declarations

The patterns that import and export declarations are looked for with.  They match too much on
purpose: what they find within strings and comments is dropped afterwards by looking at the
keywords of the source.
-/

namespace EsModules

/-- The parts of a declaration that are remembered. -/
inductive Part
  /-- What stands between `import` and `from`. -/
  | clause
  /-- The name of another module, without its quotes. -/
  | specifier
  /-- The argument of a call of `import`. -/
  | expression
  /-- The words that say what is declared. -/
  | declaration
  /-- The name that is declared. -/
  | name
  /-- Further declarators behind the first. -/
  | extra
  /-- What stands between brackets. -/
  | entries
  /-- The value of a default export. -/
  | value
  deriving DecidableEq, Repr

namespace Shape

open Pattern

/-- The characters of an identifier: the dollar sign, letters and digits of ASCII, the underscore
and all that lies outside ASCII. -/
def isIdentifierChar (c : Char) : Bool := c == '$' || Ascii.isWordChar c || 0x80 ≤ c.toNat

/-- An identifier. -/
def identifier : Pattern Part := run1 isIdentifierChar

/-- A specifier between two quotes of one kind; the spaces around it do not belong to it. -/
def quoted (quote : Char) : Pattern Part :=
  char (· == quote) ++ spaces
    ++ capture .specifier
      (run (fun c => c != quote && c != '\n') ++ char (fun c => c != quote && !Ascii.isSpace c))
    ++ spaces ++ char (· == quote)

/-- A quoted specifier. -/
def specifier : Pattern Part := alt (quoted '"') (quoted '\'')

/-! ## Imports -/

/-- The end of an import declaration: its specifier, and the spaces and semicolons behind it. -/
def importEnd : Pattern Part := specifier ++ run (fun c => Ascii.isSpace c || c == ';')

/-- The characters of an import clause. -/
def isClauseChar : Char → Bool := isNoneOf "\"'\x60;()=[]<>!%^&|?~\\"

/-- A static import, with or without a clause. -/
def staticImport : Pattern Part :=
  word "import" ++ spaces
    ++ orNothing (run (fun c => Ascii.isSpace c || c == '"' || c == '\'')
      ++ capture .clause (run1 isClauseChar) ++ word "from" ++ spaces)
    ++ importEnd

/-- The characters of the clause of a type import. -/
def isTypeClauseChar (c : Char) : Bool :=
  Ascii.isWordChar c || "$*\x7b\x7d\n\r\t, ".toList.contains c

/-- An import of types only. -/
def typeImport : Pattern Part :=
  word "import" ++ spaces ++ word "type" ++ spaces1
    ++ capture .clause (run1 isTypeClauseChar) ++ word "from" ++ spaces ++ importEnd

/-- The characters other than round brackets. -/
def isNoParen : Char → Bool := isNoneOf "()"

/-- Text in which round brackets are balanced and at most the given number of pairs lie in each
other. -/
def balanced : Nat → Pattern Part
  | 0 => run isNoParen
  | n + 1 => many true
    (alt (char isNoParen) (char (· == '(') ++ balanced n ++ char (· == ')')))

/-- A call of `import`. -/
def dynamicImport : Pattern Part :=
  word "import" ++ spaces ++ char (· == '(') ++ capture .expression (balanced 2)
    ++ char (· == ')')

/-- The word that marks an entry of a clause as a type. -/
def inlineType : Pattern Part :=
  char (fun c => !Ascii.isLetter c) ++ word "type" ++ char Ascii.isSpace

/-! ## Clauses -/

/-- A comment within a clause. -/
def clauseComment : Pattern Part :=
  alt (word "//" ++ run isInLine ++ char (· == '\n')) (word "/*" ++ run isInLine ++ word "*/")

/-- A namespace binding. -/
def namespaceBinding : Pattern Part :=
  word "* as " ++ spaces ++ capture .name (run fun c => !Ascii.isSpace c)

/-- A list in curly brackets. -/
def bracedList : Pattern Part :=
  char (· == '\x7b') ++ capture .entries (run (· != '\x7d')) ++ char (· == '\x7d')

/-! ## Exports -/

/-- The front of an export declaration. -/
def exportFront : Pattern Part := wordEdge ++ word "export"

/-- The words for a generator or another function. -/
def functionWords (front : String) : Pattern Part :=
  word front ++ spaces ++ orNothing (char (· == '*'))

/-- The words behind the first `export` that declare a value. -/
def valueWords : Pattern Part :=
  oneOf [functionWords "async function", functionWords "function",
    oneWord ["let", "const enum", "const", "enum", "var", "class"]]

/-- A character between a comma and the end of the declarator behind it. -/
def isDeclaratorChar (c : Char) : Bool :=
  Ascii.isSpace c || Ascii.isWordChar c || ":[]\x7b\x7d".toList.contains c

/-- A character that a declarator can end in. -/
def isDeclaratorEnd (c : Char) : Bool := Ascii.isWordChar c || "$]\x7d".toList.contains c

/-- The text up to a further declarator, and the declarator. -/
def furtherDeclarator : Pattern Part :=
  run isInLine ++ char (· == ',') ++ spaces ++ run isDeclaratorChar ++ run1 isDeclaratorEnd

/-- An exported declaration of values. -/
def exportDeclaration : Pattern Part :=
  exportFront ++ spaces1 ++ capture .declaration valueWords ++ spaces1
    ++ orNothing (char (· == '*')) ++ capture .name identifier
    ++ many true (capture .extra furtherDeclarator)

/-- The words behind `export` that declare a type. -/
def typeWords : Pattern Part :=
  oneOf [word "interface", word "type",
    word "declare " ++ oneWord
      ["async function", "function", "let", "const enum", "const", "enum", "var", "class"]]

/-- An exported declaration of a type. -/
def exportTypeDeclaration : Pattern Part :=
  exportFront ++ spaces1 ++ capture .declaration typeWords ++ spaces1 ++ capture .name identifier

/-- An exported default class. -/
def exportDefaultClass : Pattern Part :=
  exportFront ++ spaces1 ++ word "default" ++ spaces1 ++ capture .declaration (word "class")
    ++ spaces1 ++ capture .name identifier

/-- The spaces and commas in front of a closing bracket. -/
def listEnd : Pattern Part := run fun c => Ascii.isSpace c || c == ','

/-- The other module that an export passes on from. -/
def fromClause : Pattern Part :=
  spaces ++ word "from" ++ spaces ++ specifier ++ run (fun c => c != '\n' && c != ';')

/-- A list of exported names and the module that they may come from. -/
def exportList : Pattern Part :=
  char (· == '\x7b') ++ capture .entries (shortRun1 (isNoneOf "\x7d\"'\x60")) ++ listEnd
    ++ char (· == '\x7d') ++ orNothing fromClause

/-- An exported list of values. -/
def exportNamed : Pattern Part := exportFront ++ spaces ++ exportList

/-- An exported list of types. -/
def exportNamedTypes : Pattern Part :=
  exportFront ++ spaces1 ++ word "type" ++ spaces1 ++ exportList

/-- Names between two brackets. -/
def bracketed (opening closing : Char) : Pattern Part :=
  char (· == opening) ++ capture .entries (shortRun1 (· != closing)) ++ listEnd
    ++ char (· == closing)

/-- An exported declaration that takes a value apart. -/
def exportDestructured : Pattern Part :=
  exportFront ++ spaces1 ++ oneWord ["let", "var", "const"] ++ spaces1
    ++ alt (bracketed '\x7b' '\x7d') (bracketed '[' ']') ++ spaces1 ++ char (· == '=')

/-- An export of all that another module exports. -/
def exportStar : Pattern Part :=
  exportFront ++ spaces ++ char (· == '*')
    ++ orNothing (spaces ++ word "as" ++ spaces1 ++ capture .name identifier ++ spaces1)
    ++ spaces ++ orNothing fromClause

/-- The front of a default export. -/
def exportDefaultFront : Pattern Part := exportFront ++ spaces1 ++ word "default" ++ spaces1

/-- A default export: one whose value starts in a way that names nothing, or else a line. -/
def exportDefault : Pattern Part :=
  alt
    (exportDefaultFront ++ alt (oneWord ["async function", "function", "class", "true", "false"])
      (char fun c => !Ascii.isWordChar c || Ascii.isDigit c))
    (exportDefaultFront ++ capture .value (run isInLine))

/-- A bracketed initializer that holds no declarator, or a further declarator. -/
def declaratorStep : Pattern Part :=
  oneOf [char (· == '\x7b') ++ shortRun isInLine ++ char (· == '\x7d'),
    char (· == '[') ++ shortRun isInLine ++ char (· == ']'),
    char (· == ',') ++ spaces ++ capture .name (run1 Ascii.isWordChar)]

end Shape

end EsModules
