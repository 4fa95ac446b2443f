import EsModules.Span

/-!
# Tokens

The kinds of token a module's source text is cut into, the reserved words and the punctuators.
A token carries no text of its own: its span says which part of the source it is.
-/
namespace EsModules

/-! ## Reserved words -/

/-- The reserved words. -/
inductive Keyword
  | awaitKw | breakKw | caseKw | catchKw | classKw | constKw | continueKw | debuggerKw
  | defaultKw | deleteKw | doKw | elseKw | enumKw | exportKw | extendsKw | falseKw | finallyKw
  | forKw | functionKw | ifKw | importKw | inKw | instanceofKw | newKw | nullKw | returnKw
  | superKw | switchKw | thisKw | throwKw | trueKw | tryKw | typeofKw | varKw | voidKw | whileKw
  | withKw | yieldKw
  deriving DecidableEq, Repr

namespace Keyword

/-- The reserved words with their spellings. -/
def spellings : List (Keyword × String) :=
  [(.awaitKw, "await"), (.breakKw, "break"), (.caseKw, "case"), (.catchKw, "catch"),
   (.classKw, "class"), (.constKw, "const"), (.continueKw, "continue"),
   (.debuggerKw, "debugger"), (.defaultKw, "default"), (.deleteKw, "delete"), (.doKw, "do"),
   (.elseKw, "else"), (.enumKw, "enum"), (.exportKw, "export"), (.extendsKw, "extends"),
   (.falseKw, "false"), (.finallyKw, "finally"), (.forKw, "for"), (.functionKw, "function"),
   (.ifKw, "if"), (.importKw, "import"), (.inKw, "in"), (.instanceofKw, "instanceof"),
   (.newKw, "new"), (.nullKw, "null"), (.returnKw, "return"), (.superKw, "super"),
   (.switchKw, "switch"), (.thisKw, "this"), (.throwKw, "throw"), (.trueKw, "true"),
   (.tryKw, "try"), (.typeofKw, "typeof"), (.varKw, "var"), (.voidKw, "void"),
   (.whileKw, "while"), (.withKw, "with"), (.yieldKw, "yield")]

/-- The reserved word with a given spelling. -/
def ofSpelling? (word : List Char) : Option Keyword :=
  (spellings.find? fun entry => entry.2.toList == word).map (·.1)

/-- The spelling of a reserved word. -/
def spelling (k : Keyword) : String :=
  ((spellings.find? fun entry => entry.1 == k).map (·.2)).getD ""

/-- Whether a reserved word is a whole expression on its own. -/
def isValue : Keyword → Bool
  | thisKw | superKw | nullKw | trueKw | falseKw => true
  | _ => false

end Keyword

/-! ## Punctuators -/

/-- The punctuators. -/
inductive Punct
  | lParen | rParen | lBrace | rBrace | lBracket | rBracket | semicolon | comma | colon | tilde
  | atSign | dot | ellipsis | question | questionDot | questionQuestion | questionQuestionEq | arrow
  | eq | eqEq | eqEqEq | bang | bangEq | bangEqEq | lt | ltEq | shl | shlEq | gt | gtEq | shr
  | shrEq | uShr | uShrEq | plus | plusPlus | plusEq | minus | minusMinus | minusEq | star
  | starEq | starStar | starStarEq | slash | slashEq | percent | percentEq | amp | ampAmp | ampEq
  | ampAmpEq | pipe | pipePipe | pipeEq | pipePipeEq | caret | caretEq
  deriving DecidableEq, Repr

namespace Punct

/-- The punctuators with their spellings, longer ones before their own beginnings. -/
def spellings : List (Punct × String) :=
  [(.uShrEq, ">>>="), (.ellipsis, "..."), (.eqEqEq, "==="), (.bangEqEq, "!=="),
   (.starStarEq, "**="), (.shlEq, "<<="), (.shrEq, ">>="), (.uShr, ">>>"), (.ampAmpEq, "&&="),
   (.pipePipeEq, "||="), (.questionQuestionEq, "??="), (.arrow, "=>"), (.eqEq, "=="),
   (.bangEq, "!="), (.ltEq, "<="), (.gtEq, ">="), (.shl, "<<"), (.shr, ">>"), (.starStar, "**"),
   (.plusPlus, "++"), (.minusMinus, "--"), (.plusEq, "+="), (.minusEq, "-="), (.starEq, "*="),
   (.slashEq, "/="), (.percentEq, "%="), (.ampEq, "&="), (.pipeEq, "|="), (.caretEq, "^="),
   (.ampAmp, "&&"), (.pipePipe, "||"), (.questionQuestion, "??"), (.questionDot, "?."),
   (.lParen, "("), (.rParen, ")"), (.lBracket, "["), (.rBracket, "]"), (.semicolon, ";"),
   (.comma, ","), (.colon, ":"), (.tilde, "~"), (.atSign, "@"), (.dot, "."), (.question, "?"),
   (.eq, "="), (.bang, "!"), (.lt, "<"), (.gt, ">"), (.plus, "+"), (.minus, "-"), (.star, "*"),
   (.slash, "/"), (.percent, "%"), (.amp, "&"), (.pipe, "|"), (.caret, "^")]

end Punct

/-! ## Kinds of token -/

/-- What a token is. -/
inductive TokenKind
  /-- A name, or a reserved word in the place of a property name. -/
  | identifier
  /-- A reserved word. -/
  | keyword (word : Keyword)
  /-- The name of a private class member. -/
  | privateName
  /-- A quoted string. -/
  | string
  /-- A number. -/
  | number
  /-- A regular expression with its flags. -/
  | regex
  /-- A template without substitutions. -/
  | noSubstitutionTemplate
  /-- A template up to its first substitution. -/
  | templateHead
  /-- The text between two substitutions of a template. -/
  | templateMiddle
  /-- The text behind the last substitution of a template. -/
  | templateTail
  /-- An operator or a bracket. -/
  | punct (mark : Punct)
  /-- A character that starts no token. -/
  | unknown
  /-- The end of the input. -/
  | eof
  deriving DecidableEq, Repr

namespace TokenKind

/-- The marks behind which a slash is a division. -/
def marksBeforeDivision : List Punct :=
  [.rParen, .rBracket, .rBrace, .dot, .questionDot, .plusPlus, .minusMinus]

/-- Whether a slash behind a token of this kind opens a regular expression rather than being a
division. -/
def allowsRegexAfter : TokenKind → Bool
  | templateHead | templateMiddle | unknown => true
  | keyword word => !word.isValue
  | punct mark => !marksBeforeDivision.contains mark
  | _ => false

/-- Whether a word behind a token of this kind is a property name. -/
def isMemberAccess : TokenKind → Bool
  | punct .dot | punct .questionDot => true
  | _ => false

end TokenKind

/-- A kind of token with the part of the source it covers. -/
structure Token where
  /-- What the token is. -/
  kind : TokenKind
  /-- The bytes it covers. -/
  span : Span
  deriving DecidableEq, Repr

/-- The token as it is given out, with its place in 32-bit words. -/
def Token.wrapped (t : Token) : Token := { t with span := t.span.wrapped }

@[simp] theorem Token.wrapped_kind (t : Token) : t.wrapped.kind = t.kind := rfl

@[simp] theorem Token.wrapped_span (t : Token) : t.wrapped.span = t.span.wrapped := rfl

theorem Token.wrapped_eq_self {t : Token} (h : t.span.wrapped = t.span) : t.wrapped = t := by
  rw [wrapped, h]

/-- The words of a text's places say nothing of the kinds of its tokens. -/
theorem Token.map_kind_wrapped (ts : List Token) :
    (ts.map Token.wrapped).map Token.kind = ts.map Token.kind := by
  rw [List.map_map]
  rfl

end EsModules
