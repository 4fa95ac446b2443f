import EsModules.Text.Basic

/-!
# Arguments

The words of a command line: flags, options with a value, and words that stand for themselves.
A double dash ends the options.  What is no known flag or option is a mistake.

* `OptionSet.read`: the arguments in a list of words.
* `OptionSet.readLeading`: the arguments in front of the first word that stands for itself.
-/

namespace EsModules

/-- An argument of a command line. -/
inductive Argument
  /-- A flag. -/
  | flag (name : String)
  /-- An option with its value. -/
  | option (name : String) (value : List Char)
  /-- A word that stands for itself. -/
  | word (text : List Char)
  deriving DecidableEq, Repr

namespace Argument

/-- Whether an argument is a given flag. -/
def isFlag (name : String) (a : Argument) : Bool := a == flag name

/-- The value of an argument that is a given option. -/
def valueOf? (name : String) : Argument → Option (List Char)
  | option n value => if n == name then some value else none
  | _ => none

/-- The text of a word. -/
def word? : Argument → Option (List Char)
  | word text => some text
  | _ => none

end Argument

/-- The flags and options that are known. -/
structure OptionSet where
  /-- The flags that are given at most once. -/
  flags : List String
  /-- The options that are given at most once. -/
  options : List String
  /-- The options that may be repeated. -/
  repeated : List String
  /-- The flags that may be repeated, each with its letter. -/
  letters : List (Char × String)

namespace OptionSet

/-- The flags and options of two sets. -/
def union (s t : OptionSet) : OptionSet :=
  ⟨s.flags ++ t.flags, s.options ++ t.options, s.repeated ++ t.repeated, s.letters ++ t.letters⟩

/-- The flag with a name. -/
def flag? (s : OptionSet) (name : List Char) : Option String :=
  (s.flags ++ s.letters.map (·.2)).find? fun n => n.toList == name

/-- The option with a name. -/
def option? (s : OptionSet) (name : List Char) : Option String :=
  (s.options ++ s.repeated).find? fun n => n.toList == name

/-- What a word of a command line is. -/
inductive Reading
  /-- It is complete. -/
  | complete (arguments : List Argument)
  /-- It is an option whose value comes next. -/
  | awaiting (name : String)
  /-- It is a mistake. -/
  | mistake

/-- Reads a word behind a double dash. -/
def readLong (s : OptionSet) (text : List Char) : Reading :=
  match Text.splitOnce ['='] text with
  | some (name, value) => match s.option? name with
    | some n => .complete [.option n value]
    | none => .mistake
  | none => match s.flag? text, s.option? text with
    | some n, _ => .complete [.flag n]
    | none, some n => .awaiting n
    | none, none => .mistake

/-- Reads the letters behind a single dash. -/
def readLetters (s : OptionSet) (letters : List Char) : Reading :=
  match letters.mapM fun c => (s.letters.find? fun entry => entry.1 == c).map (·.2) with
  | some names => .complete (names.map .flag)
  | none => .mistake

/-- Whether a word starts like a flag or an option; a lone dash does not. -/
def startsOption : List Char → Bool
  | '-' :: _ :: _ => true
  | _ => false

/-- Reads a word. -/
def readWord (s : OptionSet) (text : List Char) : Reading :=
  match text with
  | '-' :: '-' :: name => s.readLong name
  | '-' :: c :: letters => s.readLetters (c :: letters)
  | _ => .complete [.word text]

/-- The arguments in a list of words. -/
def read (s : OptionSet) : List (List Char) → Option (List Argument)
  | [] => some []
  | text :: rest =>
    if text == "--".toList then some (rest.map .word)
    else match s.readWord text with
      | .mistake => none
      | .complete arguments => (read s rest).map (arguments ++ ·)
      | .awaiting name => match rest with
        | [] => none
        | value :: rest =>
          if startsOption value then none else (read s rest).map (.option name value :: ·)

/-- The arguments in front of the first word that stands for itself, that word, and the words
behind it. -/
def readLeading (s : OptionSet) :
    List (List Char) → Option (List Argument × List Char × List (List Char))
  | [] => none
  | text :: rest =>
    if text == "--".toList then none
    else if !startsOption text then some ([], text, rest)
    else match s.readWord text with
      | .mistake => none
      | .complete arguments =>
        (readLeading s rest).map fun (front, word, behind) => (arguments ++ front, word, behind)
      | .awaiting name => match rest with
        | [] => none
        | value :: rest =>
          if startsOption value then none
          else (readLeading s rest).map fun (front, word, behind) =>
            (.option name value :: front, word, behind)

/-- Whether no argument is given more often than it may be. -/
def allowsCounts (s : OptionSet) (arguments : List Argument) : Bool :=
  (s.flags.all fun n => (arguments.filter (Argument.isFlag n)).length ≤ 1)
    && s.options.all fun n => (arguments.filterMap (Argument.valueOf? n)).length ≤ 1

end OptionSet

end EsModules
