import EsModules.Url.DomainName.Label

/-!
# Domain names

A domain name is compared and written in ASCII.  Its characters are replaced by what stands for
all their variants and put into normal form; then each label is written in ASCII.

* `DomainName.toAscii?`, none for a text that is no domain name.
-/

namespace EsModules.DomainName

/-- A text with its characters replaced, in normal form, if a domain name may hold them all. -/
def replaced? (text : List Char) : Option (List Char) :=
  ((text.mapM replacement?).map fun parts => Unicode.normalize parts.flatten).filter fun name =>
    !name.any Label.isForbidden

/-- The labels of a domain name.  If one of them has a character that turns the direction, all
read one way. -/
def labels? (text : List Char) : Option (List Label) := do
  let labels ← (Text.splitOn '.' (← replaced? text)).mapM Label.ofText?
  guard (!(labels.any fun l => l.text.any Unicode.turnsDirection)
    || labels.all fun l => readsOneWay l.text)
  return labels

/-- The ASCII form of a domain name. -/
def toAscii? (name : List Char) : Option (List Char) :=
  (labels? name).map fun labels => Text.joinWith ['.'] (labels.map Label.ascii)

end EsModules.DomainName
