import Typeahead.Candidate.Producers
import Typeahead.Namespace.Clause
import Typeahead.Text.Lowercase

/-!
# Candidates for namespace declarations

What can be typed in a clause of a namespace declaration depends on the words of
the clause that are complete: first comes what is imported, then how it is
named.
-/

namespace Typeahead.Offer

/-- The namespaces that come with the language. -/
def standardNamespaces : List String :=
  ["phel\\test", "phel\\json", "phel\\http", "phel\\str", "phel\\html", "phel\\core",
   "phel\\base64", "phel\\local", "phel\\repl", "phel\\trace"]

/-- The files that are often loaded. -/
def usualFiles : List String :=
  ["\"vendor/autoload.php\"", "\"bootstrap.php\"", "\"config.php\"", "\"functions.php\""]

/-- The classes that are often imported. -/
def usualClasses : List String := ["Exception", "DateTime", "PDO", "stdClass"]

/-- Whether a word is the name of a namespace: parts with backslashes between
    them, none of them empty or a keyword. -/
def isNsName (word : List Char) : Bool :=
  word.contains '\\' &&
    (splitFields (· == '\\') [] word).all fun part => !part.isEmpty && part.head? != some ':'

/-- The words of a clause before what has been typed at the cursor. -/
def completeWords (body typed : List Char) : List (List Char) :=
  let body := if typed.isSuffixOf body then body.take (body.length - typed.length) else body
  splitWords (fun c => isBlank c || c == '[' || c == ']') body

/-- The keyword that names what is imported. -/
def aliasMarker : List Candidate := plainAll .specialForms "Alias" [":as"]

/-- The namespaces that start with what has been typed. -/
def namespaces (typed : List Char) (inProject : List String) : List Candidate :=
  let fit := fun (name : String) => (lowercase typed).isPrefixOf (lowercase name.toList)
  plainAll .apiFunctions "Phel namespace" (standardNamespaces.filter fit) ++
    plainAll .projectSymbols "Project namespace" (inProject.filter fit)

/-- What can follow the last complete word of a clause that imports
    namespaces. -/
def afterWord (inProject : List String) : Option (List Char) → List Candidate
  | none => namespaces [] inProject
  | some word =>
    if word = ":refer".toList then
      [(Candidate.plain "[" .specialForms).withDisplay "[]" |>.withHint "Referred names"
        |>.withInsertion .brackets]
    else if word = ":as".toList then []
    else if isNsName word then
      aliasMarker ++ plainAll .specialForms "Refer names into this namespace" [":refer []"]
    else []

/-- What can be typed in a clause, the text of the declaration up to the cursor
    being `before`. -/
def inClause (clause : NsClause) (before typed : List Char) (inProject : List String) :
    List Candidate :=
  let body := ((openClause? before).map Prod.snd).getD []
  match clause with
  | .name => []
  | .between =>
    plainAll .specialForms "Require a Phel namespace" ["(:require )"] ++
      plainAll .specialForms "Require a PHP file" ["(:require-file )"] ++
      plainAll .macroForms "Import a PHP class" ["(:use )"]
  | .require =>
    if typed.isEmpty then afterWord inProject (completeWords body typed).getLast?
    else namespaces typed inProject
  | .requireFile =>
    if body.contains '"' && typed.isEmpty then aliasMarker
    else plainAll .apiFunctions "PHP file" usualFiles
  | .use =>
    if !typed.isEmpty then plainAll .phpInterop "PHP class" usualClasses
    else if !(completeWords body typed).isEmpty then aliasMarker
    else
      plainAll .apiFunctions "PHP class" ["\\DateTime"] ++
        plainAll .phpInterop "PHP class" usualClasses

end Typeahead.Offer
