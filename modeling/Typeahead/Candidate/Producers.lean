import Typeahead.Candidate.Basic
import Typeahead.Catalog.Signature
import Typeahead.Catalog.Table

/-!
# Families of candidates

What can be offered comes in families, each a list of candidates. Which of them
are offered where is decided in `Typeahead.Engine.Offer`.
-/

namespace Typeahead.Offer

/-- Plain candidates with a common tier and hint. -/
def plainAll (priority : Priority) (hint : String) (texts : List String) : List Candidate :=
  texts.map fun text => (Candidate.plain text priority).withHint hint

/-- The values that are written as words. -/
def literals (priority : Priority) : List Candidate :=
  plainAll priority "Value" ["nil", "true", "false"]

/-- A new form. -/
def newForm (priority : Priority) : List Candidate :=
  [(Candidate.plain "()" priority).withHint "Start new expression" |>.withInsertion .parens]

/-- The forms that can be inserted as a whole. -/
def templates : List Candidate := Template.all.map (Candidate.ofTemplate · .apiFunctions)

/-- The bindings of a scope. -/
def bindings (s : Scope) : List Candidate := s.bindings.map .ofBinding

/-- The entries of the catalogue in the groups that `p` accepts. -/
def fromCatalogue (p : Group → Bool) : List Candidate := (catalogueOf p).map .ofEntry

/-- The start of a parameter vector. -/
def parameterVector : List Candidate :=
  [(Candidate.plain "[" .specialForms).withDisplay "[]" |>.withHint "Parameter vector"
    |>.withInsertion .brackets]

/-- Usual names of parameters, after the end of the vector if it is still open. -/
def parameterNames (closed : Bool) : List Candidate :=
  (if closed then [] else plainAll .specialForms "Close parameter vector" ["]"]) ++
    plainAll .projectSymbols "Parameter name"
      ["x", "y", "z", "n", "m", "i", "j", "coll", "xs", "ys", "f", "pred", "key", "val", "kv", "a",
       "b", "c", "item", "elem", "acc", "result"]

/-- The remark that a definition needs a new name. -/
def definitionName : List Candidate :=
  [.remark "Type a unique name..." "New definition" .currentScopeLocals]

/-- The number of the argument with a given index. Arguments are counted from one
    in a word of 64 bits, in which zero follows the greatest number. -/
def argumentNumber (index : Nat) : Nat := (index + 1) % Nat.pow 2 64

/-- The remark which parameter of a function an argument is for. -/
def parameterHint (function : String) (index : Nat) (signature : String) : List Candidate :=
  match parameterAt? signature index with
  | none => []
  | some param =>
    let number := toString (argumentNumber index)
    let display := param ++ " (argument " ++ number ++ " of " ++ function ++ ")"
    [(Candidate.remark display "Parameter hint" .currentScopeLocals).withSignature signature]

/-- Whether a keyword starts with two colons. -/
def isNamespaced (keyword : String) : Bool := [':', ':'].isPrefixOf keyword.toList

/-- The keywords of the file, and the keywords of the language unless two colons
    have been typed. -/
def keywords (namespaced : Bool) (inFile : List String) : List Candidate :=
  plainAll .recentDefinitions "Keyword" (inFile.filter (isNamespaced · == namespaced)) ++
    if namespaced then []
    else
      plainAll .specialForms "Keyword"
        [":require", ":require-file", ":use", ":refer", ":as", ":private", ":doc", ":test",
         ":deprecated", ":see-also", ":example", ":keys", ":let", ":when", ":while", ":in",
         ":range", ":pairs", ":reduce"]

/-- What is offered when nothing is known about the cursor. -/
def fallback : List Candidate :=
  literals .commonBuiltins ++
    [(Candidate.plain "(" .currentScopeLocals).withHint "Start expression"
      |>.withInsertion .parens] ++
    ["defn", "fn", "let", "if", "when", "map", "filter", "reduce", "get", "count"].map
      (Candidate.plain · .specialForms) ++
    [.remark "⚠ Malformed syntax" "Completion is limited until the form is fixed" .phpInterop]

end Typeahead.Offer
