/-!
# Catalogue entries

The catalogue lists the names that every Phel program can use: the special
forms, the macros and functions of the core, and the functions of the libraries
that come with the language.
-/

namespace Typeahead

/-- What kind of name an entry is. -/
inductive Group
  | specialForm
  | controlFlow
  | macroForm
  | core
  | predicate
  | collection
  | arithmetic
  | string
  | json
  | base64
  | html
  | http
  | test
  | debug
  | repl
  | phpInterop
  deriving DecidableEq, Repr

namespace Group

/-- All groups. -/
def all : List Group :=
  [specialForm, controlFlow, macroForm, core, predicate, collection, arithmetic, string, json,
   base64, html, http, test, debug, repl, phpInterop]

/-- The name of a group. -/
def name : Group → String
  | specialForm => "SpecialForm"
  | controlFlow => "ControlFlow"
  | macroForm => "Macro"
  | core => "Core"
  | predicate => "Predicate"
  | collection => "Collection"
  | arithmetic => "Arithmetic"
  | string => "String"
  | json => "Json"
  | base64 => "Base64"
  | html => "Html"
  | http => "Http"
  | test => "Test"
  | debug => "Debug"
  | repl => "Repl"
  | phpInterop => "PhpInterop"

/-- The group in words, as it is shown beside an entry. -/
def label : Group → String
  | specialForm => "Special Form"
  | controlFlow => "Control Flow"
  | macroForm => "Macro"
  | core => "Core Function"
  | predicate => "Predicate"
  | collection => "Collection Function"
  | arithmetic => "Arithmetic"
  | string => "String Function"
  | json => "JSON Function"
  | base64 => "Base64 Function"
  | html => "HTML Function"
  | http => "HTTP Function"
  | test => "Test Function"
  | debug => "Debug Function"
  | repl => "REPL Function"
  | phpInterop => "PHP Interop"

/-- Whether the names of the group are written with the alias of a namespace. -/
def isNamespaced : Group → Bool
  | string | json | base64 | html | http | test | debug | repl | phpInterop => true
  | _ => false

/-- Whether the names of the group are offered as arguments. -/
def isArgument : Group → Bool
  | core | predicate | collection | arithmetic => true
  | _ => false

end Group

/-- A name of the language. -/
structure Entry where
  group : Group
  name : String
  /-- The shape of a call, empty for values. -/
  signature : String
  summary : String
  deriving DecidableEq, Repr

/-- The entries of a group, each given by its name, its call shape and its
    summary. -/
def Group.entries (g : Group) (rows : List (String × String × String)) : List Entry :=
  rows.map fun (name, signature, summary) => ⟨g, name, signature, summary⟩

end Typeahead
