import Typeahead.Catalog.Basic
import Typeahead.Scope.Binding

/-!
# Priorities

Candidates are ordered by tiers: what is close to the cursor comes before what
the language offers, and what programs use often before what they use rarely.
The tier of a name follows from how it is bound, or else from its spelling. In
the arguments of certain functions, names that fit there move up to a tier of
their own.
-/

namespace Typeahead

/-- The tiers of candidates, best first. -/
inductive Priority
  /-- Names bound in the innermost function. -/
  | currentScopeLocals
  /-- Names bound further outside. -/
  | nestedScopeLocals
  /-- The definition that the cursor is in. -/
  | currentFunctionRecursive
  /-- Definitions of the same file. -/
  | recentDefinitions
  /-- Questions, where a function asks for one. -/
  | contextPredicates
  /-- Functions that are applied to the elements of a collection. -/
  | contextCollections
  /-- Functions on numbers, among numbers. -/
  | contextNumeric
  | commonBuiltins
  | specialForms
  | controlFlow
  | apiFunctions
  | collectionFunctions
  | stringFunctions
  /-- Definitions of other files of the project. -/
  | projectSymbols
  /-- Functions that are written with the alias of a namespace. -/
  | namespaceFunctions
  | macroForms
  | phpInterop
  deriving DecidableEq, Repr

namespace Priority

/-- All tiers, best first. -/
def all : List Priority :=
  [currentScopeLocals, nestedScopeLocals, currentFunctionRecursive, recentDefinitions,
   contextPredicates, contextCollections, contextNumeric, commonBuiltins, specialForms,
   controlFlow, apiFunctions, collectionFunctions, stringFunctions, projectSymbols,
   namespaceFunctions, macroForms, phpInterop]

/-- The number of a tier; a better tier has a smaller number. -/
def rank : Priority → Nat
  | currentScopeLocals => 0
  | nestedScopeLocals => 1
  | currentFunctionRecursive => 2
  | recentDefinitions => 3
  | contextPredicates => 4
  | contextCollections => 5
  | contextNumeric => 6
  | commonBuiltins => 7
  | specialForms => 8
  | controlFlow => 9
  | apiFunctions => 10
  | collectionFunctions => 11
  | stringFunctions => 12
  | projectSymbols => 13
  | namespaceFunctions => 14
  | macroForms => 15
  | phpInterop => 16

/-- The name of a tier. -/
def label : Priority → String
  | currentScopeLocals => "CurrentScopeLocals"
  | nestedScopeLocals => "NestedScopeLocals"
  | currentFunctionRecursive => "CurrentFunctionRecursive"
  | recentDefinitions => "RecentDefinitions"
  | contextPredicates => "ContextPredicates"
  | contextCollections => "ContextCollections"
  | contextNumeric => "ContextNumeric"
  | commonBuiltins => "CommonBuiltins"
  | specialForms => "SpecialForms"
  | controlFlow => "ControlFlow"
  | apiFunctions => "ApiFunctions"
  | collectionFunctions => "CollectionFunctions"
  | stringFunctions => "StringFunctions"
  | projectSymbols => "ProjectSymbols"
  | namespaceFunctions => "NamespaceFunctions"
  | macroForms => "Macros"
  | phpInterop => "PhpInterop"

/-- Tiers are compared by their numbers. -/
instance : LE Priority := ⟨fun p q => p.rank ≤ q.rank⟩

instance (p q : Priority) : Decidable (p ≤ q) := inferInstanceAs (Decidable (p.rank ≤ q.rank))

/-- The better of two tiers. -/
def better (p q : Priority) : Priority := if p ≤ q then p else q

/-- The names that most programs use. -/
def commonNames : List String :=
  ["map", "filter", "reduce", "get", "put", "count", "first", "rest", "+", "-", "*", "/", "=", "<",
   ">", "<=", ">=", "str", "print", "println", "nil?", "empty?", "some", "cons", "conj"]

/-- The names of the special forms that have a tier of their own. -/
def specialNames : List String :=
  ["def", "defn", "defn-", "defmacro", "defmacro-", "defstruct", "let", "fn", "quote", "var", "ns"]

/-- The names of the forms that choose, repeat or leave. -/
def controlNames : List String :=
  ["if", "when", "when-not", "when-let", "if-let", "cond", "case", "do", "loop", "recur", "try",
   "catch", "finally", "throw"]

/-- The names of functions on collections. -/
def collectionNames : List String :=
  ["conj", "cons", "concat", "reverse", "sort", "sort-by", "group-by", "partition", "take", "drop",
   "take-while", "drop-while", "take-last", "take-nth", "assoc", "dissoc", "keys", "values",
   "merge", "select-keys", "zipmap", "zipcoll", "shuffle", "frequencies", "invert", "split-at",
   "split-with", "partition-by"]

/-- The names of functions on strings. -/
def stringNames : List String :=
  ["str", "subs", "format", "split", "join", "trim", "replace", "name", "namespace", "full-name",
   "print-str"]

/-- The tier of a name by its spelling. -/
def ofName (name : String) : Priority :=
  if "php/".toList.isPrefixOf name.toList then phpInterop
  else if commonNames.contains name then commonBuiltins
  else if specialNames.contains name then specialForms
  else if controlNames.contains name then controlFlow
  else if name.toList.getLast? == some '?' then apiFunctions
  else if collectionNames.contains name then collectionFunctions
  else if "str/".toList.isPrefixOf name.toList || stringNames.contains name then stringFunctions
  else if name.toList.contains '/' && name != "/" then namespaceFunctions
  else apiFunctions

/-- The tier of an entry of the catalogue: that of its name, except that macros
    with nothing special about their names come late. -/
def ofEntry (e : Entry) : Priority :=
  let p := ofName e.name
  if e.group = .macroForm ∧ p = apiFunctions then macroForms else p

/-- The tier of a name that is bound at the cursor. -/
def ofBinding (b : Binding) : Priority :=
  match b.kind with
  | .parameter | .letBinding | .loopBinding | .forBinding =>
    if b.depth = .within 0 then currentScopeLocals else nestedScopeLocals
  | .catchBinding | .ifLetBinding | .whenLetBinding => nestedScopeLocals
  | .selfRef _ => currentFunctionRecursive
  | .localDef _ => recentDefinitions
  | .projectDef _ => projectSymbols

/-- The functions whose arguments prefer certain names: those functions, the
    names, and the tier that the names move up to. -/
def contexts : List (List String × List String × Priority) :=
  [(["filter", "remove", "every?", "some"],
    ["nil?", "empty?", "even?", "odd?", "pos?", "neg?", "zero?", "true?", "false?", "some?",
     "every?", "string?", "number?"],
    contextPredicates),
   (["map", "reduce", "apply"],
    ["inc", "dec", "str", "count", "first", "rest", "get", "identity"],
    contextCollections),
   (["+", "-", "*", "/"],
    ["inc", "dec", "abs", "max", "min", "mod", "quot", "rem"],
    contextNumeric)]

/-- The tier that a name moves up to in the arguments of the function `called`. -/
def inContext? (called : Option String) (name : String) : Option Priority := do
  let (_, names, tier) ← contexts.find? fun (heads, _, _) => called.any heads.contains
  if names.contains name then return tier else none

/-- The tier of a name in the arguments of the function `called`. -/
def adjust (called : Option String) (name : String) (p : Priority) : Priority :=
  match inContext? called name with
  | some tier => p.better tier
  | none => p

end Priority

end Typeahead
