import Typeahead.Candidate.Producers
import Typeahead.Cursor.Slot
import Typeahead.Namespace.Candidates
import Typeahead.Scope.Collector
import Typeahead.Tree.Inert

/-!
# What is offered

Each slot has its families of candidates, in the order in which they are taken:
of candidates with the same key only the first is kept, so that a bound name
hides a name of the catalogue.
-/

namespace Typeahead

/-- Whether the files of the project matter in a slot. -/
def Slot.needsProject : Slot → Bool
  | .operator | .argument _ _ | .expression | .inNamespace _ => true
  | _ => false

namespace Tree

variable (t : Tree) (config : Config)

/-- The keywords of a file that are not inert, that at the cursor left out. -/
def keywordsAround (c : Cursor) : List String :=
  let isUsed := fun (l : Location) =>
    l.node.kind == .keyword && l.node.id != c.location.node.id && !t.isInert l &&
      !config.containsPlaceholder (t.chars l.node)
  (t.locations.filter isUsed).map fun l => t.text l.node

end Tree

namespace Offer

/-- The candidates for the operator of a call. -/
def asOperator (s : Scope) : List Candidate :=
  bindings s ++ literals .commonBuiltins ++
    fromCatalogue (fun g => g == .specialForm || g == .controlFlow) ++
    fromCatalogue (· == .macroForm) ++ fromCatalogue (·.isArgument) ++
    fromCatalogue (fun g => g.isNamespaced && g != .phpInterop) ++ fromCatalogue (· == .phpInterop)

/-- The candidates for an argument of a function with a given call shape. -/
def asArgument (s : Scope) (function : String) (index : Nat) (signature : Option String) :
    List Candidate :=
  bindings s ++ literals .commonBuiltins ++
    (signature.map (parameterHint function index)).getD [] ++ fromCatalogue (·.isArgument) ++
    newForm .commonBuiltins

/-- The candidates for a form that is evaluated in a call with the head `head`. -/
def asExpression (s : Scope) (head : Option Head) : List Candidate :=
  bindings s ++ literals .commonBuiltins ++
    (if head.any (·.suppressesApi) then [] else fromCatalogue (· != .specialForm)) ++
    newForm .currentScopeLocals ++ templates

/-- The candidates for a cursor, given the summaries of the files of the project
    and, for an argument, the call shape of the function. -/
def atCursor (t : Tree) (config : Config) (c : Cursor) (context : Context)
    (summaries : List Summary) (signature : Option String) : List Candidate :=
  match context.slot with
  | .newForm => newForm .currentScopeLocals ++ templates
  | .parameterVector => parameterVector
  | .parameterName closed => parameterNames closed
  | .definitionName => definitionName
  | .inNamespace clause =>
    inClause clause (context.nsText.getD []) context.typed.toList (summaries.filterMap (·.nsName))
  | .keyword namespaced => keywords namespaced (t.keywordsAround config c)
  | .operator => asOperator (t.scopeAt config c summaries)
  | .argument function index =>
    asArgument (t.scopeAt config c summaries) function index signature
  | .expression => asExpression (t.scopeAt config c summaries) context.head?

end Offer

end Typeahead
