import Typeahead.Form.Head
import Typeahead.Tree.Marker

/-!
# Binding clauses

A binding form introduces names by *clauses*: a pattern, which binds the symbols
in it, and the offset from which on they can be used. This module finds the
clauses of a list from its head and its active forms.
-/

namespace Typeahead

/-- A pattern and the offset from which on its names are visible. -/
structure Clause where
  pattern : Node
  visibleFrom : Nat

namespace Clause

/-- The clause of a pattern that is visible from its own end on. -/
def atEnd (pattern : Node) : Clause := ⟨pattern, pattern.span.stop⟩

/-- The clauses of names and values in turn: each name is visible from the end
    of its value on. -/
def ofPairs : List Node → List Clause
  | [] => []
  | [p] => [atEnd p]
  | p :: v :: ns => ⟨p, v.span.stop⟩ :: ofPairs ns

/-- The clauses of a collection that the names before it go through. -/
def ofEach (forms : List Node) : List Clause :=
  match forms.getLast? with
  | none => []
  | some coll => forms.dropLast.map (⟨·, coll.span.stop⟩)

end Clause

namespace Tree

variable (t : Tree)

/-- The head of a list, if its first active form is a symbol that gives it a
    structure. -/
def head? (n : Node) : Option Head :=
  match n.activeForms.head? with
  | some h => if h.kind = .symbol then Head.ofName? (t.text h) else none
  | none => none

/-- The clauses that a modifier of a comprehension introduces by the form `v`
    after the keyword `k`. -/
def modifierClauses (k v : Node) : List Clause :=
  if v.kind ≠ .vector then []
  else if t.text k = ":let" then Clause.ofPairs v.activeForms
  else if t.text k = ":reduce" then
    (v.activeForms.head?.map fun acc => (⟨acc, v.span.stop⟩ : Clause)).toList
  else []

/-- The clauses of a comprehension: a pattern, a verb and an expression each,
    and modifiers of a keyword and a form in between. -/
def forClauses : List Node → List Clause
  | [] => []
  | [p] => if p.kind = .keyword then [] else [.atEnd p]
  | [p, v] => if p.kind = .keyword then t.modifierClauses p v else [⟨p, v.span.stop⟩]
  | p :: v :: e :: ns =>
    if p.kind = .keyword then t.modifierClauses p v ++ forClauses (e :: ns)
    else ⟨p, e.span.stop⟩ :: forClauses ns

end Tree

namespace Node

/-- The parameter vector of a function: the first vector after the head and
    before any call. -/
def parameterVector? (n : Node) : Option Node :=
  ((n.activeForms.drop 1).takeWhile (!·.kind.isCall)).find? (·.kind == .vector)

/-- The form after the head, if it is a vector. -/
def bindingVector? (n : Node) : Option Node :=
  n.activeForms[1]?.filter (·.kind == .vector)

end Node

namespace Tree

variable (t : Tree)

mutual

/-- The symbols that a pattern binds, those of its active parts included. The
    signs for the rest of the arguments bind nothing. -/
def boundNames : Node → List Node
  | ⟨id, kind, span, children⟩ =>
    let n : Node := ⟨id, kind, span, children⟩
    match kind with
    | .symbol => if t.text n = "&" ∨ t.text n = "..." then [] else [n]
    | .vector | .map => boundNamesAmong [] children
    | _ => []

/-- The symbols bound by the active forms among siblings that follow others of
    the kinds `before`. -/
def boundNamesAmong (before : List Kind) : List Node → List Node
  | [] => []
  | n :: ns =>
    (if n.kind.isForm && !deactivates before n.kind then boundNames n else []) ++
      boundNamesAmong (n.kind :: before) ns

end

/-- The call shape of a function named `name`, such as `(name a b)`, from the
    forms of its parameter vector. -/
def callSignature? (n : Node) (name : String) : Option String := do
  let h ← t.head? n
  let _ ← h.parameterSlot?
  let params ← n.parameterVector?
  return "(" ++ " ".intercalate (name :: params.forms.map t.text) ++ ")"

end Tree

end Typeahead
