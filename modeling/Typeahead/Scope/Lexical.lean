import Typeahead.Form.Clause
import Typeahead.Scope.Binding
import Typeahead.Tree.Inert

/-!
# Local names

The names that the binding forms around a cursor introduce. Only the lists that
enclose the cursor are looked at, from the inside out, so that a name found
first shadows the same name further outside. A list inside inert code binds
nothing.
-/

namespace Typeahead

namespace Tree

variable (t : Tree)

/-- Whether the parent of a location is a function or a macro, of which the
    location may be one of several arities. -/
def isInFunction (l : Location) : Bool :=
  l.above.head?.any fun p => (t.head? p).any (·.parameterSlot?.isSome)

/-- The kind of the names bound by a list with a given head, and their
    clauses. -/
def headClauses (n : Node) : Head → List (BindingKind × Clause)
  | .lambda | .fnDef | .fnDefPrivate | .macroDef | .macroDefPrivate =>
    (n.parameterVector?.map fun ps => (.parameter, .atEnd ps)).toList
  | .letIn | .bindingIn => vectorClauses .letBinding Clause.ofPairs
  | .loopIn => vectorClauses .loopBinding Clause.ofPairs
  | .forIn | .doFor => vectorClauses .forBinding t.forClauses
  | .forEach => vectorClauses .forBinding Clause.ofEach
  | .ifLet => vectorClauses .ifLetBinding fun forms => (Clause.ofPairs forms).take 1
  | .whenLet => vectorClauses .whenLetBinding fun forms => (Clause.ofPairs forms).take 1
  | .catchIn => (n.activeForms[2]?.map fun name => (.catchBinding, .atEnd name)).toList
  | _ => []
where
  /-- The clauses that `clauses` finds among the active forms of the binding
      vector. -/
  vectorClauses (kind : BindingKind) (clauses : List Node → List Clause) :
      List (BindingKind × Clause) :=
    match n.bindingVector? with
    | some v => (clauses v.activeForms).map (kind, ·)
    | none => []

/-- The clauses of a list. One that starts with a vector is an arity of the
    function around it, and binds nothing elsewhere. -/
def clausesAt (l : Location) : List (BindingKind × Clause) :=
  match l.node.activeForms.head? with
  | none => []
  | some first =>
    if first.kind = .vector then
      if t.isInFunction l then [(.parameter, .atEnd first)] else []
    else ((t.head? l.node).map (t.headClauses l.node)).getD []

/-- The bindings that the list at `l` makes visible to a cursor at `offset`. A
    pattern that holds the cursor does not bind it. -/
def bindingsAt (cursor : Location) (offset depth : Nat) (l : Location) : List Binding :=
  (t.clausesAt l).flatMap fun (kind, clause) =>
    if offset < clause.visibleFrom || cursor.isWithin clause.pattern then []
    else
      ((t.boundNames clause.pattern).filter (·.span.stop ≤ offset)).map fun name =>
        { name := t.text name, kind, depth := .within depth }

/-- The bindings that the nodes at the given locations make visible, from the
    inside out, `depth` functions being passed already. -/
def bindingsAlong (cursor : Location) (offset : Nat) : (depth : Nat) → List Location → List Binding
  | _, [] => []
  | depth, l :: ls =>
    if !l.node.kind.isCall || t.isInert l then bindingsAlong cursor offset depth ls
    else
      t.bindingsAt cursor offset depth l ++
        bindingsAlong cursor offset
          (if (t.head? l.node).any (·.isScopeRoot) then depth + 1 else depth) ls

/-- The local names visible to a cursor at `offset`, from the `maxDepth` nodes
    around it. -/
def lexicalBindings (maxDepth : Nat) (cursor : Location) (offset : Nat) : List Binding :=
  t.bindingsAlong cursor offset 0 (cursor.ancestors.take maxDepth)

end Tree

end Typeahead
