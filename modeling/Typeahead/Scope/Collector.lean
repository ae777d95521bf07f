import Typeahead.Cursor.Basic
import Typeahead.Scope.Definitions
import Typeahead.Scope.Lexical

/-!
# Collectors

The names that can be used at a cursor come from three places: the forms around
the cursor, the other definitions of the file, and the other files of the
project. A scope takes them in the order of the collectors, so that a name found
by an earlier one hides the same name found by a later one.
-/

namespace Typeahead

/-- Where bindings are collected. -/
inductive Collector
  /-- In the forms around the cursor. -/
  | lexical
  /-- Among the definitions of the file. -/
  | sibling
  /-- Among the public definitions of the project. -/
  | project
  deriving DecidableEq, Repr

namespace Tree

variable (t : Tree) (config : Config)

/-- The bindings that a collector finds for a cursor, nearest first. -/
def collect (c : Cursor) (summaries : List Summary) : Collector → List Binding
  | .lexical => t.lexicalBindings config.maxTraversalDepth c.location c.offset
  | .sibling => t.siblingBindings config.maxSiblingDefinitions c.location
  | .project => projectBindings config.maxProjectFiles config.maxDefinitionsPerFile summaries

/-- The scope that collectors find for a cursor. -/
def resolve (c : Cursor) (summaries : List Summary) (collectors : List Collector) : Scope :=
  .ofList (some config.maxBindings) (collectors.flatMap (t.collect config c summaries))

/-- The scope at a cursor. -/
def scopeAt (c : Cursor) (summaries : List Summary) : Scope :=
  t.resolve config c summaries [.lexical, .sibling, .project]

end Tree

end Typeahead
