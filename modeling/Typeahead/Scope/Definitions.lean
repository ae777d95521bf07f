import Typeahead.Project.Summary
import Typeahead.Scope.Lexical

/-!
# Defined names

The names that definitions introduce: those of the top level of the same file,
and the public ones of the other files of a project.
-/

namespace Typeahead

namespace Tree

variable (t : Tree)

/-- The name of the innermost definition around a location, unless the location
    is that name. -/
def enclosingDefinition? (l : Location) : Option String := do
  let d ← l.above.find? fun n => n.kind.isCall && (t.head? n).any (·.isDefinition)
  let name ← nameSlot? d
  if l.isWithin name then none else return t.text name

/-- The binding that the top-level form `n` introduces at a cursor; a form that
    the cursor names introduces none. -/
def siblingBinding? (cursor : Location) (n : Node) : Option Binding := do
  let h ← t.head? n
  let kind ← h.definitionKind?
  let slot ← nameSlot? n
  let name := t.text slot
  if cursor.isWithin slot then none
  else return {
    name
    kind := if t.enclosingDefinition? cursor = some name then .selfRef kind else .localDef kind
    depth := .global
    signature := t.callSignature? n name }

/-- The definitions among the first `maxForms` top-level forms. -/
def siblingBindings (maxForms : Nat) (cursor : Location) : List Binding :=
  (t.root.judgedForms.take maxForms).filterMap fun (n, off) =>
    if n.kind.isCall && !off then t.siblingBinding? cursor n else none

end Tree

/-- The bindings of the first `maxFiles` summaries, at most `maxPerFile` of each. -/
def projectBindings (maxFiles maxPerFile : Nat) (summaries : List Summary) : List Binding :=
  (summaries.take maxFiles).flatMap fun s =>
    (s.definitions.take maxPerFile).map fun d =>
      { name := d.name
        kind := .projectDef d.kind
        depth := .global
        file := some s.stem
        signature := d.signature }

end Typeahead
