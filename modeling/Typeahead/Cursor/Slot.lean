import Typeahead.Cursor.Basic
import Typeahead.Form.Clause
import Typeahead.Namespace.Clause

/-!
# Slots

What may be typed at a cursor depends on the slot it is in, and the slot only on
the nodes around the cursor. The rules are tried from the narrowest slot, where
one word is possible, to the widest: a keyword, the start of a form at the top
level, the place of a parameter vector, the inside of a parameter or binding
vector, the name of a definition, a namespace declaration, and last the
operator, an argument or the body of the nearest call.
-/

namespace Typeahead

/-- The role of what is typed at a cursor. -/
inductive Slot
  /-- A new form at the top level. -/
  | newForm
  /-- The operator of a call. -/
  | operator
  /-- An argument of a call, counted from 0. -/
  | argument (function : String) (index : Nat)
  /-- A form that is evaluated. -/
  | expression
  /-- The place where the parameter vector has to start. -/
  | parameterVector
  /-- A name in a parameter or binding vector; `closed` if the vector has its
      closing delimiter. -/
  | parameterName (closed : Bool)
  /-- The name of a new definition. -/
  | definitionName
  /-- A part of a namespace declaration. -/
  | inNamespace (clause : NsClause)
  /-- A keyword; `namespaced` if it starts with two colons. -/
  | keyword (namespaced : Bool)
  deriving DecidableEq, Repr

namespace Cursor

/-- The nodes around a cursor, innermost first, its own node being one if other
    nodes can be in it. -/
def around (c : Cursor) (maxDepth : Nat) : List Location :=
  let l := c.location
  let chain :=
    if l.node.kind.isCollection || l.node.kind == .root then l.selfAndAncestors else l.ancestors
  chain.take maxDepth

/-- The calls around a cursor, innermost first. -/
def calls (c : Cursor) (maxDepth : Nat) : List Node :=
  ((c.around maxDepth).map (·.node)).filter (·.kind.isCall)

/-- The slot of a keyword. -/
def keywordSlot? (c : Cursor) : Option Slot :=
  if c.location.node.kind = .keyword then
    some (.keyword ([':', ':'].isPrefixOf c.typed.toList))
  else none

/-- The slot outside of all calls. -/
def newFormSlot? (c : Cursor) (maxDepth : Nat) : Option Slot :=
  if (c.calls maxDepth).isEmpty && c.typed.isEmpty then some .newForm else none

/-- Whether the cursor is at a value of the binding vector `v` of a list with
    the head `h`. -/
def isAtValue (c : Cursor) (h : Head) (v : Node) : Bool :=
  let slot := c.ordinal v
  h.alternates &&
    if h = .forIn then 0 < slot && v.activeForms[slot - 1]?.any (·.kind == .keyword)
    else slot % 2 == 1

end Cursor

namespace Tree

variable (t : Tree) (config : Config)

/-- The text of a namespace declaration that is looked at for a cursor at
    `offset`: all of it up to the cursor if it has at most `window` bytes, else
    half as many bytes before the cursor. -/
def namespaceWindow (ns : Node) (offset window : Nat) : List Char :=
  let stop := min offset t.length
  let start := if byteLength (t.chars ns) ≤ window then ns.span.start else offset - window / 2
  slice t.source (floorBoundary t.source (min start stop)) stop

/-- The nearest call around a cursor that is a namespace declaration. -/
def namespaceAround? (c : Cursor) : Option Node :=
  (c.calls config.maxTraversalDepth).find? fun n => t.head? n == some .ns

/-- The nearest call around the cursor that takes parameters, and the slot of
    its parameter vector. -/
def functionAround? (c : Cursor) : Option (Node × Nat) :=
  (c.calls config.maxTraversalDepth).findSome? fun n =>
    ((t.head? n).bind (·.parameterSlot?)).map (n, ·)

/-- The slot of a parameter vector that is not there yet. -/
def parameterVectorSlot? (c : Cursor) : Option Slot := do
  let (n, slot) ← t.functionAround? config c
  if c.ordinal n = slot && n.activeForms[slot]?.all (·.id == c.location.node.id) then
    return .parameterVector
  else none

/-- Whether `v`, a child of the list at `l`, is where the list binds names. -/
def isBindingVector (l : Location) (v : Node) : Bool :=
  let isArity :=
    l.node.activeForms.head?.any (·.id == v.id) &&
      l.above.head?.any fun p =>
        p.kind == .list && ((t.head? p).bind (·.parameterSlot?)).isSome
  let isOwn :=
    match t.head? l.node with
    | none => false
    | some h =>
      if h.parameterSlot?.isSome then l.node.parameterVector?.any (·.id == v.id)
      else h.alternates && l.node.bindingVector?.any (·.id == v.id)
  isOwn || isArity

/-- The slot inside a binding vector, however deep in the patterns there. -/
def bindingSlot? (c : Cursor) : Option Slot := do
  let patterns := (c.around config.maxTraversalDepth).takeWhile fun l =>
    l.node.kind == .vector || l.node.kind == .map
  let outermost ← patterns.getLast?
  let v := outermost.node
  let list ← outermost.parent?
  if v.kind ≠ .vector || list.node.kind ≠ .list ||
      config.maxVectorText < byteLength (t.chars v) || !t.isBindingVector list v then none
  else if (t.head? list.node).any (c.isAtValue · v) then return .expression
  else
    let innermost := (patterns.find? (·.node.kind == .vector)).getD outermost
    return .parameterName innermost.node.isClosed

/-- The slot of the name of a definition. -/
def definitionSlot? (c : Cursor) : Option Slot := do
  let n ← (c.calls config.maxTraversalDepth).head?
  if (t.head? n).any (·.isDefinition) && c.ordinal n == 1 then return .definitionName else none

/-- The slot inside a namespace declaration. -/
def namespaceSlot? (c : Cursor) : Option Slot := do
  let ns ← t.namespaceAround? config c
  match c.ordinal ns with
  | 0 => none
  | 1 => return .inNamespace .name
  | _ => return .inNamespace (clauseAt (t.namespaceWindow ns c.offset config.namespaceWindow))

/-- The name that a call calls, as far as it is typed. -/
def calledName (h : Node) : String := String.ofList (config.stripPlaceholder (t.chars h))

/-- The slot that the first of the given calls with a meaning of its own gives to
    the cursor. -/
def callSlot? (c : Cursor) : List Node → Option Slot
  | [] => none
  | n :: ns =>
    match c.ordinal n, n.activeForms.head? with
    | 0, _ => some .operator
    | _ + 1, none => callSlot? c ns
    | i + 1, some h =>
      match h.kind with
      | .symbol =>
        let function := t.calledName config h
        if ((Head.ofName? function).bind (·.bodyOffset?)).any (· ≤ i + 1) then some .expression
        else some (.argument function i)
      | .vector => some .expression
      | _ => callSlot? c ns

/-- The slot of a cursor. -/
def slot (c : Cursor) : Slot :=
  let rules :=
    [c.keywordSlot?, c.newFormSlot? config.maxTraversalDepth, t.parameterVectorSlot? config c,
     t.bindingSlot? config c, t.definitionSlot? config c, t.namespaceSlot? config c,
     t.callSlot? config c (c.calls config.maxTraversalDepth)]
  (rules.findSome? id).getD .expression

/-- The name called by the nearest call that the cursor is an argument of. -/
def calledAround? (c : Cursor) : Option String := do
  let n ← (c.calls config.maxTraversalDepth).find? (0 < c.ordinal ·)
  let h ← n.activeForms.head?
  if h.kind = .symbol then return t.calledName config h else none

end Tree

/-- What is known about a cursor. -/
structure Context where
  slot : Slot
  /-- The name called by the call around the cursor. -/
  called : Option String
  typed : String
  /-- The text of the namespace declaration before the cursor. -/
  nsText : Option (List Char)

namespace Context

variable (t : Tree) (config : Config)

/-- The text of the namespace declaration that matters in a slot. -/
def nsText? (c : Cursor) : Slot → Option (List Char)
  | .inNamespace .name => none
  | .inNamespace _ =>
    (t.namespaceAround? config c).map (t.namespaceWindow · c.offset config.namespaceWindow)
  | _ => none

/-- What is known about a cursor from the nodes around it. -/
def ofCursor (c : Cursor) : Context :=
  let slot := t.slot config c
  ⟨slot, t.calledAround? config c, c.typed, nsText? t config c slot⟩

/-- The head that the call around the cursor has. -/
def head? (c : Context) : Option Head := c.called.bind Head.ofName?

end Context

end Typeahead
