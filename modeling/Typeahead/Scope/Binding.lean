import Typeahead.Form.Head

/-!
# Bindings and scopes

A binding is a name that can be used at a cursor. A scope holds bindings in the
order in which they were found. It keeps the first binding of every name, so
that bindings found earlier shadow later ones, and at most as many bindings as
its limit allows.
-/

namespace Typeahead

/-- How a name was introduced. -/
inductive BindingKind
  | parameter
  | letBinding
  | loopBinding
  | forBinding
  | catchBinding
  | ifLetBinding
  | whenLetBinding
  /-- A definition of the same file. -/
  | localDef (kind : DefKind)
  /-- The definition that the cursor is in. -/
  | selfRef (kind : DefKind)
  /-- A public definition of another file of the project. -/
  | projectDef (kind : DefKind)
  deriving DecidableEq, Repr

namespace BindingKind

/-- The kind in words. -/
def label : BindingKind → String
  | parameter => "Parameter"
  | letBinding => "Let Binding"
  | loopBinding => "Loop Binding"
  | forBinding => "For Binding"
  | catchBinding => "Catch Binding"
  | ifLetBinding => "If-Let Binding"
  | whenLetBinding => "When-Let Binding"
  | localDef k => "Local " ++ k.label
  | selfRef k => "Recursive " ++ k.label
  | projectDef k => "Public " ++ k.label

/-- Whether the name is introduced inside a function rather than by a
    definition. -/
def isLocal : BindingKind → Bool
  | localDef _ | selfRef _ | projectDef _ => false
  | _ => true

end BindingKind

/-- How far outside a binding is introduced. -/
inductive Depth
  /-- So many functions lie between the cursor and the binding form. -/
  | within (functions : Nat)
  /-- By a definition of the file or the project. -/
  | global
  deriving DecidableEq, Repr

/-- A name that can be used at a cursor. -/
structure Binding where
  name : String
  kind : BindingKind
  depth : Depth
  /-- The file that defines the name, if it is another one. -/
  file : Option String := none
  /-- The shape of a call, such as `(name a b)`. -/
  signature : Option String := none
  deriving DecidableEq, Repr

/-- The hint shown with a binding: its kind and the file it comes from. -/
def Binding.hint (b : Binding) : String :=
  match b.file with
  | some f => b.kind.label ++ " (" ++ f ++ ")"
  | none => b.kind.label

/-- The bindings visible at a cursor, in the order in which they were found. -/
structure Scope where
  bindings : List Binding
  /-- The greatest number of bindings, if there is one. -/
  limit : Option Nat

namespace Scope

/-- The scope without bindings. -/
def empty (limit : Option Nat) : Scope := ⟨[], limit⟩

/-- Whether no further binding fits in. -/
def isFull (s : Scope) : Bool := s.limit.any (· ≤ s.bindings.length)

/-- Whether a name is bound. -/
def contains (s : Scope) (name : String) : Bool := s.bindings.any (·.name == name)

/-- The binding of a name. -/
def get? (s : Scope) (name : String) : Option Binding := s.bindings.find? (·.name == name)

/-- Whether the scope takes a binding: it is not full, and does not bind the name
    yet. -/
def admits (s : Scope) (b : Binding) : Bool := !s.isFull && !s.contains b.name

/-- Adds a binding, if the scope takes it. -/
def insert (s : Scope) (b : Binding) : Scope :=
  if s.admits b then { s with bindings := s.bindings ++ [b] } else s

/-- The scope of a sequence of bindings, earlier ones shadowing later ones. -/
def ofList (limit : Option Nat) (bs : List Binding) : Scope := bs.foldl insert (empty limit)

end Scope

end Typeahead
