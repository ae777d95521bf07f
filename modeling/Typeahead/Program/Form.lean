/-!
# Programs

Phel programs as data, and how they are written. Forms are written with single
spaces between them and no space after a delimiter that opens or before one that
closes; only the space in front of a body is always there.
-/

namespace Typeahead

/-- A form. -/
inductive Form
  | symbol (name : String)
  | keyword (name : String)
  | int (value : Int)
  | str (text : String)
  | nil
  | bool (value : Bool)
  | list (items : List Form)
  | vector (items : List Form)
  | map (entries : List (Form × Form))
  | set (items : List Form)
  | shortFn (items : List Form)
  | quoted (form : Form)
  /-- A form that a marker deactivates. -/
  | discard (form : Form)
  | fnDef (name : String) (params : List String) (body : List Form)
  | letIn (bindings : List (String × Form)) (body : List Form)
  | lambda (params : List String) (body : List Form)
  | loopIn (bindings : List (String × Form)) (body : List Form)
  deriving Repr

/-- Names with single spaces between them. -/
def joinNames (names : List String) : List Char := (" ".intercalate names).toList

namespace Form

mutual

/-- The text of a form. -/
def render : Form → List Char
  | symbol name => name.toList
  | keyword name => ':' :: name.toList
  | int value => (toString value).toList
  | str text => '"' :: text.toList ++ ['"']
  | nil => "nil".toList
  | bool value => if value then "true".toList else "false".toList
  | list items => '(' :: renderAll items ++ [')']
  | vector items => '[' :: renderAll items ++ [']']
  | map entries => '\x7b' :: renderEntries entries ++ ['\x7d']
  | set items => '#' :: '\x7b' :: renderAll items ++ ['\x7d']
  | shortFn items => '|' :: '(' :: renderAll items ++ [')']
  | quoted form => '\'' :: render form
  | discard form => '#' :: '_' :: render form
  | fnDef name params body =>
    "(defn ".toList ++ name.toList ++ " [".toList ++ joinNames params ++ "] ".toList ++
      renderAll body ++ [')']
  | letIn bindings body =>
    "(let [".toList ++ renderBindings bindings ++ "] ".toList ++ renderAll body ++ [')']
  | lambda params body =>
    "(fn [".toList ++ joinNames params ++ "] ".toList ++ renderAll body ++ [')']
  | loopIn bindings body =>
    "(loop [".toList ++ renderBindings bindings ++ "] ".toList ++ renderAll body ++ [')']

/-- The texts of forms with single spaces between them. -/
def renderAll : List Form → List Char
  | [] => []
  | [f] => render f
  | f :: fs => render f ++ ' ' :: renderAll fs

/-- The texts of keys and values with single spaces between them. -/
def renderEntries : List (Form × Form) → List Char
  | [] => []
  | [(k, v)] => render k ++ ' ' :: render v
  | (k, v) :: es => render k ++ ' ' :: render v ++ ' ' :: renderEntries es

/-- The texts of names and values with single spaces between them. -/
def renderBindings : List (String × Form) → List Char
  | [] => []
  | [(name, v)] => name.toList ++ ' ' :: render v
  | (name, v) :: bs => name.toList ++ ' ' :: render v ++ ' ' :: renderBindings bs

end

end Form

/-- A namespace declaration and the forms after it. -/
structure Program where
  nsName : String
  forms : List Form
  deriving Repr

/-- The text of a program, one form a line. -/
def Program.render (p : Program) : List Char :=
  "(ns ".toList ++ p.nsName.toList ++ ")\n".toList ++
    p.forms.flatMap fun f => f.render ++ ['\n']

end Typeahead
