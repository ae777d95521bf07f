/-!
# Heads

The symbols that give the list they head a structure of its own: where it names
a definition, where it declares parameters or bindings, and where its body
starts. Ordinals count the forms of the list, the head being 0.
-/

namespace Typeahead

/-- What a definition defines. -/
inductive DefKind
  | function
  | macroFunction
  | value
  /-- A struct, an exception or an interface. -/
  | record
  deriving DecidableEq, Repr

/-- The name of a kind of definition. -/
def DefKind.label : DefKind → String
  | function => "Function"
  | macroFunction => "Macro"
  | value => "Variable"
  | record => "Struct"

/-- A head symbol with a structure of its own. -/
inductive Head
  | ns
  | varDef
  | varDefPrivate
  | fnDef
  | fnDefPrivate
  | macroDef
  | macroDefPrivate
  | structDef
  | exceptionDef
  | interfaceDef
  | testDef
  | lambda
  | letIn
  | loopIn
  | forIn
  | doFor
  | forEach
  | bindingIn
  | ifLet
  | whenLet
  | ifThen
  | ifNot
  | whenThen
  | whenNot
  | doAll
  | caseOf
  | cond
  | tryAll
  | catchIn
  | finallyAll
  | withOutputBuffer
  deriving DecidableEq, Repr

namespace Head

/-- The symbol of a head. -/
def name : Head → String
  | ns => "ns"
  | varDef => "def"
  | varDefPrivate => "def-"
  | fnDef => "defn"
  | fnDefPrivate => "defn-"
  | macroDef => "defmacro"
  | macroDefPrivate => "defmacro-"
  | structDef => "defstruct"
  | exceptionDef => "defexception"
  | interfaceDef => "definterface"
  | testDef => "deftest"
  | lambda => "fn"
  | letIn => "let"
  | loopIn => "loop"
  | forIn => "for"
  | doFor => "dofor"
  | forEach => "foreach"
  | bindingIn => "binding"
  | ifLet => "if-let"
  | whenLet => "when-let"
  | ifThen => "if"
  | ifNot => "if-not"
  | whenThen => "when"
  | whenNot => "when-not"
  | doAll => "do"
  | caseOf => "case"
  | cond => "cond"
  | tryAll => "try"
  | catchIn => "catch"
  | finallyAll => "finally"
  | withOutputBuffer => "with-output-buffer"

/-- All heads. -/
def all : List Head :=
  [ns, varDef, varDefPrivate, fnDef, fnDefPrivate, macroDef, macroDefPrivate, structDef,
   exceptionDef, interfaceDef, testDef, lambda, letIn, loopIn, forIn, doFor, forEach, bindingIn,
   ifLet, whenLet, ifThen, ifNot, whenThen, whenNot, doAll, caseOf, cond, tryAll, catchIn,
   finallyAll, withOutputBuffer]

/-- The head with a given symbol. -/
def ofName? (s : String) : Option Head := all.find? (·.name == s)

/-- The ordinal of the parameter vector. -/
def parameterSlot? : Head → Option Nat
  | lambda => some 1
  | fnDef | fnDefPrivate | macroDef | macroDefPrivate => some 2
  | _ => none

/-- Whether the list is a function or a macro, whose body is a scope of its
    own. -/
def isScopeRoot : Head → Bool
  | fnDef | fnDefPrivate | macroDef | macroDefPrivate | lambda => true
  | _ => false

/-- Whether names and values alternate in the binding vector. -/
def alternates : Head → Bool
  | letIn | loopIn | forIn | bindingIn => true
  | _ => false

/-- What the list defines, if it is a definition. Its name has the ordinal 1. -/
def definitionKind? : Head → Option DefKind
  | varDef | varDefPrivate => some .value
  | fnDef | fnDefPrivate => some .function
  | macroDef | macroDefPrivate => some .macroFunction
  | structDef | exceptionDef | interfaceDef => some .record
  | _ => none

/-- Whether the list is a definition. -/
def isDefinition (h : Head) : Bool := h.definitionKind?.isSome

/-- Whether the definition can be used from other files. -/
def isPublic : Head → Bool
  | varDef | fnDef | macroDef | structDef => true
  | _ => false

/-- The ordinal from which on the forms of the list are evaluated; without one,
    they are arguments. -/
def bodyOffset? : Head → Option Nat
  | varDef | varDefPrivate | structDef | fnDef | fnDefPrivate | macroDef | macroDefPrivate => some 3
  | testDef | letIn | whenLet | ifLet | bindingIn | lambda | loopIn | forIn | doFor | forEach
  | interfaceDef => some 2
  | ifThen | ifNot | whenThen | whenNot | doAll | caseOf | cond | tryAll
  | withOutputBuffer => some 1
  | ns | exceptionDef | catchIn | finallyAll => none

/-- Whether library functions are held back directly inside the list, because
    its first forms declare names. -/
def suppressesApi : Head → Bool
  | fnDef | fnDefPrivate | macroDef | macroDefPrivate | letIn | loopIn | bindingIn | lambda
  | ifLet | whenLet => true
  | _ => false

end Head

end Typeahead
