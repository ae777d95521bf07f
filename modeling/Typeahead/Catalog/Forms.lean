import Typeahead.Catalog.Basic

/-!
# Forms of the catalogue

The names that a form can start with and that are no functions: special forms,
control flow and macros.
-/

namespace Typeahead.Catalog

/-- The special forms. -/
def specialForms : List Entry :=
  Group.entries .specialForm
    [("def", "(def name meta? value)", "Bind a value to a global name."),
     ("def-", "(def- name value)", "Bind a value to a namespace-private global name."),
     ("defn", "(defn name & fdecl)", "Define a named global function."),
     ("defn-", "(defn- name & fdecl)", "Define a function visible only inside its namespace."),
     ("defmacro", "(defmacro name & fdecl)", "Define a macro."),
     ("defmacro-", "(defmacro- name & fdecl)", "Define a macro visible only inside its namespace."),
     ("defstruct", "(defstruct name keys & implementations)",
      "Define a struct type with the given fields."),
     ("defexception", "(defexception name)", "Define a new exception type."),
     ("definterface", "(definterface name & fns)",
      "Define an interface with the given function signatures."),
     ("fn", "(fn [params*] expr*)", "Create an anonymous function."),
     ("let", "(let [bindings*] expr*)", "Evaluate the body with local names bound."),
     ("ns", "(ns name imports*)", "Declare the namespace of the file and its imports."),
     ("quote", "(quote form)", "Return the form unevaluated."),
     ("unquote", "(unquote form)", "Evaluate a form inside a quasiquote."),
     ("var", "(var value)", "Create a mutable variable holding a value."),
     ("macroexpand", "(macroexpand form)", "Expand the macro at the head of a form repeatedly."),
     ("macroexpand-1", "(macroexpand-1 form)", "Expand the macro at the head of a form once.")]

/-- The forms that choose, repeat or leave. -/
def controlFlowForms : List Entry :=
  Group.entries .controlFlow
    [("if", "(if test then else?)", "Evaluate `then` when `test` is truthy, else `else`."),
     ("if-not", "(if-not test then & [else])", "Evaluate `then` when `test` is falsy."),
     ("if-let", "(if-let bindings then & [else])", "Bind a value and branch on its truthiness."),
     ("when", "(when test & body)", "Evaluate the body when `test` is truthy."),
     ("when-not", "(when-not test & body)", "Evaluate the body when `test` is falsy."),
     ("when-let", "(when-let bindings & body)",
      "Bind a value and evaluate the body when it is truthy."),
     ("cond", "(cond & pairs)", "Evaluate test/expression pairs until a test is truthy."),
     ("case", "(case e & pairs)", "Select a branch by comparing a value against constants."),
     ("do", "(do expr*)", "Evaluate expressions in order and return the last."),
     ("loop", "(loop [bindings*] expr*)", "Establish a recursion point with initial bindings."),
     ("recur", "(recur expr*)", "Jump back to the nearest loop or function with new values."),
     ("for", "(for head & body)", "List comprehension over one or more collections."),
     ("dofor", "(dofor head & body)", "Iterate like `for` for side effects, returning nil."),
     ("foreach", "(foreach [key value valueExpr] expr*)",
      "Iterate over a PHP-style collection for side effects."),
     ("try", "(try expr* catch-clause* finally-clause?)",
      "Evaluate expressions and handle thrown exceptions."),
     ("catch", "(catch exception-type exception-name expr*)",
      "Handle exceptions of the given type inside `try`."),
     ("finally", "(finally expr*)", "Expressions always evaluated when a `try` exits."),
     ("throw", "(throw exception)", "Throw an exception.")]

/-- The macros of the core. -/
def macroForms : List Entry :=
  Group.entries .macroForm
    [("->", "(-> x & forms)", "Thread a value through forms as their first argument."),
     ("->>", "(->> x & forms)", "Thread a value through forms as their last argument."),
     ("as->", "(as-> expr name & forms)", "Thread a value through forms under a chosen name."),
     ("some->", "(some-> x & forms)", "Like `->`, stopping at the first nil."),
     ("some->>", "(some->> x & forms)", "Like `->>`, stopping at the first nil."),
     ("and", "(and & args)", "Return the first falsy argument, or the last one."),
     ("or", "(or & args)", "Return the first truthy argument, or the last one."),
     ("binding", "(binding bindings & body)",
      "Temporarily rebind global definitions for the body."),
     ("comment", "(comment & body)", "Ignore the body and return nil."),
     ("declare", "(declare name)", "Declare a global name before it is defined."),
     ("doto", "(doto x & forms)", "Call forms on a value for side effects and return it."),
     ("time", "(time expr)", "Evaluate an expression and print the time it took."),
     ("memoize", "(memoize f)", "Wrap a function so results are cached per argument list."),
     ("juxt", "(juxt & fs)", "Build a function returning a vector of every function's result."),
     ("*ns*", "", "The namespace of the current scope."),
     ("*file*", "", "Path of the current source file.")]

end Typeahead.Catalog
