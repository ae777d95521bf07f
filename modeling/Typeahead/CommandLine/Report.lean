/-!
# Reports of failures

A failure is reported with its causes, from what was tried to what went wrong.
Causes are numbered if there are several, and the lines of a cause after its
first are indented.
-/

namespace Typeahead

/-- What was tried, and why it failed. -/
structure Failure where
  message : String
  causes : List String := []
  deriving DecidableEq, Repr

namespace Failure

/-- The text of a cause after the text in front of it, its further lines being
    indented. -/
def indent (front : String) (margin : Nat) (cause : String) : String :=
  let margin := String.ofList (List.replicate margin ' ')
  front ++ ("\n" ++ margin).intercalate (cause.splitOn "\n") ++ "\n"

/-- The text of a failure. -/
def render (f : Failure) : String :=
  let causes :=
    match f.causes with
    | [] => ""
    | [cause] => "\nCaused by:\n" ++ indent "    " 4 cause
    | causes =>
      "\nCaused by:\n" ++
        String.join (causes.mapIdx fun i cause => indent ("    " ++ toString i ++ ": ") 7 cause)
  "Error: " ++ f.message ++ "\n" ++ causes

end Failure

end Typeahead
