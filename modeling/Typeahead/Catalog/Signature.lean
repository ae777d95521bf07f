import Typeahead.Text.Blank

/-!
# Call shapes

A call shape is written like a call, such as `(map f & colls)`: the name, then
the parameters, of which a vector or a map is one. The parameter after the sign
`&` takes all further arguments.
-/

namespace Typeahead

/-- The parts of a text, which blanks outside of all brackets and braces
    separate; `token` is what has been read of a part, and `depth` counts the
    brackets and braces around it. -/
def shapeParts (depth : Nat) (token : List Char) : List Char → List (List Char)
  | [] => if token.isEmpty then [] else [token]
  | c :: cs =>
    if c = '[' ∨ c = '\x7b' then shapeParts (depth + 1) (token ++ [c]) cs
    else if c = ']' ∨ c = '\x7d' then
      shapeParts (depth - 1) (if token.isEmpty then [] else token ++ [c]) cs
    else if isBlank c ∧ depth = 0 then
      if token.isEmpty then shapeParts 0 [] cs else token :: shapeParts 0 [] cs
    else shapeParts depth (token ++ [c]) cs

/-- The parameters of a call shape, up to its first closing parenthesis. -/
def signatureParameters (signature : String) : List String :=
  match trim signature.toList with
  | '(' :: cs => ((shapeParts 0 [] (cs.takeWhile (· != ')'))).drop 1).map String.ofList
  | _ => []

/-- The parameter that takes the argument with a given index. -/
def parameterAt? (signature : String) (index : Nat) : Option String :=
  let params := signatureParameters signature
  match params.findIdx? (· == "&") with
  | some rest => if rest ≤ index then params[rest + 1]? else params[index]?
  | none => params[index]?

end Typeahead
