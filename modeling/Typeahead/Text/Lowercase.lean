import Typeahead.Text.CaseTables

/-!
# Lower case

The lower case of a text, by the full rules of Unicode: a letter may have a
small form of two characters, and the small form of a capital sigma depends on
its place in the word.
-/

namespace Typeahead

/-- Whether the first character of `cs` that does not belong to any word on its
    own is a cased one. -/
def startsCased (cs : List Char) : Bool :=
  match cs.dropWhile (inRanges caseIgnorableRanges) with
  | c :: _ => inRanges casedRanges c
  | [] => false

/-- The small sigma for a capital one between the texts `before`, last
    character first, and `after`: the final form at the end of a word. -/
def smallSigma (before after : List Char) : Char :=
  if startsCased before && !startsCased after then 'ς' else 'σ'

/-- The lower case of a character other than a capital sigma. -/
def lowerChar (c : Char) : List Char :=
  if c = 'İ' then ['i', '̇']
  else
    match caseRuns.findSome? (·.lower? c.toNat) with
    | some n => [Char.ofNat n]
    | none => [c]

/-- The lower case of `cs`, which follows `before`, last character first. -/
def lowercaseAfter (before : List Char) : List Char → List Char
  | [] => []
  | c :: cs =>
    (if c = 'Σ' then [smallSigma before cs] else lowerChar c) ++ lowercaseAfter (c :: before) cs

/-- The lower case of a text. -/
def lowercase (cs : List Char) : List Char := lowercaseAfter [] cs

end Typeahead
