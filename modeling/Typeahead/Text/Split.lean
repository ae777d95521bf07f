/-!
# Parts of a text

Searching and cutting a text by its characters: the words between separators,
a text inside another one, and a text with all occurrences of another one taken
out.
-/

namespace Typeahead

/-- The parts of `cs` between the characters in `p`, of which the first
    continues `word`, given last character first. -/
def splitFields (p : Char → Bool) (word : List Char) : List Char → List (List Char)
  | [] => [word.reverse]
  | c :: cs =>
    if p c then word.reverse :: splitFields p [] cs else splitFields p (c :: word) cs

/-- The maximal parts of `cs` free of characters in `p`, the empty ones left
    out. -/
def splitWords (p : Char → Bool) (cs : List Char) : List (List Char) :=
  (splitFields p [] cs).filter (!·.isEmpty)

/-- Whether `part` occurs in a text. -/
def containsText (part : List Char) : List Char → Bool
  | [] => part.isEmpty
  | c :: cs => part.isPrefixOf (c :: cs) || containsText part cs

/-- A text, after its first `skip` characters, without the occurrences of
    `part`, found from left to right. -/
def removeFrom (part : List Char) : (skip : Nat) → List Char → List Char
  | _, [] => []
  | skip + 1, _ :: cs => removeFrom part skip cs
  | 0, c :: cs =>
    if !part.isEmpty && part.isPrefixOf (c :: cs) then removeFrom part (part.length - 1) cs
    else c :: removeFrom part 0 cs

/-- A text without the occurrences of `part`, found from left to right. -/
def removeText (part cs : List Char) : List Char := removeFrom part 0 cs

end Typeahead
