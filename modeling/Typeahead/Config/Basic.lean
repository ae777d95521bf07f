import Typeahead.Text.Blank
import Typeahead.Text.Split

/-!
# Settings

Every walk over a tree or a project is bounded by a limit of the settings.
Reaching one is no error: the walk ends early.

The settings also name the *placeholder*, the word that is put into a text
where the cursor is, so that the cursor always has a node of its own. What the
user typed is a text without the placeholder.
-/

namespace Typeahead

/-- The settings of a completion. -/
structure Config where
  /-- The word put in where the cursor is. -/
  placeholder : String := "IntellijIdeaRulezzz"
  /-- How many nodes around the cursor are looked at. -/
  maxTraversalDepth : Nat := 20
  /-- How many visible names are collected. -/
  maxBindings : Nat := 100
  /-- How many top-level forms are searched for definitions. -/
  maxSiblingDefinitions : Nat := 50
  /-- How many files of the project are searched. -/
  maxProjectFiles : Nat := 20
  /-- How many definitions are taken from one file. -/
  maxDefinitionsPerFile : Nat := 10
  /-- The length in bytes of the longest file that is searched. -/
  maxFileText : Nat := 100000
  /-- The length in bytes of the longest vector that may bind names. -/
  maxVectorText : Nat := 1000
  /-- The length in bytes of the text looked at in a namespace declaration. -/
  namespaceWindow : Nat := 200
  /-- How many candidates are answered, if limited. -/
  maxResults : Option Nat := none
  deriving DecidableEq, Repr

/-- A setting with a value that it must not have. -/
structure InvalidSetting where
  field : String
  reason : String
  deriving DecidableEq, Repr

/-- The wording of an invalid setting. -/
def InvalidSetting.message (e : InvalidSetting) : String :=
  "invalid value for `" ++ e.field ++ "`: " ++ e.reason

namespace Config

/-- The first invalid setting, if any. -/
def invalid? (c : Config) : Option InvalidSetting :=
  if (trim c.placeholder.toList).isEmpty then
    some ⟨"placeholder", "must contain at least one non-whitespace character"⟩
  else if c.maxTraversalDepth = 0 then some ⟨"max_traversal_depth", "must be greater than zero"⟩
  else if c.maxResults = some 0 then some ⟨"max_results", "must be greater than zero when set"⟩
  else none

/-- Whether a text holds the placeholder. -/
def containsPlaceholder (c : Config) (cs : List Char) : Bool :=
  containsText c.placeholder.toList cs

/-- A text without the placeholder, and without a space after it, trimmed. -/
def stripPlaceholder (c : Config) (cs : List Char) : List Char :=
  let p := c.placeholder.toList
  trim (removeText p (removeText (p ++ [' ']) cs))

end Config

end Typeahead
