import Typeahead.Project.Basic
import Typeahead.Project.Summary
import Typeahead.Text.Decimal

/-!
# Caches

A cache remembers between requests what does not depend on the cursor: whether
a name is known, the call shape of a name, and the summary of a file as long as
its text stays the same. It also counts how often each name was accepted.

A memo that is full drops a tenth of its entries before it takes a new one. Which
ones is up to an `Eviction`, and nothing but the entries left may depend on it.
Of the text of a file only a digest is kept, and texts with the same digest count as
the same.
-/

namespace Typeahead

/-- Which entries a full memo drops. -/
structure Eviction where
  /-- The names of the entries in the order in which they are dropped, when this
      happens for the `n`th time. -/
  order : (n : Nat) → List String → List String
  perm : ∀ n names, (order n names).Perm names

/-- Older entries are dropped first. -/
def Eviction.oldestFirst : Eviction := ⟨fun _ names => names, fun _ _ => .rfl⟩

/-- Remembered values by name, the oldest first. -/
abbrev Memo (α : Type) := List (String × α)

/-- The summary of a file, and the digest of the text that it was made from. -/
structure CachedSummary where
  digest : String
  summary : Summary

/-- What is remembered between requests. -/
structure Cache where
  /-- The greatest number of entries of a memo. -/
  capacity : Nat
  eviction : Eviction
  /-- By what texts are told apart. -/
  digest : String → String
  /-- How often a memo was full. -/
  evictions : Nat
  symbols : Memo Bool
  signatures : Memo (Option String)
  summaries : List CachedSummary
  usage : Memo Nat
  hits : Nat
  misses : Nat

namespace Cache

/-- The empty cache whose memos hold so many entries, and at least one. A text is
    its own digest unless another one is given. -/
def new (capacity : Nat) (eviction : Eviction) (digest : String → String := id) : Cache :=
  ⟨max capacity 1, eviction, digest, 0, [], [], [], [], 0, 0⟩

/-- The empty cache of the usual size. -/
def standard : Cache := new 1000 .oldestFirst

/-- Whether a memo has no room for another entry. -/
def isFull {α : Type} (c : Cache) (m : Memo α) : Bool := c.capacity ≤ m.length

/-- A memo with room for another entry. -/
def makeRoom {α : Type} (c : Cache) (m : Memo α) : Memo α :=
  if c.isFull m then
    let names := c.eviction.order c.evictions (m.map Prod.fst)
    let dropped := names.take (max (c.capacity / 10) 1)
    m.filter fun (name, _) => !dropped.contains name
  else m

/-- The cache after an entry was found. -/
def hit (c : Cache) : Cache := { c with hits := c.hits + 1 }

/-- The cache after an entry was not found in a memo and room was made for it. -/
def miss {α : Type} (c : Cache) (m : Memo α) : Cache :=
  { c with
    misses := c.misses + 1
    evictions := if c.isFull m then c.evictions + 1 else c.evictions }

/-- Whether a name is known, which is `value` if it is not remembered. -/
def knows (c : Cache) (name : String) (value : Bool) : Bool × Cache :=
  match c.symbols.lookup name with
  | some known => (known, c.hit)
  | none =>
    (value, { c.miss c.symbols with symbols := c.makeRoom c.symbols ++ [(name, value)] })

/-- The call shape of a name, which is `value` if it is not remembered. -/
def signature (c : Cache) (name : String) (value : Option String) : Option String × Cache :=
  match c.signatures.lookup name with
  | some known => (known, c.hit)
  | none =>
    (value, { c.miss c.signatures with signatures := c.makeRoom c.signatures ++ [(name, value)] })

/-- The summary of a file, which is made anew if the digest of its text has
    changed. -/
def summary (c : Cache) (path text : String) (maxText : Nat) : Summary × Cache :=
  match c.summaries.find? fun s => samePath s.summary.path path && s.digest == c.digest text with
  | some s => (s.summary, c.hit)
  | none =>
    let s := Summary.scan path text maxText
    let others := c.summaries.filter (!samePath ·.summary.path path)
    (s, { c with misses := c.misses + 1, summaries := others ++ [⟨c.digest text, s⟩] })

/-- The summaries of the files at the given paths, without the file `excluded` and
    those that are unavailable. There are none if the project breaks down. -/
def summariesOf (p : Project) (maxText : Nat) (excluded : Option String) (c : Cache) :
    List String → Option (List Summary) × Cache
  | [] => (some [], c)
  | path :: paths =>
    if excluded.any (samePath · path) then summariesOf p maxText excluded c paths
    else
      match p.read path with
      | .ok text =>
        let (s, c) := c.summary path text maxText
        let (ss, c) := summariesOf p maxText excluded c paths
        (ss.map (s :: ·), c)
      | .error .unavailable => summariesOf p maxText excluded c paths
      | .error .breakdown => (none, c)

/-- The summaries of the files of a project, of which at most `maxFiles` are
    listed. -/
def projectSummaries (c : Cache) (p : Project) (maxFiles maxText : Nat)
    (excluded : Option String) : Option (List Summary) × Cache :=
  match p.paths maxFiles with
  | .ok paths => summariesOf p maxText excluded c paths
  | .error .unavailable => (some [], c)
  | .error .breakdown => (none, c)

/-- How often a name was accepted. -/
def usageCount (c : Cache) (name : String) : Nat := (c.usage.lookup name).getD 0

/-- Counts that a name was accepted. -/
def recordUsage (c : Cache) (name : String) : Cache :=
  let others := c.usage.filter (·.1 != name)
  { c with usage := (name, c.usageCount name + 1) :: others }

/-- Forgets how often names were accepted. -/
def resetUsage (c : Cache) : Cache := { c with usage := [] }

/-- Forgets everything else. -/
def clear (c : Cache) : Cache :=
  { c with symbols := [], signatures := [], summaries := [], hits := 0, misses := 0 }

/-- The number of things remembered. -/
def size (c : Cache) : Nat := c.symbols.length + c.signatures.length + c.summaries.length

/-- The share of lookups that found an entry, with six decimals, if there was a
    lookup. -/
def hitRate? (c : Cache) : Option String :=
  let total := c.hits + c.misses
  if total = 0 then none else some (String.ofList (sixDecimals c.hits total))

end Cache

end Typeahead
