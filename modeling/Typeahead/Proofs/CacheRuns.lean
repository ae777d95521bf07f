import Typeahead.Proofs.Histories

/-!
# Runs of a cache

A *run* is any sequence of calls to a cache: lookups, each with the value that is
computed if nothing is remembered, acceptances of names, and the calls that make the
cache forget. Which entries a full memo drops is up to its eviction, which may decide
anew each time, so what is said of all evictions holds whichever entries are dropped.

A lookup is a *miss* if the cache counts it as one. The entries of a cache are compared
with the misses of the run (`Cache.lastMiss?`), and its counters with the calls since
the cache last forgot (`sinceLast`).

* `symbols_perform`, `signatures_perform`: what a call can make of a memo (`MemoStep`);
* `lookups_perform`, `usageCount_perform`: what a call does to the counters;
* `perform_again`: a lookup finds what the same lookup has just given;
* `Accounts.concat`: what one more call keeps;
* `accounts_afterCalls`: what a cache holds and counts after a run.
-/

namespace Typeahead

namespace Cache

/-- A call to a cache. A lookup comes with the value that is computed for it, or with
    what it is computed from, should nothing be remembered. -/
inductive Call
  | knows (name : String) (value : Bool)
  | signature (name : String) (value : Option String)
  | summary (path text : String) (maxText : Nat)
  | recordUsage (name : String)
  | resetUsage
  | clear
  deriving DecidableEq

/-- What a call gives. -/
inductive Answer
  | known (value : Bool)
  | callShape (value : Option String)
  | file (summary : Summary)
  | nothing

/-- Under what a lookup remembers its value. -/
inductive Key
  | symbol (name : String)
  | callShape (name : String)
  | file (parts : List PathPart)
  deriving DecidableEq

/-- What a call gives, and the cache after it. -/
def perform (c : Cache) : Call → Answer × Cache
  | .knows name value => (.known (c.knows name value).1, (c.knows name value).2)
  | .signature name value => (.callShape (c.signature name value).1, (c.signature name value).2)
  | .summary path text maxText =>
    (.file (c.summary path text maxText).1, (c.summary path text maxText).2)
  | .recordUsage name => (.nothing, c.recordUsage name)
  | .resetUsage => (.nothing, c.resetUsage)
  | .clear => (.nothing, c.clear)

/-- The cache after a run. -/
def afterCalls (c : Cache) (calls : List Call) : Cache :=
  calls.foldl (fun c call => (c.perform call).2) c

namespace Call

/-- The key of a lookup. -/
def key? : Call → Option Key
  | .knows name _ => some (.symbol name)
  | .signature name _ => some (.callShape name)
  | .summary path _ _ => some (.file (pathParts path))
  | _ => none

/-- The text of the file that is looked up. -/
def text? : Call → Option String
  | .summary _ text _ => some text
  | _ => none

def isLookup (call : Call) : Bool := call.key?.isSome

/-- The lookups ask the same, whatever would be computed for them. -/
def Repeats (call call' : Call) : Prop := call'.key? = call.key? ∧ call'.text? = call.text?

end Call

/-- Whether the call is counted as a miss. -/
def isMiss (c : Cache) (call : Call) : Bool := c.misses < (c.perform call).2.misses

/-- The misses of a run. -/
def missed (c : Cache) : List Call → List Call
  | [] => []
  | call :: calls =>
    if c.isMiss call then call :: missed (c.perform call).2 calls
    else missed (c.perform call).2 calls

/-- The latest miss of a key in a run. -/
def lastMiss? (c : Cache) (calls : List Call) (key : Key) : Option Call :=
  ((c.missed calls).filter (·.key? == some key)).getLast?

/-- The calls of a run since the last one that `p` holds of, the latest first. -/
def sinceLast (p : Call → Bool) (calls : List Call) : List Call := calls.reverse.takeWhile (!p ·)

/-- What the cache `c` holds and counts, which a run has made of the cache `start`. -/
structure Accounts (start : Cache) (calls : List Call) (c : Cache) : Prop where
  capacity_eq : c.capacity = start.capacity
  digest_eq : c.digest = start.digest
  symbols_le : c.symbols.length ≤ c.capacity
  signatures_le : c.signatures.length ≤ c.capacity
  /-- What is remembered of a name was computed at the latest miss of the name. -/
  symbols_computed : ∀ x ∈ c.symbols,
    start.lastMiss? calls (.symbol x.1) = some (.knows x.1 x.2)
  signatures_computed : ∀ x ∈ c.signatures,
    start.lastMiss? calls (.callShape x.1) = some (.signature x.1 x.2)
  /-- A summary was made at the latest miss of its path. -/
  summaries_computed : ∀ s ∈ c.summaries, ∃ path text maxText,
    start.lastMiss? calls (.file (pathParts s.summary.path)) =
      some (.summary path text maxText) ∧
    s = ⟨start.digest text, .scan path text maxText⟩
  lookups_eq : c.hits + c.misses = (sinceLast (· == .clear) calls).countP Call.isLookup
  usage_eq : ∀ name, c.usageCount name =
    (sinceLast (· == .resetUsage) calls).count (.recordUsage name)
  /-- A repeated lookup is a hit, gives the same as before and changes nothing else. -/
  again : ∀ call call', call.isLookup = true → call.Repeats call' →
    (c.perform call).2.perform call' = ((c.perform call).1, (c.perform call).2.hit)

/-! ### What a call does to a memo -/

/-- What a call can make of a memo: it leaves it, clears it, or makes room in it for an
    entry, of a name that has none. -/
inductive MemoStep {α : Type} (c : Cache) (m : Memo α) : Memo α → Option (String × α) → Prop
  | same : MemoStep c m m none
  | cleared : MemoStep c m [] none
  | added {x : String × α} : m.lookup x.1 = none → MemoStep c m (c.makeRoom m ++ [x]) (some x)

section Memo

variable {α : Type} {c : Cache} {m m' : Memo α} {name : String} {new? : Option (String × α)}

/-- A memo that is full drops at least one entry. -/
theorem length_makeRoom_lt (hpos : 0 < c.capacity) (hm : m.length ≤ c.capacity) :
    (c.makeRoom m).length < c.capacity := by
  rw [makeRoom]
  split
  · next hfull =>
    rw [isFull, decide_eq_true_eq] at hfull
    refine Nat.lt_of_lt_of_le (List.length_filter_lt_length_iff_exists.2 ?_) hm
    -- the first name in the order of eviction is that of an entry
    have hperm := c.eviction.perm c.evictions (m.map Prod.fst)
    cases horder : c.eviction.order c.evictions (m.map Prod.fst) with
    | nil =>
      rw [horder, List.nil_perm, List.map_eq_nil_iff] at hperm
      rw [hperm] at hfull
      exact absurd hfull (Nat.not_le_of_lt hpos)
    | cons first names =>
      have hfirst : first ∈ m.map Prod.fst := hperm.subset (by simp [horder])
      obtain ⟨x, hx, rfl⟩ := List.mem_map.1 hfirst
      refine ⟨x, hx, ?_⟩
      obtain ⟨k, hk⟩ := Nat.exists_eq_add_of_lt (Nat.lt_of_lt_of_le Nat.zero_lt_one
        (Nat.le_max_right (c.capacity / 10) 1))
      simp [hk]
  · next hfull =>
    rw [isFull, decide_eq_true_eq] at hfull
    exact Nat.lt_of_not_le hfull

theorem MemoStep.length_le (h : c.MemoStep m m' new?) (hpos : 0 < c.capacity)
    (hm : m.length ≤ c.capacity) : m'.length ≤ c.capacity := by
  cases h with
  | same => exact hm
  | cleared => exact Nat.zero_le _
  | added =>
    rw [List.length_append, List.length_singleton]
    exact length_makeRoom_lt hpos hm

/-- An entry is the new one, or it was there and has another name. -/
theorem MemoStep.cases_of_mem (h : c.MemoStep m m' new?) {x : String × α} (hx : x ∈ m') :
    new? = some x ∨ x ∈ m ∧ ∀ y ∈ new?, y.1 ≠ x.1 := by
  cases h with
  | same => exact .inr ⟨hx, fun y hy => by cases hy⟩
  | cleared => exact absurd hx List.not_mem_nil
  | @added y hlookup =>
    rcases List.mem_append.1 hx with hx | hx
    · have hmem := c.makeRoom_subset m hx
      refine .inr ⟨hmem, ?_⟩
      rintro _ ⟨⟩ heq
      have hne := List.lookup_eq_none_iff.1 hlookup x hmem
      simp [heq] at hne
    · exact .inl (congrArg some (List.mem_singleton.1 hx).symm)

/-- A new entry is found. -/
theorem lookup_added (h : m.lookup name = none) (value : α) :
    (c.makeRoom m ++ [(name, value)]).lookup name = some value := by
  have hroom : (c.makeRoom m).lookup name = none := by
    rw [List.lookup_eq_none_iff] at h ⊢
    exact fun x hx => h x (c.makeRoom_subset m hx)
  rw [List.lookup_append, hroom]
  simp

theorem lookup_filter_ne {other : String} (h : name ≠ other) :
    (m.filter (·.1 != other)).lookup name = m.lookup name := by
  induction m with
  | nil => rfl
  | cons x m ih =>
    by_cases hx : x.1 = other
    · rw [List.filter_cons_of_neg (by simp [hx]), ih, List.lookup_cons, hx, beq_false_of_ne h]
    · rw [List.filter_cons_of_pos (by simp [hx]), List.lookup_cons, List.lookup_cons, ih]

end Memo

/-! ### One call -/

namespace Call

/-- The entry for a name that the call makes if it is a miss. -/
def symbol? : Call → Option (String × Bool)
  | .knows name value => some (name, value)
  | _ => none

/-- The entry for a call shape that the call makes if it is a miss. -/
def callShape? : Call → Option (String × Option String)
  | .signature name value => some (name, value)
  | _ => none

theorem symbol?_eq_some {call : Call} {x : String × Bool} (h : call.symbol? = some x) :
    call = .knows x.1 x.2 := by
  cases call with
  | knows name value =>
    obtain rfl := Option.some.inj h
    rfl
  | _ => cases h

theorem callShape?_eq_some {call : Call} {x : String × Option String}
    (h : call.callShape? = some x) : call = .signature x.1 x.2 := by
  cases call with
  | signature name value =>
    obtain rfl := Option.some.inj h
    rfl
  | _ => cases h

theorem symbol?_of_key? {call : Call} {name : String} (h : call.key? = some (.symbol name)) :
    ∃ value, call.symbol? = some (name, value) := by
  cases call with
  | knows _ value =>
    obtain rfl := Key.symbol.inj (Option.some.inj h)
    exact ⟨value, rfl⟩
  | _ => cases h

theorem callShape?_of_key? {call : Call} {name : String}
    (h : call.key? = some (.callShape name)) : ∃ value, call.callShape? = some (name, value) := by
  cases call with
  | signature _ value =>
    obtain rfl := Key.callShape.inj (Option.some.inj h)
    exact ⟨value, rfl⟩
  | _ => cases h

end Call

section Step

variable {c : Cache} {call call' : Call}

theorem isMiss_knows (c : Cache) (name : String) (value : Bool) :
    c.isMiss (.knows name value) = (c.symbols.lookup name).isNone := by
  rw [isMiss, perform, knows]
  cases c.symbols.lookup name <;> simp [hit, miss]

theorem isMiss_signature (c : Cache) (name : String) (value : Option String) :
    c.isMiss (.signature name value) = (c.signatures.lookup name).isNone := by
  rw [isMiss, perform, signature]
  cases c.signatures.lookup name <;> simp [hit, miss]

theorem isMiss_summary (c : Cache) (path text : String) (maxText : Nat) :
    c.isMiss (.summary path text maxText) = (c.summaries.find? fun s =>
      samePath s.summary.path path && s.digest == c.digest text).isNone := by
  rw [isMiss, perform, summary]
  split <;> next h => simp [h, hit]

theorem symbols_perform (c : Cache) (call : Call) :
    c.MemoStep c.symbols (c.perform call).2.symbols
      (if c.isMiss call then call.symbol? else none) := by
  cases call with
  | knows name value =>
    rw [isMiss_knows, perform, knows]
    cases hlookup : c.symbols.lookup name with
    | some known => exact .same
    | none => exact .added hlookup
  | signature name value =>
    rw [perform, (c.frame_signature name value).1]
    simp only [Call.symbol?, ite_self]
    exact .same
  | summary path text maxText =>
    rw [perform, (c.sameMemos_summary path text maxText).symbols_eq]
    simp only [Call.symbol?, ite_self]
    exact .same
  | recordUsage | resetUsage =>
    simp only [Call.symbol?, ite_self]
    exact .same
  | clear =>
    simp only [Call.symbol?, ite_self]
    exact .cleared

theorem signatures_perform (c : Cache) (call : Call) :
    c.MemoStep c.signatures (c.perform call).2.signatures
      (if c.isMiss call then call.callShape? else none) := by
  cases call with
  | knows name value =>
    rw [perform, (c.frame_knows name value).1]
    simp only [Call.callShape?, ite_self]
    exact .same
  | signature name value =>
    rw [isMiss_signature, perform, signature]
    cases hlookup : c.signatures.lookup name with
    | some known => exact .same
    | none => exact .added hlookup
  | summary path text maxText =>
    rw [perform, (c.sameMemos_summary path text maxText).signatures_eq]
    simp only [Call.callShape?, ite_self]
    exact .same
  | recordUsage | resetUsage =>
    simp only [Call.callShape?, ite_self]
    exact .same
  | clear =>
    simp only [Call.callShape?, ite_self]
    exact .cleared

/-- A summary is made by the call, or the call is no miss of its path. -/
theorem cases_of_mem_summaries {s : CachedSummary} (hs : s ∈ (c.perform call).2.summaries) :
    (c.isMiss call = true ∧ ∃ path text maxText, call = .summary path text maxText ∧
        s = ⟨c.digest text, .scan path text maxText⟩) ∨
      s ∈ c.summaries ∧
        (c.isMiss call = true → call.key? ≠ some (.file (pathParts s.summary.path))) := by
  cases call with
  | knows name value =>
    rw [perform, (c.frame_knows name value).2.1] at hs
    exact .inr ⟨hs, fun _ h => by cases h⟩
  | signature name value =>
    rw [perform, (c.frame_signature name value).2.1] at hs
    exact .inr ⟨hs, fun _ h => by cases h⟩
  | summary path text maxText =>
    rw [isMiss_summary]
    rw [perform, summary] at hs
    split at hs
    · next hfind => exact .inr ⟨hs, fun h => by simp [hfind] at h⟩
    · next hfind =>
      rcases List.mem_append.1 hs with hs | hs
      · obtain ⟨hmem, hpath⟩ := List.mem_filter.1 hs
        refine .inr ⟨hmem, fun _ hkey => ?_⟩
        have hparts : pathParts path = pathParts s.summary.path :=
          Key.file.inj (Option.some.inj hkey)
        rw [Bool.not_eq_true', Bool.eq_false_iff, Ne, samePath_iff] at hpath
        exact hpath hparts.symm
      · exact .inl ⟨by rw [hfind]; rfl, path, text, maxText, rfl, List.mem_singleton.1 hs⟩
  | recordUsage | resetUsage => exact .inr ⟨hs, fun _ h => by cases h⟩
  | clear => exact absurd hs List.not_mem_nil

theorem frame_perform (c : Cache) (call : Call) :
    (c.perform call).2.capacity = c.capacity ∧ (c.perform call).2.digest = c.digest := by
  cases call with
  | knows name value =>
    rw [perform, knows]
    split <;> exact ⟨rfl, rfl⟩
  | signature name value =>
    rw [perform, signature]
    split <;> exact ⟨rfl, rfl⟩
  | summary path text maxText =>
    rw [perform, summary]
    split <;> exact ⟨rfl, rfl⟩
  | recordUsage | resetUsage | clear => exact ⟨rfl, rfl⟩

/-- Every lookup is counted, as a hit or as a miss, until the cache is cleared. -/
theorem lookups_perform (c : Cache) (call : Call) :
    (c.perform call).2.hits + (c.perform call).2.misses =
      if call == .clear then 0 else c.hits + c.misses + if call.isLookup then 1 else 0 := by
  cases call with
  | knows name value =>
    rw [perform, knows]
    split
    · exact Nat.add_right_comm c.hits 1 c.misses
    · rfl
  | signature name value =>
    rw [perform, signature]
    split
    · exact Nat.add_right_comm c.hits 1 c.misses
    · rfl
  | summary path text maxText =>
    rw [perform, summary]
    split
    · exact Nat.add_right_comm c.hits 1 c.misses
    · rfl
  | recordUsage | resetUsage | clear => rfl

theorem usageCount_recordUsage (c : Cache) (accepted name : String) :
    (c.recordUsage accepted).usageCount name =
      c.usageCount name + if accepted = name then 1 else 0 := by
  by_cases h : accepted = name
  · subst h
    simp [usageCount, recordUsage]
  · rw [usageCount, recordUsage, List.lookup_cons, beq_false_of_ne (Ne.symm h),
      lookup_filter_ne (Ne.symm h), if_neg h]
    rfl

theorem usageCount_perform (c : Cache) (call : Call) (name : String) :
    (c.perform call).2.usageCount name =
      if call == .resetUsage then 0
      else c.usageCount name + if call == .recordUsage name then 1 else 0 := by
  cases call with
  | knows _ _ =>
    rw [perform, usageCount, (c.frame_knows _ _).2.2.1]
    rfl
  | signature _ _ =>
    rw [perform, usageCount, (c.frame_signature _ _).2.2.1]
    rfl
  | summary path text maxText =>
    rw [perform, usageCount, (c.sameMemos_summary path text maxText).usage_eq]
    rfl
  | recordUsage accepted =>
    rw [perform, usageCount_recordUsage]
    simp
  | resetUsage | clear => rfl

/-! ### Repeated lookups -/

theorem knows_of_lookup {name : String} {known : Bool} (h : c.symbols.lookup name = some known)
    (value : Bool) : c.knows name value = (known, c.hit) := by
  rw [knows, h]

theorem signature_of_lookup {name : String} {known : Option String}
    (h : c.signatures.lookup name = some known) (value : Option String) :
    c.signature name value = (known, c.hit) := by
  rw [signature, h]

theorem summary_of_find? {path text : String} {s : CachedSummary}
    (h : (c.summaries.find? fun s =>
      samePath s.summary.path path && s.digest == c.digest text) = some s) (maxText : Nat) :
    c.summary path text maxText = (s.summary, c.hit) := by
  rw [summary, h]

theorem lookup_symbols_knows (c : Cache) (name : String) (value : Bool) :
    (c.knows name value).2.symbols.lookup name = some (c.knows name value).1 := by
  rw [knows]
  split
  · next hlookup => exact hlookup
  · next hlookup => exact lookup_added hlookup value

theorem lookup_signatures_signature (c : Cache) (name : String) (value : Option String) :
    (c.signature name value).2.signatures.lookup name = some (c.signature name value).1 := by
  rw [signature]
  split
  · next hlookup => exact hlookup
  · next hlookup => exact lookup_added hlookup value

theorem exists_find?_summary (c : Cache) (path text : String) (maxText : Nat) :
    ∃ s, ((c.summary path text maxText).2.summaries.find? fun s =>
        samePath s.summary.path path && s.digest == c.digest text) = some s ∧
      s.summary = (c.summary path text maxText).1 := by
  rw [summary]
  split
  · next s hfind => exact ⟨s, hfind, rfl⟩
  · -- the other summaries left are of other paths
    refine ⟨⟨c.digest text, .scan path text maxText⟩, ?_, rfl⟩
    have hothers : ((c.summaries.filter (!samePath ·.summary.path path)).find? fun s =>
        samePath s.summary.path path && s.digest == c.digest text) = none := by
      rw [List.find?_eq_none]
      intro s hs
      have hpath := (List.mem_filter.1 hs).2
      rw [Bool.not_eq_true'] at hpath
      simp [hpath]
    have hself : samePath (Summary.scan path text maxText).path path = true := by
      rw [Summary.path_scan]
      exact samePath_iff.2 rfl
    rw [List.find?_append, hothers, List.find?_cons_of_pos (by simp [hself])]
    rfl

/-- A lookup finds what a lookup that asked the same has just given. -/
theorem perform_again (c : Cache) (hlookup : call.isLookup = true) (h : call.Repeats call') :
    (c.perform call).2.perform call' = ((c.perform call).1, (c.perform call).2.hit) := by
  obtain ⟨hkey, htext⟩ := h
  cases call with
  | knows name value =>
    cases call' with
    | knows name' value' =>
      obtain rfl := Key.symbol.inj (Option.some.inj hkey)
      rw [perform, perform, knows_of_lookup (c.lookup_symbols_knows _ _)]
    | _ => cases hkey
  | signature name value =>
    cases call' with
    | signature name' value' =>
      obtain rfl := Key.callShape.inj (Option.some.inj hkey)
      rw [perform, perform, signature_of_lookup (c.lookup_signatures_signature _ _)]
    | _ => cases hkey
  | summary path text maxText =>
    cases call' with
    | summary path' text' maxText' =>
      have hparts : pathParts path' = pathParts path := Key.file.inj (Option.some.inj hkey)
      obtain rfl := Option.some.inj htext
      obtain ⟨s, hfind, hs⟩ := c.exists_find?_summary path text' maxText
      rw [← (c.sameMemos_summary path text' maxText).digest_eq] at hfind
      simp only [samePath, ← hparts] at hfind
      rw [perform, perform, summary_of_find? hfind, hs]
    | _ => cases hkey
  | recordUsage | resetUsage | clear => cases hlookup

end Step

/-! ### Runs -/

section Run

variable {start : Cache} {calls : List Call}

theorem afterCalls_concat (c : Cache) (calls : List Call) (call : Call) :
    c.afterCalls (calls ++ [call]) = ((c.afterCalls calls).perform call).2 := by
  rw [afterCalls, List.foldl_append]
  rfl

theorem missed_concat (c : Cache) (calls : List Call) (call : Call) :
    c.missed (calls ++ [call]) =
      c.missed calls ++ if (c.afterCalls calls).isMiss call then [call] else [] := by
  induction calls generalizing c with
  | nil => rfl
  | cons first calls ih =>
    rw [List.cons_append, missed, missed, ih]
    split <;> rfl

theorem lastMiss?_concat (c : Cache) (calls : List Call) (call : Call) (key : Key) :
    c.lastMiss? (calls ++ [call]) key =
      if (c.afterCalls calls).isMiss call ∧ call.key? = some key then some call
      else c.lastMiss? calls key := by
  rw [lastMiss?, missed_concat, List.filter_append, lastMiss?]
  by_cases hmiss : (c.afterCalls calls).isMiss call = true
  · by_cases hkey : call.key? = some key <;> simp [hmiss, hkey]
  · simp [hmiss]

theorem sinceLast_concat (p : Call → Bool) (calls : List Call) (call : Call) :
    sinceLast p (calls ++ [call]) = if p call then [] else call :: sinceLast p calls := by
  rw [sinceLast, List.reverse_concat, List.takeWhile_cons]
  cases p call <;> rfl

/-- If what is remembered was computed at the latest misses, it still is after a call
    that is a miss of a name exactly if it makes an entry for it. -/
theorem MemoStep.computed {α : Type} {m m' : Memo α} {new? : Option (String × α)} {call : Call}
    {key : String → Key} {ask : String → α → Call}
    (h : (start.afterCalls calls).MemoStep m m'
      (if (start.afterCalls calls).isMiss call then new? else none))
    (hnew : ∀ x, new? = some x → call = ask x.1 x.2 ∧ call.key? = some (key x.1))
    (hkey : ∀ name, call.key? = some (key name) → ∃ value, new? = some (name, value))
    (hm : ∀ x ∈ m, start.lastMiss? calls (key x.1) = some (ask x.1 x.2)) :
    ∀ x ∈ m', start.lastMiss? (calls ++ [call]) (key x.1) = some (ask x.1 x.2) := by
  intro x hx
  rw [lastMiss?_concat]
  rcases h.cases_of_mem hx with hx | ⟨hx, hother⟩
  · obtain ⟨hmiss, hx⟩ := Option.ite_none_right_eq_some.1 hx
    obtain ⟨hcall, hkey⟩ := hnew x hx
    rw [if_pos ⟨hmiss, hkey⟩, hcall]
  · rw [if_neg, hm x hx]
    rintro ⟨hmiss, hcall⟩
    obtain ⟨value, hvalue⟩ := hkey x.1 hcall
    rw [if_pos hmiss] at hother
    exact hother _ hvalue rfl

/-- One more call keeps the accounts. -/
theorem Accounts.concat (h : Accounts start calls (start.afterCalls calls))
    (hpos : 0 < start.capacity) (call : Call) :
    Accounts start (calls ++ [call]) (start.afterCalls (calls ++ [call])) := by
  rw [afterCalls_concat]
  obtain ⟨hcapacity, hdigest⟩ := (start.afterCalls calls).frame_perform call
  have hroom : 0 < (start.afterCalls calls).capacity := h.capacity_eq ▸ hpos
  have hsymbols := (start.afterCalls calls).symbols_perform call
  have hsignatures := (start.afterCalls calls).signatures_perform call
  constructor
  · exact hcapacity.trans h.capacity_eq
  · exact hdigest.trans h.digest_eq
  · rw [hcapacity]
    exact hsymbols.length_le hroom h.symbols_le
  · rw [hcapacity]
    exact hsignatures.length_le hroom h.signatures_le
  · refine hsymbols.computed (fun x hx => ?_) (fun _ => Call.symbol?_of_key?) h.symbols_computed
    obtain rfl := Call.symbol?_eq_some hx
    exact ⟨rfl, rfl⟩
  · refine hsignatures.computed (fun x hx => ?_) (fun _ => Call.callShape?_of_key?)
      h.signatures_computed
    obtain rfl := Call.callShape?_eq_some hx
    exact ⟨rfl, rfl⟩
  · intro s hs
    rcases cases_of_mem_summaries hs with ⟨hmiss, path, text, maxText, rfl, hmade⟩ | ⟨hs, hother⟩
    · have hpath : s.summary.path = path := by rw [hmade, Summary.path_scan]
      refine ⟨path, text, maxText, ?_, h.digest_eq ▸ hmade⟩
      rw [lastMiss?_concat, hpath, if_pos ⟨hmiss, rfl⟩]
    · obtain ⟨path, text, maxText, hlast, hmade⟩ := h.summaries_computed s hs
      refine ⟨path, text, maxText, ?_, hmade⟩
      rw [lastMiss?_concat, if_neg fun hcall => hother hcall.1 hcall.2, hlast]
  · rw [lookups_perform, sinceLast_concat, h.lookups_eq]
    split
    · rfl
    · rw [List.countP_cons]
  · intro name
    rw [usageCount_perform, sinceLast_concat, h.usage_eq]
    split
    · rfl
    · rw [List.count_cons]
  · exact fun call call' => perform_again _

theorem Accounts.append (h : Accounts start calls (start.afterCalls calls))
    (hpos : 0 < start.capacity) (further : List Call) :
    Accounts start (calls ++ further) (start.afterCalls (calls ++ further)) := by
  induction further generalizing calls with
  | nil =>
    rw [List.append_nil]
    exact h
  | cons call further ih =>
    rw [List.append_cons]
    exact ih (h.concat hpos call)

theorem accounts_new (capacity : Nat) (eviction : Eviction) (digest : String → String) :
    Accounts (new capacity eviction digest) [] (new capacity eviction digest) where
  capacity_eq := rfl
  digest_eq := rfl
  symbols_le := Nat.zero_le _
  signatures_le := Nat.zero_le _
  symbols_computed _ hx := absurd hx List.not_mem_nil
  signatures_computed _ hx := absurd hx List.not_mem_nil
  summaries_computed _ hs := absurd hs List.not_mem_nil
  lookups_eq := rfl
  usage_eq _ := rfl
  again _ _ := perform_again _

/-- After any run, whatever the capacity and whichever entries were dropped: the memos
    hold no more entries than the capacity, which is at least one; what they hold was
    computed at the latest misses; the hits and misses are the lookups since the cache was
    last cleared; the uses of a name are those since the uses were last forgotten; and a
    lookup made twice in a row is a hit the second time, with the same answer. -/
theorem accounts_afterCalls (capacity : Nat) (eviction : Eviction) (digest : String → String)
    (calls : List Call) :
    (new capacity eviction digest).capacity = max capacity 1 ∧
      Accounts (new capacity eviction digest) calls
        ((new capacity eviction digest).afterCalls calls) :=
  ⟨rfl, (accounts_new capacity eviction digest).append
    (Nat.lt_of_lt_of_le Nat.zero_lt_one (Nat.le_max_right capacity 1)) calls⟩

end Run

end Cache

end Typeahead
