import Typeahead.Engine.Basic
import Typeahead.Proofs.Revalidation

/-!
# Histories of requests

A cache serves one request after the other. What it has at the end is described by the requests
alone: it remembers the looks that they took at the project, and its memos hold what they have
found out about the functions they asked for (`Cache.Stands`). An answer depends on the cache in
two ways only, by the summaries that it gives for a look and by the call shape that it recalls
for one function (`Request.of_remembers`). So, while the looks are coherent, all that an earlier
request can change in a later answer is that call shape (`Request.answer_after`).
-/

namespace Typeahead

/-! ### What matters of summaries -/

section Content

variable {ss ss' : List Summary}

/-- Whatever only depends on what a summary tells is the same for summaries that tell the
    same. -/
theorem map_eq_of_content {α : Type} {f : Summary → α}
    (hf : ∀ s s' : Summary, s.content = s'.content → f s = f s')
    (h : ss.map Summary.content = ss'.map Summary.content) : ss.map f = ss'.map f := by
  induction ss generalizing ss' with
  | nil => rw [List.map_eq_nil_iff.1 h.symm]
  | cons s ss ih =>
    obtain ⟨s', ss', rfl, hs, hss⟩ := List.map_eq_cons_iff.1 h.symm
    rw [List.map_cons, List.map_cons, hf s s' hs.symm, ih hss.symm]

theorem Summary.nsName_eq_of_content {s s' : Summary} (h : s.content = s'.content) :
    s.nsName = s'.nsName := congrArg (·.2.1) h

theorem Summary.definitions_eq_of_content {s s' : Summary} (h : s.content = s'.content) :
    s.definitions = s'.definitions := congrArg (·.2.2) h

theorem Summary.stem_eq_of_content {s s' : Summary} (h : s.content = s'.content) :
    s.stem = s'.stem := by
  have hparts : pathParts s.path = pathParts s'.path := congrArg Prod.fst h
  rw [stem, stem, fileStem, fileStem, fileName?, fileName?, hparts]

theorem projectBindings_eq_of_content (h : ss.map Summary.content = ss'.map Summary.content)
    (maxFiles maxPerFile : Nat) :
    projectBindings maxFiles maxPerFile ss = projectBindings maxFiles maxPerFile ss' := by
  simp only [projectBindings, List.flatMap_def, List.map_take]
  rw [map_eq_of_content (fun s s' hs => ?_) h]
  simp only [Summary.definitions_eq_of_content hs, Summary.stem_eq_of_content hs]

theorem scopeAt_eq_of_content (h : ss.map Summary.content = ss'.map Summary.content) (t : Tree)
    (config : Config) (c : Cursor) : t.scopeAt config c ss = t.scopeAt config c ss' := by
  have hcollect : t.collect config c ss = t.collect config c ss' := by
    funext collector
    cases collector with
    | lexical => rfl
    | sibling => rfl
    | project => exact projectBindings_eq_of_content h _ _
  rw [Tree.scopeAt, Tree.scopeAt, Tree.resolve, Tree.resolve, hcollect]

theorem atCursor_eq_of_content (h : ss.map Summary.content = ss'.map Summary.content) (t : Tree)
    (config : Config) (c : Cursor) (context : Context) (signature : Option String) :
    Offer.atCursor t config c context ss signature =
      Offer.atCursor t config c context ss' signature := by
  have hmap : ∀ ss : List Summary, ss.filterMap (·.nsName) = (ss.map (·.nsName)).filterMap id :=
    fun ss => by rw [List.filterMap_map]; rfl
  have hnames : ss.filterMap (·.nsName) = ss'.filterMap (·.nsName) := by
    rw [hmap, hmap, map_eq_of_content (fun _ _ => Summary.nsName_eq_of_content) h]
  rw [Offer.atCursor, Offer.atCursor, hnames, scopeAt_eq_of_content h]

end Content

/-! ### Call shapes -/

/-- The call shape of a name in the catalogue. -/
def cataloguedShape (name : String) : Option String :=
  (Entry.ofName? name).bind (Candidate.nonempty? ·.signature)

/-- The call shape of the first definition of a name in the files. -/
def definedShape (ss : List Summary) (name : String) : Option String :=
  ((ss.flatMap (·.definitions)).find? (·.name == name)).bind (·.signature)

/-- Whether a name is in the catalogue, or has a call shape in the files. -/
def isKnownIn (ss : List Summary) (name : String) : Bool :=
  (Entry.ofName? name).isSome || (definedShape ss name).isSome

/-- The call shape of a name in the catalogue, or else in the files. -/
def shapeIn (ss : List Summary) (name : String) : Option String :=
  cataloguedShape name <|> definedShape ss name

section Shapes

variable {ss ss' : List Summary} {name : String}

theorem shapeIn_eq_none (h : isKnownIn ss name = false) : shapeIn ss name = none := by
  rw [isKnownIn, Bool.or_eq_false_iff] at h
  have hentry : Entry.ofName? name = none := by simpa using h.1
  have hdefined : definedShape ss name = none := by simpa using h.2
  rw [shapeIn, cataloguedShape, hentry, hdefined]
  rfl

/-- The files do not matter for a name with a call shape in the catalogue. -/
theorem cataloguedShape_eq_none (h : shapeIn ss name ≠ shapeIn ss' name) :
    cataloguedShape name = none := by
  cases hshape : cataloguedShape name with
  | none => rfl
  | some shape =>
    rw [shapeIn, shapeIn, hshape] at h
    exact absurd rfl h

theorem definedShape_eq_of_content (h : ss.map Summary.content = ss'.map Summary.content) :
    definedShape ss name = definedShape ss' name := by
  rw [definedShape, definedShape, List.flatMap_def, List.flatMap_def,
    map_eq_of_content (fun _ _ => Summary.definitions_eq_of_content) h]

theorem isKnownIn_eq_of_content (h : ss.map Summary.content = ss'.map Summary.content) :
    isKnownIn ss name = isKnownIn ss' name := by
  rw [isKnownIn, isKnownIn, definedShape_eq_of_content h]

theorem shapeIn_eq_of_content (h : ss.map Summary.content = ss'.map Summary.content) :
    shapeIn ss name = shapeIn ss' name := by
  rw [shapeIn, shapeIn, definedShape_eq_of_content h]

end Shapes

namespace Cache

/-- The call shape of a name as the memos have it, or else as it is in the files. -/
def consult (c : Cache) (name : String) (ss : List Summary) : Option String × Cache :=
  let (known, c) := c.knows name (isKnownIn ss name)
  if known then c.signature name (shapeIn ss name) else (none, c)

/-- The cache `c'` has learnt nothing but whether the name that was asked for is known, and
    what its call shape is. -/
structure Learns (c c' : Cache) (asked : Option String) (ss : List Summary) : Prop where
  symbols : ∀ x ∈ c'.symbols, x ∈ c.symbols ∨ ∃ name ∈ asked, x = (name, isKnownIn ss name)
  signatures : ∀ x ∈ c'.signatures,
    x ∈ c.signatures ∨ ∃ name ∈ asked, x = (name, shapeIn ss name)
  usage_eq : c'.usage = c.usage
  digest_eq : c'.digest = c.digest

theorem SameMemos.learns {c c' : Cache} (h : SameMemos c c') (asked : Option String)
    (ss : List Summary) : c.Learns c' asked ss :=
  ⟨fun _ hx => .inl (h.symbols_eq ▸ hx), fun _ hx => .inl (h.signatures_eq ▸ hx), h.usage_eq,
    h.digest_eq⟩

theorem Learns.of_sameMemos {c c' c'' : Cache} {asked : Option String} {ss : List Summary}
    (h : c'.Learns c'' asked ss) (hsame : SameMemos c c') : c.Learns c'' asked ss := by
  obtain ⟨hsymbols, hsignatures, husage, hdigest⟩ := h
  rw [hsame.symbols_eq] at hsymbols
  rw [hsame.signatures_eq] at hsignatures
  exact ⟨hsymbols, hsignatures, husage.trans hsame.usage_eq, hdigest.trans hsame.digest_eq⟩

variable {c : Cache} {name : String} {ss : List Summary}

theorem makeRoom_subset {α : Type} (c : Cache) (m : Memo α) : c.makeRoom m ⊆ m := by
  rw [makeRoom]
  split
  · exact fun x hx => (List.mem_filter.1 hx).1
  · exact List.Subset.refl m

theorem mem_of_lookup {α : Type} {m : Memo α} {x : α} (h : m.lookup name = some x) :
    (name, x) ∈ m := by
  obtain ⟨before, after, rfl, -⟩ := List.lookup_eq_some_iff.1 h
  exact List.mem_append_right _ List.mem_cons_self

theorem fst_knows (c : Cache) (name : String) (value : Bool) :
    (c.knows name value).1 = (c.symbols.lookup name).getD value := by
  rw [knows]
  split <;> next h => rw [h]; rfl

theorem fst_signature (c : Cache) (name : String) (value : Option String) :
    (c.signature name value).1 = (c.signatures.lookup name).getD value := by
  rw [signature]
  split <;> next h => rw [h]; rfl

theorem mem_symbols_knows {value : Bool} {x : String × Bool}
    (h : x ∈ (c.knows name value).2.symbols) : x ∈ c.symbols ∨ x = (name, value) := by
  rw [knows] at h
  split at h
  · exact .inl h
  · rcases List.mem_append.1 h with h | h
    · exact .inl (c.makeRoom_subset _ h)
    · exact .inr (List.mem_singleton.1 h)

theorem mem_signatures_signature {value : Option String} {x : String × Option String}
    (h : x ∈ (c.signature name value).2.signatures) : x ∈ c.signatures ∨ x = (name, value) := by
  rw [signature] at h
  split at h
  · exact .inl h
  · rcases List.mem_append.1 h with h | h
    · exact .inl (c.makeRoom_subset _ h)
    · exact .inr (List.mem_singleton.1 h)

/-- Asking whether a name is known changes no other memo. -/
theorem frame_knows (c : Cache) (name : String) (value : Bool) :
    (c.knows name value).2.signatures = c.signatures ∧
      (c.knows name value).2.summaries = c.summaries ∧
      (c.knows name value).2.usage = c.usage ∧ (c.knows name value).2.digest = c.digest := by
  rw [knows]
  split <;> exact ⟨rfl, rfl, rfl, rfl⟩

/-- Asking for a call shape changes no other memo. -/
theorem frame_signature (c : Cache) (name : String) (value : Option String) :
    (c.signature name value).2.symbols = c.symbols ∧
      (c.signature name value).2.summaries = c.summaries ∧
      (c.signature name value).2.usage = c.usage ∧
      (c.signature name value).2.digest = c.digest := by
  rw [signature]
  split <;> exact ⟨rfl, rfl, rfl, rfl⟩

theorem fst_consult (c : Cache) (name : String) (ss : List Summary) :
    (c.consult name ss).1 =
      if (c.symbols.lookup name).getD (isKnownIn ss name) then
        (c.signatures.lookup name).getD (shapeIn ss name)
      else none := by
  rw [consult, ← fst_knows, ← (c.frame_knows name (isKnownIn ss name)).1, ← fst_signature]
  exact apply_ite Prod.fst _ _ _

theorem learns_consult (c : Cache) (name : String) (ss : List Summary) :
    c.Learns (c.consult name ss).2 (some name) ss ∧
      (c.consult name ss).2.summaries = c.summaries := by
  obtain ⟨hsignatures, hsummaries, husage, hdigest⟩ := c.frame_knows name (isKnownIn ss name)
  have hsymbols : ∀ x ∈ (c.knows name (isKnownIn ss name)).2.symbols,
      x ∈ c.symbols ∨ ∃ n ∈ some name, x = (n, isKnownIn ss n) :=
    fun x hx => (mem_symbols_knows hx).imp_right fun h => ⟨name, rfl, h⟩
  rw [consult]
  dsimp only
  generalize (c.knows name (isKnownIn ss name)).2 = c' at *
  split
  · obtain ⟨hsymbols', hsummaries', husage', hdigest'⟩ := c'.frame_signature name (shapeIn ss name)
    refine ⟨⟨fun x hx => hsymbols x (hsymbols' ▸ hx), fun x hx => ?_, husage'.trans husage,
      hdigest'.trans hdigest⟩, hsummaries'.trans hsummaries⟩
    rw [← hsignatures]
    exact (mem_signatures_signature hx).imp_right fun h => ⟨name, rfl, h⟩
  · exact ⟨⟨hsymbols, fun x hx => .inl (hsignatures ▸ hx), husage, hdigest⟩, hsummaries⟩

/-- What is recalled only depends on the memos. -/
theorem SameMemos.fst_consult_eq {c' : Cache} (h : SameMemos c c') (name : String)
    (ss : List Summary) : (c'.consult name ss).1 = (c.consult name ss).1 := by
  rw [fst_consult, fst_consult, h.symbols_eq, h.signatures_eq]

theorem Remembers.consult {looks : List Look} (h : c.Remembers looks) (name : String)
    (ss : List Summary) : (c.consult name ss).2.Remembers looks := by
  obtain ⟨hlearns, hsummaries⟩ := c.learns_consult name ss
  rw [Remembers, hsummaries, hlearns.digest_eq]
  exact h

theorem consult_eq_of_content {ss' : List Summary}
    (h : ss.map Summary.content = ss'.map Summary.content) :
    c.consult name ss = c.consult name ss' := by
  rw [consult, consult, isKnownIn_eq_of_content h, shapeIn_eq_of_content h]

/-- The call shape that is recalled is that in the files, or what a memo has. -/
theorem fst_consult_cases (c : Cache) (name : String) (ss : List Summary) :
    (c.consult name ss).1 = shapeIn ss name ∨
      (name, false) ∈ c.symbols ∧ (c.consult name ss).1 = none ∨
      (name, (c.consult name ss).1) ∈ c.signatures := by
  rw [fst_consult]
  split
  · next hknown =>
    cases hlookup : c.signatures.lookup name with
    | none => exact .inl rfl
    | some shape => exact .inr (.inr (mem_of_lookup hlookup))
  · next hknown =>
    rw [Bool.not_eq_true] at hknown
    cases hlookup : c.symbols.lookup name with
    | none =>
      rw [hlookup] at hknown
      exact .inl (shapeIn_eq_none hknown).symm
    | some known =>
      rw [hlookup] at hknown
      exact .inr (.inl ⟨mem_of_lookup (hlookup.trans (congrArg some hknown)), rfl⟩)

end Cache

/-! ### Requests with a cursor -/

namespace Engine

variable (e : Engine)

/-- The look that a request takes at the project. An engine without a project looks at one
    without files. -/
def look (currentFile : Option String) : Look :=
  ⟨e.project.getD ⟨fun _ => .ok [], fun _ => .error .unavailable⟩, e.config.maxProjectFiles,
    e.config.maxFileText, currentFile⟩

theorem summaries_eq_look (cache : Cache) (currentFile : Option String) :
    e.summaries cache currentFile = cache.look (e.look currentFile) := by
  rw [summaries, Cache.look, look]
  cases e.project <;> rfl

theorem signatureOf_eq (cache : Cache) (function : String) (scope : Scope) (ss : List Summary) :
    signatureOf cache function scope ss =
      match scope.get? function with
      | some b => (b.signature, cache)
      | none => cache.consult function ss := rfl

/-- Of a cache, only the counters matter for the answer made of given candidates. -/
theorem answer_eq_of_usage {c c' : Cache} (h : c'.usage = c.usage) (context : Context)
    (cs : List Candidate) : e.answer c' context cs = e.answer c context cs := by
  have husage : withUsage c' = withUsage c := by
    funext candidate
    rw [withUsage, withUsage, Cache.usageCount, Cache.usageCount, h]
  rw [answer, answer, husage]

variable (t : Tree) (cursor : Cursor) (currentFile : Option String)

/-- The looks that a request takes at the project, none or one. -/
def looks : List Look :=
  let slot := t.slot e.config cursor
  if !isMute cursor slot && slot.needsProject then [e.look currentFile] else []

/-- The function for which a request has to find out the call shape: an argument of it is
    typed, and no binding has its name. -/
def asked? : Option String :=
  let l := e.look currentFile
  match t.slot e.config cursor with
  | .argument function index =>
    if isMute cursor (.argument function index) || l.isBroken ||
        ((t.scopeAt e.config cursor l.summaries).get? function).isSome then none
    else some function
  | _ => none

/-- The call shape that matters in a slot, if that of a function which is not bound is
    `shape`. -/
def shapeAt (ss : List Summary) (shape : Option String) : Option String :=
  match t.slot e.config cursor with
  | .argument function _ =>
    match (t.scopeAt e.config cursor ss).get? function with
    | some b => b.signature
    | none => shape
  | _ => none

/-- The answer to a request that finds the files of the given summaries, if the call shape
    that it has to find out is `shape`. The counters are those of `c`. -/
def replyTo (c : Cache) (shape : Option String) : Option (List Summary) → List Candidate
  | none => e.fallback
  | some ss =>
    let context := Context.ofCursor t e.config cursor
    e.answer c context
      (Offer.atCursor t e.config cursor context ss (e.shapeAt t cursor ss shape))

/-- The answer to a request if the call shape that it has to find out is `shape`. The
    counters are those of `c`. -/
def reply (c : Cache) (shape : Option String) : List Candidate :=
  let slot := t.slot e.config cursor
  let l := e.look currentFile
  if isMute cursor slot then []
  else if slot.needsProject then
    e.replyTo t cursor c shape (if l.isBroken then none else some l.summaries)
  else e.replyTo t cursor c shape (some [])

theorem replyTo_eq_of_usage {c c' : Cache} (h : c'.usage = c.usage) (shape : Option String)
    (found : Option (List Summary)) :
    e.replyTo t cursor c' shape found = e.replyTo t cursor c shape found := by
  cases found with
  | none => rfl
  | some ss => exact e.answer_eq_of_usage h _ _

theorem reply_eq_of_usage {c c' : Cache} (h : c'.usage = c.usage) (shape : Option String) :
    e.reply t cursor currentFile c' shape = e.reply t cursor currentFile c shape := by
  simp only [reply, e.replyTo_eq_of_usage t cursor h]

variable {e t cursor currentFile}

theorem asked?_eq_some_iff {function : String} : e.asked? t cursor currentFile = some function ↔
    (∃ index, t.slot e.config cursor = .argument function index) ∧
      isMute cursor (t.slot e.config cursor) = false ∧ (e.look currentFile).isBroken = false ∧
      (t.scopeAt e.config cursor (e.look currentFile).summaries).get? function = none := by
  rw [asked?]
  cases hslot : t.slot e.config cursor with
  | argument f i =>
    dsimp only
    constructor
    · intro h
      split at h
      · cases h
      · next hasked =>
        cases h
        simpa [Bool.or_eq_true, not_or, and_assoc] using hasked
    · rintro ⟨⟨i', heq⟩, hmute, hbroken, hget⟩
      cases heq
      simp [hmute, hbroken, hget]
  | _ => simp

/-! ### What a cache matters for -/

section

variable (e t cursor currentFile)

/-- The answer to a request that finds the files of the given summaries, and the cache after
    it. -/
def respond (c : Cache) : Option (List Summary) → List Candidate × Cache
  | none => (e.fallback, c)
  | some ss =>
    let context := Context.ofCursor t e.config cursor
    let (signature, c) := e.slotSignature c t cursor context.slot ss
    (e.answer c context (Offer.atCursor t e.config cursor context ss signature), c)

theorem complete_eq (c : Cache) : e.complete c t cursor currentFile =
    if isMute cursor (t.slot e.config cursor) then ([], c)
    else if (t.slot e.config cursor).needsProject then
      e.respond t cursor (c.look (e.look currentFile)).2 (c.look (e.look currentFile)).1
    else e.respond t cursor c (some []) := by
  have hslot : (Context.ofCursor t e.config cursor).slot = t.slot e.config cursor := rfl
  rw [complete, hslot, summaries_eq_look]
  generalize c.look (e.look currentFile) = looked
  obtain ⟨found, c'⟩ := looked
  by_cases hmute : isMute cursor (t.slot e.config cursor) = true
  · rw [if_pos hmute, if_pos hmute]
  rw [if_neg hmute, if_neg hmute]
  by_cases hneeds : (t.slot e.config cursor).needsProject = true
  · rw [if_pos hneeds, if_pos hneeds]
    cases found <;> rfl
  · rw [if_neg hneeds, if_neg hneeds]
    rfl

theorem slotSignature_eq_of_content {ss ss' : List Summary}
    (h : ss.map Summary.content = ss'.map Summary.content) (c : Cache) (slot : Slot) :
    e.slotSignature c t cursor slot ss = e.slotSignature c t cursor slot ss' := by
  cases slot with
  | argument function index =>
    rw [slotSignature, slotSignature, signatureOf_eq, signatureOf_eq, scopeAt_eq_of_content h,
      Cache.consult_eq_of_content h]
  | _ => rfl

theorem respond_eq_of_content {found found' : Option (List Summary)}
    (h : found.map (·.map Summary.content) = found'.map (·.map Summary.content)) (c : Cache) :
    e.respond t cursor c found = e.respond t cursor c found' := by
  cases found with
  | none =>
    rw [Option.map_eq_none_iff.1 h.symm]
  | some ss =>
    obtain ⟨ss', rfl, hss⟩ := Option.map_eq_some_iff.1 h.symm
    simp only [respond, slotSignature_eq_of_content e t cursor hss.symm,
      atCursor_eq_of_content hss.symm]

/-- What is asked of a cache about the slot, if anything, is the call shape of a function
    that is not bound. -/
theorem slotSignature_cases (c : Cache) (ss : List Summary) :
    (∀ shape, e.slotSignature c t cursor (t.slot e.config cursor) ss =
        (e.shapeAt t cursor ss shape, c)) ∨
      ∃ function index, t.slot e.config cursor = .argument function index ∧
        (t.scopeAt e.config cursor ss).get? function = none ∧
        e.slotSignature c t cursor (t.slot e.config cursor) ss = c.consult function ss ∧
        ∀ shape, e.shapeAt t cursor ss shape = shape := by
  simp only [shapeAt]
  cases hslot : t.slot e.config cursor with
  | argument function index =>
    cases hget : (t.scopeAt e.config cursor ss).get? function with
    | some b =>
      refine .inl fun _ => ?_
      dsimp only
      rw [slotSignature, signatureOf_eq, hget]
    | none =>
      refine .inr ⟨function, index, rfl, hget, ?_, fun _ => ?_⟩
      · rw [slotSignature, signatureOf_eq, hget]
      · dsimp only
        rw [hget]
  | _ => exact .inl fun _ => rfl

theorem respond_cases (c : Cache) (ss : List Summary) :
    (∀ shape, e.respond t cursor c (some ss) = (e.replyTo t cursor c shape (some ss), c)) ∨
      ∃ function index, t.slot e.config cursor = .argument function index ∧
        (t.scopeAt e.config cursor ss).get? function = none ∧
        e.respond t cursor c (some ss) =
          (e.replyTo t cursor c (c.consult function ss).1 (some ss),
            (c.consult function ss).2) := by
  have hslot : (Context.ofCursor t e.config cursor).slot = t.slot e.config cursor := rfl
  rcases e.slotSignature_cases t cursor c ss with h | ⟨function, index, hargument, hget, h, hshape⟩
  · refine .inl fun shape => ?_
    simp only [respond, replyTo, hslot, h shape]
  · refine .inr ⟨function, index, hargument, hget, ?_⟩
    have husage := (c.learns_consult function ss).1.usage_eq
    simp only [respond, replyTo, hslot, h, hshape, e.answer_eq_of_usage husage]

end

variable {c : Cache} {looks : List Look}

/-- A request is answered as if the files had been scanned, with the call shape that the cache
    recalls. It is remembered together with the looks before, and the cache learns nothing but
    what was asked for. -/
theorem complete_of_remembers (h : c.Remembers looks)
    (hcoherent : Coherent c.digest (e.looks t cursor currentFile ++ looks)) :
    (e.complete c t cursor currentFile).1 = e.reply t cursor currentFile c
        ((e.asked? t cursor currentFile).bind fun function =>
          (c.consult function (e.look currentFile).summaries).1) ∧
      (e.complete c t cursor currentFile).2.Remembers
        (e.looks t cursor currentFile ++ looks) ∧
      c.Learns (e.complete c t cursor currentFile).2 (e.asked? t cursor currentFile)
        (e.look currentFile).summaries := by
  have hsub : looks ⊆ e.looks t cursor currentFile ++ looks := List.subset_append_right ..
  rw [complete_eq, reply]
  by_cases hmute : isMute cursor (t.slot e.config cursor) = true
  · rw [if_pos hmute, if_pos hmute]
    exact ⟨rfl, h.mono hsub, (Cache.SameMemos.refl c).learns _ _⟩
  rw [if_neg hmute, if_neg hmute]
  by_cases hneeds : (t.slot e.config cursor).needsProject = true
  · have hlooks : e.looks t cursor currentFile = [e.look currentFile] := by
      rw [Engine.looks, hneeds, Bool.eq_false_iff.2 hmute]
      rfl
    rw [if_pos hneeds, if_pos hneeds]
    rw [hlooks] at hcoherent ⊢
    generalize hl : e.look currentFile = l at *
    obtain ⟨hremembers, hgiven⟩ := h.look hcoherent
    have hsame := c.sameMemos_look l
    have hfound : (c.look l).1.map (·.map Summary.content) =
        (if l.isBroken then none else some l.summaries).map (·.map Summary.content) := by
      rw [hgiven]
      split <;> rfl
    rw [respond_eq_of_content e t cursor hfound]
    by_cases hbroken : l.isBroken = true
    · rw [if_pos hbroken]
      exact ⟨rfl, hremembers, hsame.learns _ _⟩
    rw [if_neg hbroken]
    rcases e.respond_cases t cursor (c.look l).2 l.summaries with
      hrespond | ⟨function, index, hargument, hget, hrespond⟩
    · rw [hrespond, e.replyTo_eq_of_usage t cursor hsame.usage_eq]
      exact ⟨rfl, hremembers, hsame.learns _ _⟩
    · have hasked : e.asked? t cursor currentFile = some function := by
        rw [asked?_eq_some_iff, hl]
        exact ⟨⟨index, hargument⟩, Bool.eq_false_iff.2 hmute, Bool.eq_false_iff.2 hbroken, hget⟩
      rw [hrespond, hasked, hsame.fst_consult_eq, e.replyTo_eq_of_usage t cursor hsame.usage_eq]
      exact ⟨rfl, hremembers.consult _ _, (Cache.learns_consult _ _ _).1.of_sameMemos hsame⟩
  · rw [if_neg hneeds, if_neg hneeds]
    rcases e.respond_cases t cursor c [] with hrespond | ⟨function, index, hargument, -⟩
    · rw [hrespond]
      exact ⟨rfl, h.mono hsub, (Cache.SameMemos.refl c).learns _ _⟩
    · rw [hargument] at hneeds
      exact absurd rfl hneeds

end Engine

/-! ### Requests and their histories -/

/-- A request for what can be typed at a place in a text, to an engine that sees its project
    as it is at the time. -/
structure Request where
  engine : Engine
  source : List Char
  offset : Nat
  currentFile : Option String

namespace Request

variable (r : Request)

/-- The tree with the placeholder put in, and the cursor there. -/
def cursor : Except RequestError (Tree × Cursor) :=
  Cursor.inSource r.engine.config r.source r.offset

/-- The answer with a given cache. -/
def answer (c : Cache) : Except RequestError (List Candidate) :=
  (r.engine.completeSource c r.source r.offset r.currentFile).map Prod.fst

/-- The cache after the request. -/
def leaves (c : Cache) : Cache :=
  match r.engine.completeSource c r.source r.offset r.currentFile with
  | .ok (_, c') => c'
  | .error _ => c

/-- How the request looks at the project. -/
def look : Look := r.engine.look r.currentFile

/-- The looks that the request takes at the project, none or one. -/
def looks : List Look :=
  match r.cursor with
  | .ok (t, cursor) => r.engine.looks t cursor r.currentFile
  | .error _ => []

/-- The function for which the request has to find out the call shape, if any. -/
def asked? : Option String :=
  match r.cursor with
  | .ok (t, cursor) => r.engine.asked? t cursor r.currentFile
  | .error _ => none

/-- The call shape of a function in the catalogue, or else in the files that the request
    looks at. -/
def shape (function : String) : Option String := shapeIn r.look.summaries function

/-- The call shape that the request has to find out, as it does with a given cache. -/
def recalled (c : Cache) : Option String :=
  r.asked?.bind fun function => (c.consult function r.look.summaries).1

/-- The answer if the call shape that the request has to find out is `shape`. -/
def reply (c : Cache) (shape : Option String) : Except RequestError (List Candidate) :=
  match r.cursor with
  | .ok (t, cursor) => .ok (r.engine.reply t cursor r.currentFile c shape)
  | .error error => .error error

theorem completeSource_eq (c : Cache) :
    r.engine.completeSource c r.source r.offset r.currentFile =
      r.cursor.map fun found => r.engine.complete c found.1 found.2 r.currentFile := by
  rw [Engine.completeSource, cursor]
  cases Cursor.inSource r.engine.config r.source r.offset <;> rfl

variable {r} {c : Cache}

theorem reply_eq_of_usage {c' : Cache} (h : c'.usage = c.usage) (shape : Option String) :
    r.reply c' shape = r.reply c shape := by
  rw [reply, reply]
  split
  · rw [Engine.reply_eq_of_usage _ _ _ _ h]
  · rfl

/-- What a request does with a cache that remembers some looks. -/
theorem of_remembers {before : List Look} (h : c.Remembers before)
    (hcoherent : Coherent c.digest (r.looks ++ before)) :
    r.answer c = r.reply c (r.recalled c) ∧ (r.leaves c).Remembers (r.looks ++ before) ∧
      c.Learns (r.leaves c) r.asked? r.look.summaries := by
  rw [answer, leaves, recalled, completeSource_eq]
  simp only [reply, looks, asked?] at hcoherent ⊢
  cases hcursor : r.cursor with
  | error error => exact ⟨rfl, h, (Cache.SameMemos.refl c).learns _ _⟩
  | ok found =>
    obtain ⟨t, cursor⟩ := found
    rw [hcursor] at hcoherent
    obtain ⟨hanswer, hremembers, hlearns⟩ := Engine.complete_of_remembers h hcoherent
    exact ⟨congrArg Except.ok hanswer, hremembers, hlearns⟩

end Request

namespace Cache

variable {c : Cache} {history : List Request} {r : Request}

/-- The cache stands for a history of requests: it remembers what they looked at, and its
    memos hold what they have found out. -/
structure Stands (c : Cache) (history : List Request) : Prop where
  remembers : c.Remembers (history.flatMap Request.looks)
  symbols : ∀ x ∈ c.symbols, ∃ r ∈ history, ∃ f ∈ r.asked?, x = (f, isKnownIn r.look.summaries f)
  signatures : ∀ x ∈ c.signatures, ∃ r ∈ history, ∃ f ∈ r.asked?, x = (f, r.shape f)

/-- The cache after some requests. -/
def after (c : Cache) (history : List Request) : Cache := history.foldl (fun c r => r.leaves c) c

theorem Stands.mono {history' : List Request} (h : c.Stands history) (hsub : history ⊆ history') :
    c.Stands history' := by
  refine ⟨h.remembers.mono fun l hl => ?_, fun x hx => ?_, fun x hx => ?_⟩
  · obtain ⟨r, hr, hl⟩ := List.mem_flatMap.1 hl
    exact List.mem_flatMap.2 ⟨r, hsub hr, hl⟩
  · obtain ⟨r, hr, hasked⟩ := h.symbols x hx
    exact ⟨r, hsub hr, hasked⟩
  · obtain ⟨r, hr, hasked⟩ := h.signatures x hx
    exact ⟨r, hsub hr, hasked⟩

/-- What one request keeps. -/
theorem Stands.leaves (h : c.Stands history)
    (hcoherent : Coherent c.digest ((r :: history).flatMap Request.looks)) :
    (r.leaves c).Stands (r :: history) ∧ (r.leaves c).usage = c.usage ∧
      (r.leaves c).digest = c.digest := by
  rw [List.flatMap_cons] at hcoherent
  obtain ⟨-, hremembers, hlearns⟩ := Request.of_remembers h.remembers hcoherent
  refine ⟨⟨?_, fun x hx => ?_, fun x hx => ?_⟩, hlearns.usage_eq, hlearns.digest_eq⟩
  · rw [List.flatMap_cons]
    exact hremembers
  · rcases hlearns.symbols x hx with hx | hnew
    · obtain ⟨r', hr', hasked⟩ := h.symbols x hx
      exact ⟨r', List.mem_cons_of_mem _ hr', hasked⟩
    · exact ⟨r, List.mem_cons_self, hnew⟩
  · rcases hlearns.signatures x hx with hx | hnew
    · obtain ⟨r', hr', hasked⟩ := h.signatures x hx
      exact ⟨r', List.mem_cons_of_mem _ hr', hasked⟩
    · exact ⟨r, List.mem_cons_self, hnew⟩

/-- What any number of requests keeps. -/
theorem Stands.after (h : c.Stands history) {further : List Request}
    (hcoherent : Coherent c.digest ((further ++ history).flatMap Request.looks)) :
    (c.after further).Stands (further ++ history) ∧ (c.after further).usage = c.usage ∧
      (c.after further).digest = c.digest := by
  induction further generalizing c history with
  | nil => exact ⟨h, rfl, rfl⟩
  | cons r further ih =>
    have hmoved : further ++ r :: history ⊆ r :: further ++ history := List.perm_middle.subset
    have hmono : ∀ {requests : List Request}, requests ⊆ r :: further ++ history →
        Coherent c.digest (requests.flatMap Request.looks) := by
      intro requests hsub
      refine hcoherent.mono fun l hl => ?_
      obtain ⟨r', hr', hl⟩ := List.mem_flatMap.1 hl
      exact List.mem_flatMap.2 ⟨r', hsub hr', hl⟩
    have hnow := hmono (List.Subset.trans (List.subset_append_right further _) hmoved)
    obtain ⟨hstands, husage, hdigest⟩ := h.leaves hnow
    obtain ⟨hrest, husage', hdigest'⟩ := ih hstands (hdigest ▸ hmono hmoved)
    exact ⟨hrest.mono hmoved, husage'.trans husage, hdigest'.trans hdigest⟩

/-- A call shape that is recalled is as the request finds it, or as an earlier request has
    found it. -/
theorem Stands.recalled_cases (h : c.Stands history) {function : String}
    (hasked : r.asked? = some function) : r.recalled c = r.shape function ∨
      ∃ r' ∈ history, r'.asked? = some function ∧ r.recalled c = r'.shape function := by
  have hrecalled : r.recalled c = (c.consult function r.look.summaries).1 := by
    rw [Request.recalled, hasked, Option.bind_some]
  rw [hrecalled]
  rcases c.fst_consult_cases function r.look.summaries with hfiles | ⟨hsymbol, hnone⟩ | hsignature
  · exact .inl hfiles
  · obtain ⟨r', hr', f, hf, heq⟩ := h.symbols _ hsymbol
    obtain ⟨rfl, hknown⟩ := Prod.mk.inj heq
    exact .inr ⟨r', hr', hf, hnone.trans (shapeIn_eq_none hknown.symm).symm⟩
  · obtain ⟨r', hr', f, hf, heq⟩ := h.signatures _ hsignature
    obtain ⟨rfl, hshape⟩ := Prod.mk.inj heq
    exact .inr ⟨r', hr', hf, hshape⟩

/-- The cache remembers nothing but how often names were accepted. -/
structure IsFresh (c : Cache) : Prop where
  symbols_eq : c.symbols = []
  signatures_eq : c.signatures = []
  summaries_eq : c.summaries = []

/-- The cache that remembers nothing else but the call shape of a name. -/
def recalling (c : Cache) (name : String) (shape : Option String) : Cache :=
  { c with symbols := [(name, true)], signatures := [(name, shape)], summaries := [] }

theorem IsFresh.stands (h : c.IsFresh) : c.Stands [] where
  remembers := remembers_of_nil h.summaries_eq _
  symbols _ hx := absurd (h.symbols_eq ▸ hx) List.not_mem_nil
  signatures _ hx := absurd (h.signatures_eq ▸ hx) List.not_mem_nil

theorem IsFresh.recalled_eq (h : c.IsFresh) : r.recalled c = r.asked?.bind r.shape := by
  cases hasked : r.asked? with
  | none => rw [Request.recalled, hasked]; rfl
  | some function =>
    rcases h.stands.recalled_cases hasked with hshape | ⟨r', hr', -⟩
    · exact hshape
    · exact absurd hr' List.not_mem_nil

theorem recalled_recalling {function : String} (hasked : r.asked? = some function)
    (shape : Option String) : r.recalled (c.recalling function shape) = shape := by
  rw [Request.recalled, hasked, Option.bind_some, fst_consult, recalling]
  simp

end Cache

/-- The request is answered as with the fresh cache, but with a call shape that an earlier
    request has found: the function is not bound, has no call shape in the catalogue, and has
    another one in the files that this request looks at. -/
def Request.AnswersFrom (r : Request) (history : List Request) (c fresh : Cache) : Prop :=
  ∃ function, r.asked? = some function ∧ cataloguedShape function = none ∧
    ∃ r' ∈ history, r'.asked? = some function ∧ r'.shape function ≠ r.shape function ∧
      r.answer c = r.answer (fresh.recalling function (r'.shape function))

/-- After any history of coherent requests, a request is answered as with a fresh cache that has
    the same counters, unless it has to find out a call shape and an earlier request has found
    another one. -/
theorem Request.answer_after {c fresh : Cache} (hc : c.IsFresh) (hfresh : fresh.IsFresh)
    (husage : fresh.usage = c.usage) (history : List Request) (r : Request)
    (hcoherent : Coherent c.digest ((r :: history).flatMap looks))
    (hself : Coherent fresh.digest r.looks) :
    r.answer (c.after history) = r.answer fresh ∨
      r.AnswersFrom history (c.after history) fresh := by
  have hhistory : Coherent c.digest ((history ++ []).flatMap looks) := by
    rw [List.append_nil]
    exact hcoherent.mono (by rw [List.flatMap_cons]; exact List.subset_append_right _ _)
  obtain ⟨hstands, husage', hdigest⟩ := hc.stands.after hhistory
  rw [List.append_nil] at hstands
  -- all answers are replies, with the same counters and various call shapes
  have hanswer : r.answer (c.after history) = r.reply fresh (r.recalled (c.after history)) := by
    rw [List.flatMap_cons, ← hdigest] at hcoherent
    rw [(of_remembers hstands.remembers hcoherent).1,
      reply_eq_of_usage (husage'.trans husage.symm)]
  rw [← List.append_nil r.looks] at hself
  have hfresh' : r.answer fresh = r.reply fresh (r.asked?.bind r.shape) := by
    rw [(of_remembers hfresh.stands.remembers hself).1, hfresh.recalled_eq]
  cases hasked : r.asked? with
  | none =>
    left
    rw [hanswer, hfresh', recalled, hasked]
    rfl
  | some function =>
    rw [hasked] at hfresh'
    rcases hstands.recalled_cases hasked with hshape | ⟨r', hr', hasked', hshape⟩
    · left
      rw [hanswer, hfresh', hshape]
      rfl
    by_cases heq : r'.shape function = r.shape function
    · left
      rw [hanswer, hfresh', hshape, heq]
      rfl
    · refine .inr ⟨function, hasked, cataloguedShape_eq_none heq, r', hr', hasked', heq, ?_⟩
      have hrecalling : (fresh.recalling function (r'.shape function)).Remembers [] :=
        Cache.remembers_of_nil rfl _
      rw [hanswer, hshape, (of_remembers hrecalling hself).1, Cache.recalled_recalling hasked]
      exact (reply_eq_of_usage rfl _).symm

end Typeahead
