import Typeahead.Engine.Basic
import Typeahead.Proofs.Construction

/-!
# The shape of answers

Whatever is offered at a cursor goes through one sink and one ranking. The sink
keeps candidates that fit what has been typed and have different keys; ranking
sorts them by their tiers and cuts the list off. What happens to a candidate in
between, a note on its use and a better tier, changes neither its key nor its
text. So every answer has the same shape (`IsAnswer`), whatever the slot, the
settings, the project and the cache.

* `Sink.WellKept.pushAll`: what one candidate keeps of a sink, any number does;
* `Candidate.isAnswer_rank`: ranking candidates that were well kept gives an
  answer;
* `Engine.completeSource_isAnswer`: every request in a text has an answer.
-/

namespace Typeahead

/-- Whether accepting the candidate inserts its own text or a form that the text
    names. -/
def Candidate.isNamed (c : Candidate) : Bool :=
  match c.insertion with
  | .plain | .template _ => true
  | _ => false

/-- The candidates are an answer at a cursor where `typed` has been typed. -/
structure IsAnswer (typed : String) (limit : Option Nat) (cs : List Candidate) : Prop where
  /-- Better tiers come first. -/
  sorted : cs.Pairwise fun c d => c.priority ≤ d.priority
  nodup_keys : (cs.map Candidate.key).Nodup
  /-- Names start with what has been typed, in letters of either case. -/
  fits : ∀ c ∈ cs, c.isNamed = true → lowercase typed.toList <+: lowercase c.text.toList
  length_le : ∀ n ∈ limit, cs.length ≤ n

theorem Candidate.fits_iff {typed : List Char} {c : Candidate} :
    c.fits typed = true ↔ (c.isNamed = true → typed <+: lowercase c.text.toList) := by
  rw [Candidate.fits, Candidate.isNamed]
  cases c.insertion <;> simp

/-! ### Sinks -/

namespace Sink

variable {s : Sink}

/-- The candidates of a sink fit what has been typed and have different keys. -/
structure WellKept (s : Sink) : Prop where
  nodup_keys : (s.candidates.map Candidate.key).Nodup
  fits : ∀ c ∈ s.candidates, c.fits s.typed = true

theorem wellKept_new (typed : String) : (new typed).WellKept :=
  ⟨List.nodup_nil, fun _ h => absurd h List.not_mem_nil⟩

theorem contains_iff {key : String} :
    s.contains key = true ↔ key ∈ s.candidates.map Candidate.key := by
  simp [contains]

@[simp] theorem typed_push (s : Sink) (c : Candidate) : (s.push c).typed = s.typed := by
  rw [push]
  split <;> rfl

@[simp] theorem typed_pushAll (s : Sink) (cs : List Candidate) : (s.pushAll cs).typed = s.typed := by
  induction cs generalizing s with
  | nil => rfl
  | cons c cs ih => exact (ih (s.push c)).trans (s.typed_push c)

theorem WellKept.push (h : s.WellKept) (c : Candidate) : (s.push c).WellKept := by
  rw [Sink.push]
  split
  · next hc =>
    rw [admits, Bool.and_eq_true, Bool.not_eq_true', Bool.eq_false_iff, ne_eq, contains_iff] at hc
    obtain ⟨hfits, hnew⟩ := hc
    constructor
    · rw [List.map_append, List.nodup_append]
      refine ⟨h.nodup_keys, by simp, fun a ha b hb hab => hnew ?_⟩
      rwa [← List.mem_singleton.1 hb, ← hab]
    · intro d hd
      rcases List.mem_append.1 hd with hd | hd
      · exact h.fits d hd
      · rw [List.mem_singleton.1 hd]
        exact hfits
  · exact h

/-- A sink that takes any number of candidates stays well kept. -/
theorem WellKept.pushAll (h : s.WellKept) (cs : List Candidate) : (s.pushAll cs).WellKept := by
  induction cs generalizing s with
  | nil => exact h
  | cons c cs ih => exact ih (h.push c)

/-- A candidate that fits is taken, unless its key is there already. -/
theorem key_mem_push (s : Sink) {c : Candidate} (hc : c.fits s.typed = true) :
    c.key ∈ (s.push c).candidates.map Candidate.key := by
  rw [push, admits, hc, Bool.true_and]
  split
  · simp
  · next h => rwa [Bool.not_eq_true', Bool.not_eq_false, contains_iff] at h

theorem candidates_subset_push (s : Sink) (c : Candidate) :
    s.candidates ⊆ (s.push c).candidates := by
  rw [push]
  split
  · exact List.subset_append_left _ _
  · exact List.Subset.refl _

/-- A sink gives nothing back. -/
theorem candidates_subset_pushAll (s : Sink) (cs : List Candidate) :
    s.candidates ⊆ (s.pushAll cs).candidates := by
  induction cs generalizing s with
  | nil => exact List.Subset.refl _
  | cons c cs ih => exact List.Subset.trans (s.candidates_subset_push c) (ih (s.push c))

/-- No key of a candidate that fits is lost. -/
theorem key_mem_pushAll (s : Sink) {c : Candidate} {cs : List Candidate} (hmem : c ∈ cs)
    (hc : c.fits s.typed = true) : c.key ∈ (s.pushAll cs).candidates.map Candidate.key := by
  induction cs generalizing s with
  | nil => exact absurd hmem List.not_mem_nil
  | cons d cs ih =>
    rcases List.mem_cons.1 hmem with rfl | hmem
    · exact List.map_subset _ (candidates_subset_pushAll _ cs) (s.key_mem_push hc)
    · exact ih (s.push d) hmem (by rwa [typed_push])

theorem candidates_push_subset (s : Sink) (c : Candidate) :
    (s.push c).candidates ⊆ s.candidates ++ [c] := by
  rw [push]
  split
  · exact List.Subset.refl _
  · exact List.subset_append_left _ _

/-- A sink has nothing but what it had and was given. -/
theorem candidates_pushAll_subset (s : Sink) (cs : List Candidate) :
    (s.pushAll cs).candidates ⊆ s.candidates ++ cs := by
  induction cs generalizing s with
  | nil => exact List.subset_append_left _ _
  | cons c cs ih =>
    intro d hd
    have hd := ih (s.push c) hd
    rw [List.append_cons]
    rcases List.mem_append.1 hd with hd | hd
    · exact List.mem_append_left _ (s.candidates_push_subset c hd)
    · exact List.mem_append_right _ hd

end Sink

/-! ### Ranking -/

namespace Candidate

/-- The candidates differ at most in their hints, call shapes, descriptions and
    tiers. -/
structure Alike (c d : Candidate) : Prop where
  text_eq : c.text = d.text
  display_eq : c.display = d.display
  insertion_eq : c.insertion = d.insertion

variable {c d : Candidate}

theorem Alike.trans {b : Candidate} (h : Alike b c) (h' : Alike c d) : Alike b d :=
  ⟨h.text_eq.trans h'.text_eq, h.display_eq.trans h'.display_eq,
    h.insertion_eq.trans h'.insertion_eq⟩

theorem Alike.key_eq (h : Alike c d) : c.key = d.key := by
  rw [key, key, h.text_eq, h.display_eq, h.insertion_eq]

theorem Alike.fits_eq (h : Alike c d) (typed : List Char) : c.fits typed = d.fits typed := by
  rw [Candidate.fits, Candidate.fits, h.text_eq, h.insertion_eq]

theorem alike_adjust (called : Option String) (c : Candidate) : Alike (c.adjust called) c := by
  rw [adjust]
  split <;> exact ⟨rfl, rfl, rfl⟩

theorem alike_withUsage (cache : Cache) (c : Candidate) : Alike (Engine.withUsage cache c) c := by
  rw [Engine.withUsage.eq_def]
  split
  · exact ⟨rfl, rfl, rfl⟩
  · split
    · exact ⟨rfl, rfl, rfl⟩
    · -- only the hint is new, whether there was one before or not
      cases c.hint <;> exact ⟨rfl, rfl, rfl⟩

theorem precedes_iff {tie : TieBreak} : precedes tie c d = true ↔
    c.priority.rank < d.priority.rank ∨
      c.priority.rank = d.priority.rank ∧ (tie = .alphabetical → c.display ≤ d.display) := by
  cases tie
  · simp only [precedes, decide_eq_true_eq, reduceCtorEq, false_implies, and_true]
    exact Nat.le_iff_lt_or_eq
  · simp [precedes]

theorem precedes_trans {tie : TieBreak} (a b c : Candidate) (hab : precedes tie a b = true)
    (hbc : precedes tie b c = true) : precedes tie a c = true := by
  rw [precedes_iff] at *
  rcases hab with hab | ⟨hab, habs⟩
  · rcases hbc with hbc | ⟨hbc, -⟩ <;> exact .inl (by omega)
  rcases hbc with hbc | ⟨hbc, hbcs⟩
  · exact .inl (by omega)
  · exact .inr ⟨hab.trans hbc, fun h => String.le_trans (habs h) (hbcs h)⟩

theorem precedes_total {tie : TieBreak} (a b : Candidate) :
    (precedes tie a b || precedes tie b a) = true := by
  rw [Bool.or_eq_true, precedes_iff, precedes_iff]
  rcases Nat.lt_trichotomy a.priority.rank b.priority.rank with h | h | h
  · exact .inl (.inl h)
  · rcases String.le_total a.display b.display with hle | hle
    · exact .inl (.inr ⟨h, fun _ => hle⟩)
    · exact .inr (.inr ⟨h.symm, fun _ => hle⟩)
  · exact .inr (.inl h)

theorem le_of_precedes {tie : TieBreak} (h : precedes tie c d = true) : c.priority ≤ d.priority := by
  have hrank : c.priority.rank ≤ d.priority.rank := by
    rcases precedes_iff.1 h with h | ⟨h, -⟩ <;> omega
  exact hrank

variable (called : Option String) (criteria : Criteria) (cs : List Candidate)

/-- The ranked candidates are the first ones of a sorted list of all of them. -/
theorem exists_rank_eq : ∃ sorted : List Candidate,
    sorted.Perm (cs.map (adjust called)) ∧
      sorted.Pairwise (fun c d => c.priority ≤ d.priority) ∧
      rank called criteria cs = sorted.take (criteria.maxResults.getD cs.length) := by
  refine ⟨(cs.map (adjust called)).mergeSort (precedes criteria.tieBreak),
    List.mergeSort_perm _ _, ?_, ?_⟩
  · exact (List.pairwise_mergeSort precedes_trans precedes_total _).imp le_of_precedes
  · rw [rank]
    cases criteria.maxResults with
    | some n => rfl
    | none => exact (List.take_of_length_le (by simp)).symm

theorem length_rank_le : ∀ n ∈ criteria.maxResults, (rank called criteria cs).length ≤ n := by
  obtain ⟨sorted, -, -, heq⟩ := exists_rank_eq called criteria cs
  intro n hn
  rw [heq, Option.mem_def.1 hn]
  exact List.length_take_le _ _

/-- Every candidate of a ranking is like one that was ranked. -/
theorem exists_alike_of_mem_rank {d : Candidate} (hd : d ∈ rank called criteria cs) :
    ∃ c ∈ cs, Alike d c := by
  obtain ⟨sorted, hperm, -, heq⟩ := exists_rank_eq called criteria cs
  rw [heq] at hd
  obtain ⟨c, hc, rfl⟩ := List.mem_map.1 (hperm.subset (List.mem_of_mem_take hd))
  exact ⟨c, hc, alike_adjust called c⟩

theorem map_key_adjust : (cs.map (adjust called)).map key = cs.map key := by
  rw [List.map_map]
  exact List.map_congr_left fun c _ => (alike_adjust called c).key_eq

variable {cs}

/-- Ranking candidates that fit and have different keys gives an answer. -/
theorem isAnswer_rank {typed : String} (hkeys : (cs.map key).Nodup)
    (hfits : ∀ c ∈ cs, c.fits (lowercase typed.toList) = true) :
    IsAnswer typed criteria.maxResults (rank called criteria cs) := by
  obtain ⟨sorted, hperm, hsorted, heq⟩ := exists_rank_eq called criteria cs
  refine ⟨?_, ?_, fun d hd hnamed => ?_, length_rank_le called criteria cs⟩
  · rw [heq]
    exact hsorted.sublist (List.take_sublist _ _)
  · rw [heq]
    refine List.Nodup.sublist ((List.take_sublist _ _).map key) ?_
    rw [(hperm.map key).nodup_iff, map_key_adjust]
    exact hkeys
  · obtain ⟨c, hc, halike⟩ := exists_alike_of_mem_rank called criteria cs hd
    have hd : d.fits (lowercase typed.toList) = true := halike.fits_eq _ ▸ hfits c hc
    exact fits_iff.1 hd hnamed

/-- Without a limit, ranking loses no candidate. -/
theorem mem_rank (hlimit : criteria.maxResults = none) (hc : c ∈ cs) :
    c.adjust called ∈ rank called criteria cs := by
  obtain ⟨sorted, hperm, -, heq⟩ := exists_rank_eq called criteria cs
  have hlength : sorted.length ≤ cs.length := by simp [hperm.length_eq]
  rw [heq, hlimit, Option.getD_none, List.take_of_length_le hlength]
  exact hperm.mem_iff.2 (List.mem_map_of_mem hc)

theorem key_mem_rank (hlimit : criteria.maxResults = none) {k : String} (hk : k ∈ cs.map key) :
    k ∈ (rank called criteria cs).map key := by
  obtain ⟨c, hc, rfl⟩ := List.mem_map.1 hk
  exact List.mem_map.2 ⟨_, mem_rank called criteria hlimit hc, (alike_adjust called c).key_eq⟩

end Candidate

/-! ### Requests -/

/-- The project may be unavailable, but does not break down. -/
structure Project.Steady (p : Project) : Prop where
  paths : ∀ limit, p.paths limit ≠ .error .breakdown
  read : ∀ path, p.read path ≠ .error .breakdown

/-- Documents that no access breaks down are a steady project. -/
theorem Documents.steady_toProject {d : Documents} (h : d.broken = none) : d.toProject.Steady where
  paths limit := by
    change d.paths limit ≠ _
    rw [Documents.paths, h]
    cases d.isListable <;> simp
  read path := by
    change d.read path ≠ _
    rw [Documents.read, h, if_neg (by simp)]
    split
    · simp
    · split <;> simp

namespace Cache

variable {p : Project}

theorem isSome_summariesOf (hp : p.Steady) (maxText : Nat) (excluded : Option String)
    (cache : Cache) (paths : List String) :
    (summariesOf p maxText excluded cache paths).1.isSome = true := by
  induction paths generalizing cache with
  | nil => rfl
  | cons path paths ih =>
    rw [summariesOf]
    split
    · exact ih cache
    split
    · rw [Option.isSome_map]
      exact ih _
    · exact ih cache
    · next hread => exact absurd hread (hp.read path)

theorem isSome_projectSummaries (hp : p.Steady) (cache : Cache) (maxFiles maxText : Nat)
    (excluded : Option String) :
    (cache.projectSummaries p maxFiles maxText excluded).1.isSome = true := by
  rw [projectSummaries]
  split
  · exact isSome_summariesOf hp maxText excluded cache _
  · rfl
  · next hpaths => exact absurd hpaths (hp.paths maxFiles)

end Cache

/-- At every boundary of a text the placeholder can be put in and the cursor
    found. -/
theorem Cursor.exists_inSource_eq_ok (config : Config) {cs : List Char} {offset : Nat}
    (h : isBoundary cs offset = true) : ∃ t c, inSource config cs offset = .ok (t, c) := by
  obtain ⟨⟨u, v⟩, hsplit⟩ := Option.isSome_iff_exists.1 h
  obtain ⟨rfl, rfl⟩ := append_of_splitAtByte? hsplit
  have hinsert : insertAt (u ++ v) (byteLength u) config.placeholder.toList =
      .ok (u ++ config.placeholder.toList ++ v) := by
    rw [insertAt, splitAtByte?_append]
  generalize ht : Tree.read (u ++ config.placeholder.toList ++ v) = t
  have hsource : t.source = u ++ (config.placeholder.toList ++ v) := by
    rw [← ht, ← List.append_assoc]
    exact Builder.source_reading _
  have hlocate : ∃ c, locate t config (byteLength u) = .ok c := by
    have hle : byteLength u ≤ t.length := by
      rw [Tree.length, hsource, byteLength_append]
      exact Nat.le_add_right ..
    refine ⟨ofLocation t config (t.root.findAt (byteLength u) []) (byteLength u), ?_⟩
    rw [locate, isBoundary, hsource, splitAtByte?_append, Tree.findAt?, if_pos hle]
    rfl
  obtain ⟨c, hc⟩ := hlocate
  refine ⟨t, c, ?_⟩
  rw [inSource, hinsert]
  simp only [bind, Except.bind, ht, hc, pure, Except.pure]

namespace Engine

variable (e : Engine)

theorem isSome_summaries (he : ∀ p ∈ e.project, p.Steady) (cache : Cache)
    (currentFile : Option String) : (e.summaries cache currentFile).1.isSome = true := by
  rw [summaries]
  split
  · next p hp => exact Cache.isSome_projectSummaries (he p hp) ..
  · rfl

theorem map_key_withUsage (cache : Cache) (cs : List Candidate) :
    (cs.map (withUsage cache)).map Candidate.key = cs.map Candidate.key := by
  rw [List.map_map]
  exact List.map_congr_left fun c _ => (Candidate.alike_withUsage cache c).key_eq

section

variable (cache : Cache) (context : Context) (cs : List Candidate)

/-- What is made of any candidates is an answer. -/
theorem isAnswer_answer :
    IsAnswer context.typed e.criteria.maxResults (e.answer cache context cs) := by
  have hkept := (Sink.wellKept_new context.typed).pushAll cs
  refine Candidate.isAnswer_rank _ _ ?_ fun d hd => ?_
  · rw [map_key_withUsage]
    exact hkept.nodup_keys
  · obtain ⟨c, hc, rfl⟩ := List.mem_map.1 hd
    rw [(Candidate.alike_withUsage cache c).fits_eq]
    have hfits := hkept.fits c hc
    rwa [Sink.typed_pushAll] at hfits

/-- Without a limit, nothing that fits is missing in what is made of it. -/
theorem key_mem_answer (hlimit : e.criteria.maxResults = none) {c : Candidate} (hc : c ∈ cs)
    (hfits : c.fits (lowercase context.typed.toList) = true) :
    c.key ∈ (e.answer cache context cs).map Candidate.key := by
  refine Candidate.key_mem_rank _ _ hlimit ?_
  rw [map_key_withUsage]
  exact Sink.key_mem_pushAll _ hc hfits

/-- What is made of candidates has no other keys than these. -/
theorem keys_answer_subset :
    (e.answer cache context cs).map Candidate.key ⊆ cs.map Candidate.key := by
  intro k hk
  obtain ⟨d, hd, rfl⟩ := List.mem_map.1 hk
  obtain ⟨d', hd', halike⟩ := Candidate.exists_alike_of_mem_rank _ _ _ hd
  obtain ⟨c, hc, rfl⟩ := List.mem_map.1 hd'
  rw [(halike.trans (Candidate.alike_withUsage cache c)).key_eq]
  exact List.mem_map_of_mem (Sink.candidates_pushAll_subset _ cs hc)

end

/-- If the project is steady, a request is answered by nothing in a string or a
    comment, and else by what is offered for some summaries of its files. -/
theorem complete_cases (he : ∀ p ∈ e.project, p.Steady) (cache : Cache) (t : Tree) (c : Cursor)
    (currentFile : Option String) :
    if isMute c (t.slot e.config c) = true then (e.complete cache t c currentFile).1 = []
    else ∃ cache' summaries signature, (e.complete cache t c currentFile).1 =
      e.answer cache' (Context.ofCursor t e.config c)
        (Offer.atCursor t e.config c (Context.ofCursor t e.config c) summaries signature) := by
  have hslot : (Context.ofCursor t e.config c).slot = t.slot e.config c := rfl
  rw [complete, hslot]
  generalize t.slot e.config c = slot
  have hfound : ∃ summaries cache',
      (if slot.needsProject then e.summaries cache currentFile else (some [], cache)) =
        (some summaries, cache') := by
    split
    · obtain ⟨summaries, hsummaries⟩ :=
        Option.isSome_iff_exists.1 (e.isSome_summaries he cache currentFile)
      exact ⟨summaries, _, Prod.ext hsummaries rfl⟩
    · exact ⟨[], cache, rfl⟩
  obtain ⟨summaries, cache', hfound⟩ := hfound
  split
  · rfl
  · rw [hfound]
    exact ⟨(e.slotSignature cache' t c slot summaries).2, summaries,
      (e.slotSignature cache' t c slot summaries).1, rfl⟩

/-- Every request at a boundary of a text has an answer: candidates by tiers, with
    different keys, that start with what has been typed if they stand for a name,
    and no more than the criteria allow, which for a new engine is what its settings
    allow. Outside of strings and comments an answer without a limit lacks nothing
    that is offered and fits. -/
theorem completeSource_isAnswer (he : ∀ p ∈ e.project, p.Steady) (cache : Cache) {cs : List Char}
    {offset : Nat} (hoffset : isBoundary cs offset = true) (currentFile : Option String) :
    ∃ t c answer cache', Cursor.inSource e.config cs offset = .ok (t, c) ∧
      e.completeSource cache cs offset currentFile = .ok (answer, cache') ∧
      IsAnswer c.typed e.criteria.maxResults answer ∧
      (isMute c (t.slot e.config c) = false → e.criteria.maxResults = none →
        ∃ summaries signature, ∀ d ∈ Offer.atCursor t e.config c (Context.ofCursor t e.config c)
            summaries signature,
          d.fits (lowercase c.typed.toList) = true → d.key ∈ answer.map Candidate.key) := by
  obtain ⟨t, c, hcursor⟩ := Cursor.exists_inSource_eq_ok e.config hoffset
  have hsource : e.completeSource cache cs offset currentFile =
      .ok (e.complete cache t c currentFile) := by
    rw [completeSource, hcursor]
    rfl
  refine ⟨t, c, (e.complete cache t c currentFile).1, (e.complete cache t c currentFile).2,
    hcursor, hsource, ?_⟩
  have hcases := e.complete_cases he cache t c currentFile
  split at hcases
  · next hmute =>
    rw [hcases]
    refine ⟨⟨.nil, List.nodup_nil, fun _ h => absurd h List.not_mem_nil, fun _ _ => Nat.zero_le _⟩,
      fun h => ?_⟩
    rw [hmute] at h
    cases h
  · obtain ⟨cache', summaries, signature, hanswer⟩ := hcases
    rw [hanswer]
    refine ⟨e.isAnswer_answer cache' (Context.ofCursor t e.config c) _,
      fun _ hlimit => ⟨summaries, signature, fun d hd hfits => ?_⟩⟩
    exact e.key_mem_answer cache' (Context.ofCursor t e.config c) _ hlimit hd hfits

/-- An engine for two answers, over documents of which the list is unavailable. -/
def limitedEngine : Engine :=
  { new { maxResults := some 2 } with
    project := some (Documents.toProject { files := [⟨"a.phel", "(def x 1)"⟩], isListable := false }) }

theorem completeSource_isAnswer_limited :
    (∀ p ∈ limitedEngine.project, p.Steady) ∧ isBoundary "(let [Defn 1] (DE ".toList 17 = true ∧
      ∃ t c answer cache',
        Cursor.inSource limitedEngine.config "(let [Defn 1] (DE ".toList 17 = .ok (t, c) ∧
        limitedEngine.completeSource .standard "(let [Defn 1] (DE ".toList 17 none =
          .ok (answer, cache') ∧
        IsAnswer c.typed (some 2) answer := by
  have hsteady : ∀ p ∈ limitedEngine.project, p.Steady := by
    intro p hp
    obtain rfl := Option.some.inj hp
    exact Documents.steady_toProject rfl
  have hoffset : isBoundary "(let [Defn 1] (DE ".toList 17 = true := by decide
  obtain ⟨t, c, answer, cache', hcursor, hanswer, hshape, -⟩ :=
    limitedEngine.completeSource_isAnswer hsteady .standard hoffset none
  exact ⟨hsteady, hoffset, t, c, answer, cache', hcursor, hanswer, hshape⟩

end Engine

end Typeahead
