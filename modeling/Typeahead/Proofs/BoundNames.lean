import Typeahead.Proofs.Answers
import Typeahead.Proofs.CallSlots
import Typeahead.Proofs.Collecting

/-!
# Bound names come first

Where a name can be used, the names that are bound at the cursor are offered before anything else.
The sink takes the first candidate of every key, and the names in a scope are different, so that no
value, entry of the catalogue or template can take the place of a bound name, and none can stand
beside it. What happens to its candidate later, a note on its use and a better tier, leaves what it
says about the binding.

* `Sink.mem_pushAll_append`: what comes first and fits is taken, if the keys there are different;
* `Candidate.StandsFor`: what a candidate says about a binding;
* `Engine.complete_boundNames`: every bound name that fits is offered, once.
-/

namespace Typeahead

/-! ### Sinks -/

namespace Sink

variable {s : Sink} {c : Candidate}

theorem mem_push (hfits : c.fits s.typed = true) (hnew : s.contains c.key = false) :
    c ∈ (s.push c).candidates := by
  rw [push, admits, hfits, hnew]
  exact List.mem_append_right _ (List.mem_singleton_self c)

theorem contains_push_of_ne {d : Candidate} (hne : d.key ≠ c.key)
    (hnew : s.contains c.key = false) : (s.push d).contains c.key = false := by
  rw [Bool.eq_false_iff, ne_eq, contains_iff] at hnew ⊢
  intro hmem
  obtain ⟨d', hd', hkey⟩ := List.mem_map.1 hmem
  rcases List.mem_append.1 (s.candidates_push_subset d hd') with hd' | hd'
  · exact hnew (List.mem_map.2 ⟨d', hd', hkey⟩)
  · rw [List.mem_singleton.1 hd'] at hkey
    exact hne hkey

/-- Of candidates with different keys, a sink without these keys takes all that fit. -/
theorem mem_pushAll {cs : List Candidate} (hkeys : (cs.map Candidate.key).Nodup) (hc : c ∈ cs)
    (hfits : c.fits s.typed = true) (hnew : s.contains c.key = false) :
    c ∈ (s.pushAll cs).candidates := by
  induction cs generalizing s with
  | nil => exact absurd hc List.not_mem_nil
  | cons d cs ih =>
    rw [List.map_cons, List.nodup_cons] at hkeys
    rcases List.mem_cons.1 hc with rfl | hc
    · exact candidates_subset_pushAll _ cs (mem_push hfits hnew)
    · refine ih hkeys.2 hc (by rwa [typed_push]) (contains_push_of_ne (fun hkey => ?_) hnew)
      rw [hkey] at hkeys
      exact hkeys.1 (List.mem_map_of_mem hc)

/-- Whatever follows, a new sink takes those that come first and fit, if they have different
    keys. -/
theorem mem_pushAll_append {typed : String} {cs : List Candidate}
    (hkeys : (cs.map Candidate.key).Nodup) (hc : c ∈ cs)
    (hfits : c.fits (lowercase typed.toList) = true) (rest : List Candidate) :
    c ∈ ((new typed).pushAll (cs ++ rest)).candidates := by
  rw [pushAll, List.foldl_append]
  exact candidates_subset_pushAll _ rest (mem_pushAll hkeys hc hfits rfl)

end Sink

/-! ### Candidates for bindings -/

theorem Priority.adjust_le (called : Option String) (name : String) (p : Priority) :
    p.adjust called name ≤ p := by
  rw [adjust]
  split
  · rw [better]
    split
    · exact Nat.le_refl p.rank
    · next hle => exact Nat.le_of_not_le hle
  · exact Nat.le_refl p.rank

namespace Candidate

/-- Whether accepting the candidate inserts just the given text. -/
def inserts (d : Candidate) (text : String) : Bool := d.insertion = .plain && d.text = text

/-- The candidate says what the binding is: its hint starts with that of the binding, it has the call
    shape of the binding, unless that is empty, and its tier is no worse than that of the
    binding. -/
structure StandsFor (d : Candidate) (b : Binding) : Prop where
  hint_eq : ∃ note, d.hint = some (b.hint ++ note)
  signature_eq : d.signature = b.signature.filter (!·.isEmpty)
  priority_le : d.priority ≤ .ofBinding b

theorem standsFor_ofBinding (b : Binding) : (ofBinding b).StandsFor b where
  hint_eq := ⟨"", congrArg some (String.append_empty).symm⟩
  signature_eq := by
    change nonempty? (b.signature.getD "") = _
    cases b.signature with
    | none => rfl
    | some shape => cases h : shape.isEmpty <;> simp [nonempty?, Option.filter, h]
  priority_le := Nat.le_refl _

theorem StandsFor.withUsage {d : Candidate} {b : Binding} (h : d.StandsFor b) (cache : Cache) :
    (Engine.withUsage cache d).StandsFor b := by
  rw [Engine.withUsage.eq_def]
  split
  · exact h
  split
  · exact h
  · obtain ⟨note, hhint⟩ := h.hint_eq
    rw [hhint]
    refine ⟨⟨note ++ " (" ++ ("used " ++ toString (cache.usageCount d.text) ++ "x") ++ ")",
      congrArg some ?_⟩, h.signature_eq, h.priority_le⟩
    simp only [String.append_assoc]

theorem StandsFor.adjust {d : Candidate} {b : Binding} (h : d.StandsFor b)
    (called : Option String) : (d.adjust called).StandsFor b := by
  rw [Candidate.adjust]
  split
  · exact h
  · exact ⟨h.hint_eq, h.signature_eq, Nat.le_trans (Priority.adjust_le ..) h.priority_le⟩

/-- Where keys are different, a plain candidate is the only one to insert its text. -/
theorem filter_inserts_eq {cs : List Candidate} (hkeys : (cs.map key).Nodup) {d : Candidate}
    (hd : d ∈ cs) (hplain : d.insertion = .plain) : cs.filter (·.inserts d.text) = [d] := by
  obtain ⟨before, after, rfl⟩ := List.append_of_mem hd
  have hkey : ∀ x : Candidate, x.inserts d.text = true → x.key = d.key := by
    intro x hx
    rw [inserts, Bool.and_eq_true, decide_eq_true_eq, decide_eq_true_eq] at hx
    rw [key, key, if_pos hx.1, if_pos hplain, hx.2]
  have hself : d.inserts d.text = true := by simp [inserts, hplain]
  rw [List.map_append, List.map_cons, List.nodup_append, List.nodup_cons] at hkeys
  obtain ⟨-, ⟨hafter, -⟩, hbefore⟩ := hkeys
  have hnone : before.filter (·.inserts d.text) = [] ∧ after.filter (·.inserts d.text) = [] := by
    simp only [List.filter_eq_nil_iff]
    refine ⟨fun x hx hinserts => ?_, fun x hx hinserts => ?_⟩
    · exact hbefore _ (List.mem_map_of_mem hx) _ List.mem_cons_self (hkey x hinserts)
    · exact hafter (hkey x hinserts ▸ List.mem_map_of_mem hx)
  rw [List.filter_append, List.filter_cons, if_pos hself, hnone.1, hnone.2, List.nil_append]

end Candidate

/-! ### Answers -/

/-- Whether the slot is one where the names that are visible can be typed. -/
def Slot.takesNames : Slot → Bool
  | operator | argument _ _ | expression => true
  | _ => false

theorem Slot.needsProject_of_takesNames {slot : Slot} (h : slot.takesNames = true) :
    slot.needsProject = true := by
  cases slot with
  | operator | argument | expression => rfl
  | _ => cases h

theorem Offer.map_key_bindings (s : Scope) :
    (Offer.bindings s).map Candidate.key = s.bindings.map (·.name) := by
  rw [Offer.bindings, List.map_map]
  rfl

/-- Where names can be typed, those of the scope are offered first. -/
theorem Offer.exists_atCursor_eq (t : Tree) (config : Config) (c : Cursor) (context : Context)
    (hslot : context.slot.takesNames = true) (summaries : List Summary)
    (signature : Option String) :
    ∃ rest, Offer.atCursor t config c context summaries signature =
      Offer.bindings (t.scopeAt config c summaries) ++ rest := by
  rw [Offer.atCursor]
  cases hcase : context.slot with
  | operator =>
    simp only [Offer.asOperator, List.append_assoc]
    exact ⟨_, rfl⟩
  | argument function index =>
    simp only [Offer.asArgument, List.append_assoc]
    exact ⟨_, rfl⟩
  | expression =>
    simp only [Offer.asExpression, List.append_assoc]
    exact ⟨_, rfl⟩
  | _ =>
    rw [hcase] at hslot
    cases hslot

namespace Engine

variable (e : Engine)

/-- Among what is made of candidates, the first of which are those of a scope, just one inserts the
    name of a binding that fits. -/
theorem exists_standsFor_answer (hlimit : e.criteria.maxResults = none) (cache : Cache)
    (context : Context) {s : Scope} (hs : (s.bindings.map (·.name)).Nodup) {b : Binding}
    (hb : b ∈ s.bindings) (hfits : lowercase context.typed.toList <+: lowercase b.name.toList)
    (rest : List Candidate) :
    ∃ d, (e.answer cache context (Offer.bindings s ++ rest)).filter (·.inserts b.name) = [d] ∧
      d.StandsFor b := by
  have hkept : .ofBinding b ∈
      ((Sink.new context.typed).pushAll (Offer.bindings s ++ rest)).candidates := by
    have hkeys : ((Offer.bindings s).map Candidate.key).Nodup := by rwa [Offer.map_key_bindings]
    exact Sink.mem_pushAll_append hkeys (List.mem_map_of_mem hb)
      (Candidate.fits_iff.2 fun _ => hfits) rest
  refine ⟨(withUsage cache (.ofBinding b)).adjust context.called, ?_,
    ((Candidate.standsFor_ofBinding b).withUsage cache).adjust context.called⟩
  have halike := (Candidate.alike_adjust context.called _).trans
    (Candidate.alike_withUsage cache (.ofBinding b))
  have hmem : (withUsage cache (.ofBinding b)).adjust context.called ∈
      e.answer cache context (Offer.bindings s ++ rest) :=
    Candidate.mem_rank _ _ hlimit (List.mem_map_of_mem hkept)
  have hfilter := Candidate.filter_inserts_eq
    (e.isAnswer_answer cache context (Offer.bindings s ++ rest)).nodup_keys hmem halike.insertion_eq
  rwa [halike.text_eq] at hfilter

/-- Where names can be typed, the answer is made of what is offered for the summaries that are
    found. -/
theorem exists_complete_eq_answer {cache cache' : Cache} {t : Tree} {c : Cursor}
    {currentFile : Option String} {summaries : List Summary}
    (hmute : isMute c (t.slot e.config c) = false)
    (hslot : (t.slot e.config c).takesNames = true)
    (hfound : e.summaries cache currentFile = (some summaries, cache')) :
    ∃ cache'' signature, (e.complete cache t c currentFile).1 =
      e.answer cache'' (Context.ofCursor t e.config c)
        (Offer.atCursor t e.config c (Context.ofCursor t e.config c) summaries signature) := by
  have hcontext : (Context.ofCursor t e.config c).slot = t.slot e.config c := rfl
  rw [complete, hcontext, hmute, Slot.needsProject_of_takesNames hslot, hfound]
  exact ⟨_, _, rfl⟩

/-- At a cursor outside of strings and comments, where names can be typed, the project not breaking
    down and the number of candidates not being limited: for each binding of the scope, with the
    files of the project that are found, whose name starts with what has been typed, in letters of
    either case, the answer has just one candidate that inserts this name, and this one stands for
    the binding. Requests for a place in a text are answered so, too. -/
theorem complete_boundNames (he : ∀ p ∈ e.project, p.Steady)
    (hlimit : e.criteria.maxResults = none) (cache : Cache) (t : Tree) (c : Cursor)
    (currentFile : Option String) (hstring : c.location.node.kind ≠ .string)
    (hcomment : c.location.node.kind ≠ .lineComment)
    (hslot : (t.slot e.config c).takesNames = true) :
    ∃ summaries answer cache', (e.summaries cache currentFile).1 = some summaries ∧
      e.complete cache t c currentFile = (answer, cache') ∧
      (∀ cs offset, Cursor.inSource e.config cs offset = .ok (t, c) →
        e.completeSource cache cs offset currentFile = .ok (answer, cache')) ∧
      ∀ b ∈ (t.scopeAt e.config c summaries).bindings,
        lowercase c.typed.toList <+: lowercase b.name.toList →
          ∃ d, answer.filter (·.inserts b.name) = [d] ∧ d.StandsFor b := by
  obtain ⟨summaries, hsummaries⟩ :=
    Option.isSome_iff_exists.1 (e.isSome_summaries he cache currentFile)
  have hmute : isMute c (t.slot e.config c) = false := by
    simp [isMute, hstring, hcomment]
  refine ⟨summaries, (e.complete cache t c currentFile).1, (e.complete cache t c currentFile).2,
    hsummaries, rfl, fun cs offset hcursor => ?_, fun b hb hfits => ?_⟩
  · rw [completeSource, hcursor]
    rfl
  · obtain ⟨cache', signature, hanswer⟩ :=
      e.exists_complete_eq_answer hmute hslot (Prod.ext hsummaries rfl)
    obtain ⟨rest, hoffer⟩ := Offer.exists_atCursor_eq t e.config c
      (Context.ofCursor t e.config c) hslot summaries signature
    rw [hanswer, hoffer]
    exact e.exists_standsFor_answer hlimit cache' (Context.ofCursor t e.config c)
      (Scope.nodup_names_ofList_some _ _) hb hfits rest

/-- An engine over a file that defines a name of a value and one of the catalogue. -/
def clashingEngine : Engine :=
  { new {} with
    project := some (Documents.toProject
      { files := [⟨"lib.phel", "(defn nil [x] x) (def name 1)"⟩] }) }

/-- In the arguments of a function that prefers `nil?`, this is the name of the definition around
    the cursor and was accepted before, `true` is a parameter, and `nil` and `name` come from another
    file. -/
theorem complete_boundNames_clashing :
    let cs := "(defn nil? [true] (filter N".toList
    let cache := Cache.standard.recordUsage "nil?"
    (∀ p ∈ clashingEngine.project, p.Steady) ∧ ∃ t c summaries answer cache',
      Cursor.inSource clashingEngine.config cs 27 = .ok (t, c) ∧
      t.slot clashingEngine.config c = .argument "filter" 0 ∧
      (clashingEngine.summaries cache none).1 = some summaries ∧
      clashingEngine.completeSource cache cs 27 none = .ok (answer, cache') ∧
      (t.scopeAt clashingEngine.config c summaries).bindings.map (·.name) =
        ["true", "nil?", "nil", "name"] ∧
      ∀ b ∈ (t.scopeAt clashingEngine.config c summaries).bindings, b.name ≠ "true" →
        ∃ d, answer.filter (·.inserts b.name) = [d] ∧ d.StandsFor b := by
  intro cs cache
  have hsteady : ∀ p ∈ clashingEngine.project, p.Steady := by
    intro p hp
    obtain rfl := Option.some.inj hp
    exact Documents.steady_toProject rfl
  have htest : (Cursor.inSource clashingEngine.config cs 27).toOption.any (fun x =>
      x.2.location.node.kind = .symbol ∧ x.2.typed = "N" ∧
        x.1.slot clashingEngine.config x.2 = .argument "filter" 0 ∧
        (clashingEngine.summaries cache none).1.map (fun summaries =>
          (x.1.scopeAt clashingEngine.config x.2 summaries).bindings.map (·.name)) =
            some ["true", "nil?", "nil", "name"]) = true := by
    decide +kernel
  obtain ⟨t, c, hcursor, htest⟩ := Cursor.exists_of_any_inSource htest
  obtain ⟨hkind, htyped, hslot, hnames⟩ := of_decide_eq_true htest
  dsimp only at hkind htyped hslot hnames
  obtain ⟨summaries, answer, cache', hsummaries, -, hsource, hall⟩ :=
    clashingEngine.complete_boundNames hsteady rfl cache t c none (by simp [hkind])
      (by simp [hkind]) (by rw [hslot]; rfl)
  rw [hsummaries] at hnames
  have hnames := Option.some.inj hnames
  refine ⟨hsteady, t, c, summaries, answer, cache', hcursor, hslot, hsummaries,
    hsource cs 27 hcursor, hnames, fun b hb hne => hall b hb ?_⟩
  have hmem : b.name ∈ ["true", "nil?", "nil", "name"] := by
    rw [← hnames]
    exact List.mem_map_of_mem hb
  have hfits : ∀ name ∈ ["true", "nil?", "nil", "name"], name ≠ "true" →
      lowercase "N".toList <+: lowercase name.toList := by
    decide +kernel
  rw [htyped]
  exact hfits b.name hmem hne

end Engine

end Typeahead
