import Typeahead.Proofs.RoundTrip
import Typeahead.Proofs.Shadowing

/-!
# Patterns in a text

What a form is read into can be taken apart as the form can: a node that reads a
vector has active forms that read the items of the vector, if no marker stands
among them (`Node.ReadAs`). So what the tree says of a pattern is what its syntax
says.

* `Node.readAs_activeForms`: the active forms of a node read the forms in it;
* `Tree.map_text_boundNames`: a pattern binds the symbols in it, in their order.
-/

namespace Typeahead

namespace Form

/-- A form that no marker deactivates is read into one node, which is a form. -/
theorem exists_outline_eq {f : Form} (h : f.isMarked = false) :
    ∃ o, f.outline = [o] ∧ o.kind.isForm = true := by
  cases f with
  | discard f => cases h
  | _ => exact ⟨_, rfl, rfl⟩

theorem outlineAll_eq_flatMap (fs : List Form) : outlineAll fs = fs.flatMap outline := by
  induction fs with
  | nil => rfl
  | cons f fs ih => rw [outlineAll, ih, List.flatMap_cons]

/-- The keys and values of a map, one after the other. -/
def entryForms (entries : List (Form × Form)) : List Form :=
  entries.flatMap fun (k, v) => [k, v]

theorem outlineEntries_eq_flatMap (es : List (Form × Form)) :
    outlineEntries es = (entryForms es).flatMap outline := by
  induction es with
  | nil => rfl
  | cons e es ih =>
    obtain ⟨k, v⟩ := e
    rw [outlineEntries, ih]
    simp [entryForms]

end Form

/-! ### Active forms without markers -/

theorem deactivates_eq_false {before : List Kind} (h : ∀ k ∈ before, k ≠ .formComment) (k : Kind) :
    deactivates before k = false := by
  have hnone : markersBefore before = 0 := by
    rw [markersBefore, List.length_eq_zero_iff, List.eq_nil_iff_forall_not_mem]
    intro k hk
    have hmarker : k = .formComment := by simpa using List.mem_takeWhile_imp hk
    have hmem := List.dropWhile_subset _ (List.filter_sublist.subset (List.takeWhile_subset _ hk))
    exact h k hmem hmarker
  rw [deactivates, hnone]
  rfl

theorem judgeForms_of_unmarked {before : List Kind} {ns : List Node}
    (hbefore : ∀ k ∈ before, k ≠ .formComment) (h : ∀ n ∈ ns, n.kind ≠ .formComment) :
    judgeForms before ns = (ns.filter (·.kind.isForm)).map (·, false) := by
  induction ns generalizing before with
  | nil => rfl
  | cons n ns ih =>
    have hrest : judgeForms (n.kind :: before) ns = (ns.filter (·.kind.isForm)).map (·, false) := by
      refine ih ?_ fun m hm => h m (List.mem_cons_of_mem _ hm)
      intro k hk
      rcases List.mem_cons.1 hk with rfl | hk
      · exact h n List.mem_cons_self
      · exact hbefore k hk
    rw [judgeForms, hrest, deactivates_eq_false hbefore]
    cases hform : n.kind.isForm <;> simp [hform]

/-- Without markers all forms are active. -/
theorem Node.activeForms_eq_forms {n : Node} (h : ∀ c ∈ n.children, c.kind ≠ .formComment) :
    n.activeForms = n.forms := by
  rw [activeForms, judgedForms,
    judgeForms_of_unmarked (fun k hk => absurd hk List.not_mem_nil) h]
  simp [forms, List.filter_map, Function.comp_def]

/-! ### Nodes that read forms -/

namespace Node

variable {src : List Char} {n : Node} {ns : List Node} {f : Form} {fs gs : List Form}

/-- The nodes are what the forms are read into, one by one. -/
def ReadAs (src : List Char) (ns : List Node) (fs : List Form) : Prop :=
  ns.map (fun n => [n.outline src]) = fs.map Form.outline

namespace ReadAs

theorem nil (src : List Char) : ReadAs src [] [] := rfl

theorem cons (hn : f.outline = [n.outline src]) (h : ReadAs src ns fs) :
    ReadAs src (n :: ns) (f :: fs) := by
  rw [ReadAs, List.map_cons, List.map_cons, hn, h]

theorem append {ms : List Node} (h : ReadAs src ns fs) (h' : ReadAs src ms gs) :
    ReadAs src (ns ++ ms) (fs ++ gs) := by
  rw [ReadAs, List.map_append, List.map_append, h, h']

theorem eq_nil (h : ReadAs src ns []) : ns = [] := List.map_eq_nil_iff.1 h

theorem exists_cons (h : ReadAs src ns (f :: fs)) :
    ∃ n ms, ns = n :: ms ∧ f.outline = [n.outline src] ∧ ReadAs src ms fs := by
  obtain ⟨n, ms, rfl, hn, hms⟩ := List.map_eq_cons_iff.1 h
  exact ⟨n, ms, rfl, hn.symm, hms⟩

theorem exists_append (h : ReadAs src ns (fs ++ gs)) :
    ∃ as bs, ns = as ++ bs ∧ ReadAs src as fs ∧ ReadAs src bs gs := by
  rw [ReadAs, List.map_append] at h
  obtain ⟨as, bs, rfl, has, hbs⟩ := List.map_eq_append_iff.1 h
  exact ⟨as, bs, rfl, has, hbs⟩

theorem exists_of_mem (h : ReadAs src ns fs) (hf : f ∈ fs) :
    ∃ n ∈ ns, f.outline = [n.outline src] := by
  have hmem : f.outline ∈ ns.map fun n => [n.outline src] := by
    rw [h]
    exact List.mem_map_of_mem hf
  obtain ⟨n, hn, hf⟩ := List.mem_map.1 hmem
  exact ⟨n, hn, hf.symm⟩

end ReadAs

theorem map_outline_filter (src : List Char) (ns : List Node) :
    (ns.filter (·.kind.isForm)).map (Node.outline src) =
      (outlineAll src ns).filter (·.kind.isForm) := by
  induction ns with
  | nil => rfl
  | cons n ns ih =>
    rw [outlineAll]
    split
    · next hn => rw [List.filter_cons_of_neg (by simp [hn, Kind.isForm]), ih]
    · cases hform : n.kind.isForm <;> simp [hform, kind_outline, ih]

theorem outline_mem_outlineAll {c : Node} (hc : c ∈ ns) (hkind : c.kind ≠ .whitespace) :
    c.outline src ∈ outlineAll src ns := by
  induction ns with
  | nil => exact absurd hc List.not_mem_nil
  | cons n ns ih =>
    rw [outlineAll]
    rcases List.mem_cons.1 hc with rfl | hc
    · rw [if_neg hkind]
      exact List.mem_cons_self
    · split
      · exact ih hc
      · exact List.mem_cons_of_mem _ (ih hc)

/-- Outlines of forms that no marker deactivates. -/
theorem isForm_of_mem_flatMap {o : Outline} (hfs : ∀ f ∈ fs, f.isMarked = false)
    (ho : o ∈ fs.flatMap Form.outline) : o.kind.isForm = true := by
  obtain ⟨f, hf, ho⟩ := List.mem_flatMap.1 ho
  obtain ⟨p, hp, hform⟩ := Form.exists_outline_eq (hfs f hf)
  rw [hp] at ho
  rw [List.mem_singleton.1 ho]
  exact hform

/-- If the children of a node are the given forms between delimiters, the node
    has no marker, and its active forms read the forms. -/
theorem readAs_activeForms (first last : List Outline) (hfs : ∀ f ∈ fs, f.isMarked = false)
    (hdelims : ∀ o ∈ first ++ last, o.kind.isForm = false ∧ o.kind ≠ .formComment)
    (h : outlineAll src n.children = first ++ fs.flatMap Form.outline ++ last) :
    (∀ c ∈ n.children, c.kind ≠ .formComment) ∧ ReadAs src n.activeForms fs := by
  have hunmarked : ∀ c ∈ n.children, c.kind ≠ .formComment := by
    intro c hc hkind
    have hmem : c.outline src ∈ outlineAll src n.children :=
      outline_mem_outlineAll hc (by simp [hkind])
    have hsame : (c.outline src).kind = .formComment := (kind_outline src c).trans hkind
    rw [h, List.mem_append, List.mem_append] at hmem
    rcases hmem with (hmem | hmem) | hmem
    · exact (hdelims _ (List.mem_append_left _ hmem)).2 hsame
    · have hform := isForm_of_mem_flatMap hfs hmem
      rw [hsame] at hform
      cases hform
    · exact (hdelims _ (List.mem_append_right _ hmem)).2 hsame
  refine ⟨hunmarked, ?_⟩
  have hdrop : ∀ os : List Outline, (∀ o ∈ os, o.kind.isForm = false ∧ o.kind ≠ .formComment) →
      os.filter (·.kind.isForm) = [] := fun os hos =>
    List.filter_eq_nil_iff.2 fun o ho => by simp [(hos o ho).1]
  have hkeep : (fs.flatMap Form.outline).filter (·.kind.isForm) = fs.flatMap Form.outline :=
    List.filter_eq_self.2 fun o ho => isForm_of_mem_flatMap hfs ho
  have hforms : n.activeForms.map (Node.outline src) = fs.flatMap Form.outline := by
    rw [activeForms_eq_forms hunmarked, forms, map_outline_filter, h, List.filter_append,
      List.filter_append, hkeep, hdrop first fun o ho => hdelims o (List.mem_append_left _ ho),
      hdrop last fun o ho => hdelims o (List.mem_append_right _ ho), List.nil_append,
      List.append_nil]
  have hsingle : fs.map Form.outline = (fs.flatMap Form.outline).map ([·]) := by
    clear h hkeep hforms
    induction fs with
    | nil => rfl
    | cons f fs ih =>
      obtain ⟨o, ho, -⟩ := Form.exists_outline_eq (hfs f List.mem_cons_self)
      rw [List.map_cons, List.flatMap_cons, List.map_append, ho,
        ih fun g hg => hfs g (List.mem_cons_of_mem _ hg)]
      rfl
  rw [ReadAs, hsingle, ← hforms, List.map_map]
  rfl

/-- A leaf is read from its text. -/
theorem of_outline_eq_leaf {kind : Kind} {text : List Char} (h : n.outline src = .leaf kind text) :
    n.kind = kind ∧ n.children = [] ∧ slice src n.span.start n.span.stop = text := by
  obtain ⟨id, k, span, children⟩ := n
  cases children with
  | nil =>
    rw [outline] at h
    obtain ⟨rfl, rfl⟩ := Outline.leaf.inj h
    exact ⟨rfl, rfl, rfl⟩
  | cons c cs =>
    rw [outline] at h
    cases h

theorem of_outline_eq_node {kind : Kind} {os : List Outline} (h : n.outline src = .node kind os) :
    n.kind = kind ∧ outlineAll src n.children = os := by
  obtain ⟨id, k, span, children⟩ := n
  cases children with
  | nil =>
    rw [outline] at h
    cases h
  | cons c cs =>
    rw [outline] at h
    obtain ⟨rfl, rfl⟩ := Outline.node.inj h
    exact ⟨rfl, rfl⟩

/-- A node that reads a collection of forms without markers. -/
theorem of_outline_eq_collection {kind : Kind} {opener : List Char} {closer : Char}
    (hfs : ∀ f ∈ fs, f.isMarked = false)
    (h : n.outline src = .collection kind opener closer (fs.flatMap Form.outline)) :
    n.kind = kind ∧ (∀ c ∈ n.children, c.kind ≠ .formComment) ∧ ReadAs src n.activeForms fs := by
  obtain ⟨hkind, hchildren⟩ := of_outline_eq_node h
  refine ⟨hkind, readAs_activeForms [.leaf .openDelim opener]
    [.leaf .closeDelim [closer]] hfs ?_ hchildren⟩
  intro o ho
  rcases List.mem_cons.1 ho with rfl | ho
  · exact ⟨rfl, by simp [Outline.kind]⟩
  · rw [List.mem_singleton.1 ho]
    exact ⟨rfl, by simp [Outline.kind]⟩

/-- Every outline is that of a child. -/
theorem exists_child {o : Outline} (hmem : o ∈ outlineAll src ns) :
    ∃ c ∈ ns, c.outline src = o := by
  induction ns with
  | nil => exact absurd hmem List.not_mem_nil
  | cons n ns ih =>
    rw [outlineAll] at hmem
    split at hmem
    · obtain ⟨c, hc, ho⟩ := ih hmem
      exact ⟨c, List.mem_cons_of_mem _ hc, ho⟩
    · rcases List.mem_cons.1 hmem with rfl | hmem
      · exact ⟨n, List.mem_cons_self, rfl⟩
      · obtain ⟨c, hc, ho⟩ := ih hmem
        exact ⟨c, List.mem_cons_of_mem _ hc, ho⟩

end Node

/-! ### Patterns -/

namespace Form

mutual

/-- Whether a form is made of symbols and constants by vectors and maps. -/
def isPattern : Form → Bool
  | symbol _ | keyword _ | int _ | str _ => true
  | vector items => isPatternAll items
  | map entries => isPatternEntries entries
  | _ => false

/-- The same for forms. -/
def isPatternAll : List Form → Bool
  | [] => true
  | f :: fs => isPattern f && isPatternAll fs

/-- The same for keys and values. -/
def isPatternEntries : List (Form × Form) → Bool
  | [] => true
  | (k, v) :: es => isPattern k && isPattern v && isPatternEntries es

end

mutual

/-- The symbols of a pattern, in their order. The signs for the rest of the
    arguments are left out. -/
def patternNames : Form → List String
  | symbol name => if name = "&" ∨ name = "..." then [] else [name]
  | vector items => patternNamesAll items
  | map entries => patternNamesEntries entries
  | _ => []

/-- The symbols of patterns. -/
def patternNamesAll : List Form → List String
  | [] => []
  | f :: fs => patternNames f ++ patternNamesAll fs

/-- The symbols of the keys and values of a map. -/
def patternNamesEntries : List (Form × Form) → List String
  | [] => []
  | (k, v) :: es => patternNames k ++ (patternNames v ++ patternNamesEntries es)

end

theorem isMarked_of_isPattern {f : Form} (h : f.isPattern = true) : f.isMarked = false := by
  cases f with
  | discard f => cases h
  | _ => rfl

end Form

theorem Form.isPatternAll_iff {fs : List Form} :
    isPatternAll fs = true ↔ ∀ f ∈ fs, f.isPattern = true := by
  induction fs with
  | nil => simp [isPatternAll]
  | cons f fs ih => simp [isPatternAll, ih]

theorem Form.isPatternEntries_iff {es : List (Form × Form)} :
    isPatternEntries es = true ↔ ∀ f ∈ entryForms es, f.isPattern = true := by
  induction es with
  | nil => simp [isPatternEntries, entryForms]
  | cons e es ih =>
    obtain ⟨k, v⟩ := e
    rw [entryForms] at ih
    simp [isPatternEntries, entryForms, ih, and_assoc]

theorem Form.patternNamesAll_eq_flatMap (fs : List Form) :
    patternNamesAll fs = fs.flatMap patternNames := by
  induction fs with
  | nil => rfl
  | cons f fs ih => rw [patternNamesAll, ih, List.flatMap_cons]

namespace Tree

variable {t : Tree} {src : List Char}

theorem text_of_outline_eq (hsrc : t.source = src) {n : Node} {kind : Kind} {cs : List Char}
    (h : n.outline src = .leaf kind cs) : t.text n = String.ofList cs := by
  rw [text, chars, hsrc, (Node.of_outline_eq_leaf h).2.2]

/-- A constant binds nothing. -/
theorem boundNames_of_outline_eq {n : Node} {kind : Kind} {cs : List Char}
    (hkind : kind ∈ [.keyword, .number, .string]) (h : [.leaf kind cs] = [n.outline src]) :
    t.boundNames n = [] := by
  have hleaf : n.kind = kind := (Node.of_outline_eq_leaf (List.singleton_inj.1 h).symm).1
  rw [← hleaf] at hkind
  refine boundNames_other ?_ ?_ ?_ <;> intro hn <;> simp [hn] at hkind

mutual

/-- A node that reads a pattern binds the symbols of the pattern. -/
theorem map_text_boundNames (hsrc : t.source = src) : (f : Form) → f.isPattern = true → ∀ {n : Node},
    f.outline = [n.outline src] → (t.boundNames n).map t.text = f.patternNames
  | .symbol name, _, n, h => by
    have hleaf : n.outline src = .leaf .symbol name.toList := (List.singleton_inj.1 h).symm
    have htext : t.text n = name := by
      rw [text_of_outline_eq hsrc hleaf, String.ofList_toList]
    rw [boundNames_symbol (Node.of_outline_eq_leaf hleaf).1, htext, Form.patternNames]
    split
    · rfl
    · rw [List.map_singleton, htext]
  | .keyword _, _, n, h | .int _, _, n, h | .str _, _, n, h => by
    rw [boundNames_of_outline_eq (by simp) h]
    rfl
  | .vector items, hpattern, n, h => by
    have hnode : n.outline src = .collection .vector ['['] ']' (items.flatMap Form.outline) := by
      rw [← Form.outlineAll_eq_flatMap]
      exact (List.singleton_inj.1 h).symm
    have hunmarked : ∀ f ∈ items, f.isMarked = false := fun f hf =>
      Form.isMarked_of_isPattern (Form.isPatternAll_iff.1 hpattern f hf)
    obtain ⟨hkind, -, hread⟩ := Node.of_outline_eq_collection hunmarked hnode
    rw [boundNames_collection (.inl hkind)]
    exact map_text_boundNamesAll hsrc items hpattern hread
  | .map entries, hpattern, n, h => by
    have hnode : n.outline src =
        .collection .map ['\x7b'] '\x7d' ((Form.entryForms entries).flatMap Form.outline) := by
      rw [← Form.outlineEntries_eq_flatMap]
      exact (List.singleton_inj.1 h).symm
    have hunmarked : ∀ f ∈ Form.entryForms entries, f.isMarked = false := fun f hf =>
      Form.isMarked_of_isPattern (Form.isPatternEntries_iff.1 hpattern f hf)
    obtain ⟨hkind, -, hread⟩ := Node.of_outline_eq_collection hunmarked hnode
    rw [boundNames_collection (.inr hkind)]
    exact map_text_boundNamesEntries hsrc entries hpattern hread

theorem map_text_boundNamesAll (hsrc : t.source = src) : (fs : List Form) →
    Form.isPatternAll fs = true → ∀ {ns : List Node}, Node.ReadAs src ns fs →
      (ns.flatMap t.boundNames).map t.text = Form.patternNamesAll fs
  | [], _, ns, h => by
    rw [h.eq_nil]
    rfl
  | f :: fs, hpattern, ns, h => by
    have hboth : (f.isPattern && Form.isPatternAll fs) = true := hpattern
    rw [Bool.and_eq_true] at hboth
    obtain ⟨n, ms, rfl, hn, hms⟩ := h.exists_cons
    rw [List.flatMap_cons, List.map_append, map_text_boundNames hsrc f hboth.1 hn,
      map_text_boundNamesAll hsrc fs hboth.2 hms, Form.patternNamesAll]

theorem map_text_boundNamesEntries (hsrc : t.source = src) : (es : List (Form × Form)) →
    Form.isPatternEntries es = true → ∀ {ns : List Node}, Node.ReadAs src ns (Form.entryForms es) →
      (ns.flatMap t.boundNames).map t.text = Form.patternNamesEntries es
  | [], _, ns, h => by
    rw [Node.ReadAs.eq_nil h]
    rfl
  | (k, v) :: es, hpattern, ns, h => by
    have hboth : (k.isPattern && v.isPattern && Form.isPatternEntries es) = true := hpattern
    rw [Bool.and_eq_true, Bool.and_eq_true] at hboth
    have hcons : Node.ReadAs src ns (k :: v :: Form.entryForms es) := h
    obtain ⟨n, ms, rfl, hn, hms⟩ := hcons.exists_cons
    obtain ⟨m, ks, rfl, hm, hks⟩ := hms.exists_cons
    rw [List.flatMap_cons, List.flatMap_cons, List.map_append, List.map_append,
      map_text_boundNames hsrc k hboth.1.1 hn, map_text_boundNames hsrc v hboth.1.2 hm,
      map_text_boundNamesEntries hsrc es hboth.2 hks, Form.patternNamesEntries]

end

end Tree

end Typeahead
