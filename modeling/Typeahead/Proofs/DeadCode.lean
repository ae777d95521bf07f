import Typeahead.Proofs.FlatVector
import Typeahead.Proofs.Lookup
import Typeahead.Proofs.Patterns
import Typeahead.Proofs.Stacking

/-!
# Dead code is dead throughout

Whatever is inside an inert node is inert, down to the blanks and delimiters. That
holds although a word in a vector can be judged by the text around it alone: such
a word has nothing inside.

So markers in front of the forms of a vector take out whole forms. If the forms
are written with spaces between them, and no form is itself marked, then `k`
markers take out the first `k` forms, with everything that is inside of these, and
leave the others alone.

* `Tree.isInert_of_mem_ancestors`: what is inside an inert node is inert;
* `Form.exists_lex_renderAll`: the forms of a row are read one by one, each where
  it is written;
* `Form.isInert_read_renderMarked`: which forms of a vector are inert, if markers
  stand in front of the first.
-/

namespace Typeahead

/-! ### Inside inert code -/

namespace Location

variable {a d : Location}

theorem selfAndAncestors_subset (ha : a ∈ d.selfAndAncestors) :
    a.selfAndAncestors ⊆ d.selfAndAncestors := by
  obtain ⟨as, bs, happ⟩ := List.append_of_mem ha
  rw [← eq_selfAndAncestors_of_append happ, happ]
  exact List.subset_append_right _ _

theorem isInDeactivated_of_mem (ha : a ∈ d.selfAndAncestors) (h : a.isInDeactivated = true) :
    d.isInDeactivated = true := by
  rw [isInDeactivated, List.any_eq_true] at h ⊢
  obtain ⟨f, hf, hoff⟩ := h
  exact ⟨f, selfAndAncestors_subset ha hf, hoff⟩

end Location

namespace Tree

/-- A node in a form that belongs to a deactivated one is inert. -/
theorem isInert_of_isInDeactivated (t : Tree) {a d : Location} (ha : a ∈ d.selfAndAncestors)
    (hform : a.node.kind.isForm = true) (h : a.isInDeactivated = true) : t.isInert d = true := by
  obtain ⟨f, hf⟩ : ∃ f, d.enclosingForm? = some f :=
    Option.isSome_iff_exists.1 (List.find?_isSome.2 ⟨a, ha, hform⟩)
  obtain ⟨-, as, bs, happ, has⟩ := List.find?_eq_some_iff_append.1 hf
  -- the innermost form around `d` is `a` or lies in `a`, since `a` is a form
  have haf : a ∈ f.selfAndAncestors := by
    rw [← Location.eq_selfAndAncestors_of_append happ]
    rw [happ] at ha
    refine (List.mem_append.1 ha).resolve_left fun hmem => ?_
    have hnot := has a hmem
    rw [hform] at hnot
    exact absurd hnot (by decide)
  rw [isInert, hf]
  simp only [Location.isInDeactivated_of_mem haf h, Bool.true_or]

/-- In a node that has a marker the text has no say about the forms. -/
theorem isInert_eq_of_marker (t : Tree) {n v : Node} {above : List Node}
    (hform : n.kind.isForm = true) (hmarker : v.children.any (·.kind == .formComment) = true) :
    t.isInert ⟨n, v :: above⟩ = (⟨n, v :: above⟩ : Location).isInDeactivated := by
  have henclosing : (⟨n, v :: above⟩ : Location).enclosingForm? = some ⟨n, v :: above⟩ :=
    List.find?_cons_of_pos hform
  have hmarked : t.isMarkedInText ⟨n, v :: above⟩ = false := by
    simp only [isMarkedInText, hmarker, Bool.not_true, Bool.and_false, Bool.false_and]
  rw [isInert, henclosing]
  simp only [hmarked, Bool.or_false]

/-- The root is not inert. -/
theorem isInert_eq_false_of_above_eq_nil {cs : List Char} {a : Location}
    (ha : a ∈ (Tree.read cs).locations) (habove : a.above = []) :
    (Tree.read cs).isInert a = false := by
  obtain ⟨n, above⟩ := a
  obtain rfl : above = [] := habove
  have hkind : n.kind = .root := by
    rw [eq_root_of_mem_locations ha]
    exact (Builder.waiting_reading cs).closable.toTree.1
  have hnone : (⟨n, []⟩ : Location).enclosingForm? = none :=
    List.find?_cons_of_neg (by rw [hkind]; decide)
  rw [isInert, hnone]

/-- Whatever is inside an inert node of the tree of a text is inert, also what is no form. -/
theorem isInert_of_mem_ancestors {cs : List Char} {a d : Location}
    (hd : d ∈ (Tree.read cs).locations) (ha : a ∈ d.ancestors)
    (h : (Tree.read cs).isInert a = true) : (Tree.read cs).isInert d = true := by
  have hmem : a ∈ d.selfAndAncestors := List.mem_cons_of_mem _ ha
  have hloc := selfAndAncestors_subset_locations hd hmem
  by_cases hroot : a.above = []
  · rw [isInert_eq_false_of_above_eq_nil hloc hroot] at h
    cases h
  · -- a node with something inside is no word, so the text has no say about it
    have hnested := isNested_of_mem_ancestors hd ha hroot
    rw [isInert_eq_of_isNested hloc hnested] at h
    exact isInert_of_isInDeactivated _ hmem (Kind.isForm_of_isNested hnested) h

/-- The quote of a form in a vector in a deactivated list. -/
theorem isInert_of_mem_ancestors_sigil :
    let t := Tree.read "(f #_(a [b 'c]) d)".toList
    ∃ a d, d ∈ t.locations ∧ a ∈ d.ancestors ∧ a.node.kind = .list ∧ t.isInert a = true ∧
      d.node.kind = .sigil ∧ t.isInert d = true := by
  intro t
  have hany : (t.locations.any fun d => d.node.kind == .sigil && d.ancestors.any fun a =>
      a.node.kind == .list && t.isInert a) = true := by decide +kernel
  obtain ⟨d, hd, hfound⟩ := List.any_eq_true.1 hany
  rw [Bool.and_eq_true, beq_iff_eq, List.any_eq_true] at hfound
  obtain ⟨hsigil, a, ha, hlist⟩ := hfound
  rw [Bool.and_eq_true, beq_iff_eq] at hlist
  exact ⟨a, d, hd, ha, hlist.1, hlist.2, hsigil, isInert_of_mem_ancestors hd ha hlist.2⟩

end Tree

/-! ### Rows of forms -/

namespace Form

/-- The text in front of a form, after others that a space follows each. -/
def renderBefore (pre : List Form) : List Char := pre.flatMap fun f => f.render ++ [' ']

/-- The nodes of a row of forms that is written from `start` on: each form is where it is written,
    and between the forms are only blanks. -/
def Row (src : List Char) (start : Nat) (fs : List Form) (ns : List Node) : Prop :=
  ∀ pre f post, fs = pre ++ f :: post →
    ∃ as n bs, ns = as ++ n :: bs ∧ (∀ m ∈ as, continuesSequence m.kind = true) ∧
      as.countP (·.kind.isForm) = pre.length ∧ n.kind.isForm = true ∧
      Node.outlineAll src [n] = f.outline ∧
      n.span = ⟨start + byteLength (renderBefore pre),
        start + byteLength (renderBefore pre) + byteLength f.render⟩

namespace Row

variable {src : List Char} {start : Nat} {f : Form} {fs : List Form} {n : Node} {ns : List Node}

theorem nil (src : List Char) (start : Nat) : Row src start [] [] := by
  intro pre f post h
  simp at h

/-- A form, the blanks after it and the rest of the row. -/
theorem cons (hn : n.kind.isForm = true) (houtline : Node.outlineAll src [n] = f.outline)
    (hspan : n.span = ⟨start, start + byteLength f.render⟩) (ws : List Node)
    (hws : ∀ w ∈ ws, w.kind = .whitespace)
    (h : Row src (start + byteLength f.render + 1) fs ns) :
    Row src start (f :: fs) (n :: (ws ++ ns)) := by
  intro pre g post happ
  cases pre with
  | nil =>
    obtain ⟨rfl, rfl⟩ := List.cons.inj happ
    exact ⟨[], n, ws ++ ns, rfl, fun m hm => absurd hm List.not_mem_nil, rfl, hn, houtline, hspan⟩
  | cons f' pre =>
    obtain ⟨rfl, hrest⟩ := List.cons.inj happ
    obtain ⟨as, m, bs, rfl, has, hcount, hm, hmoutline, hmspan⟩ := h pre g post hrest
    have hblanks : ws.countP (·.kind.isForm) = 0 :=
      List.countP_eq_zero.2 fun w hw => by rw [hws w hw]; decide
    refine ⟨n :: (ws ++ as), m, bs, by simp, fun x hx => ?_, ?_, hm, hmoutline, ?_⟩
    · rcases List.mem_cons.1 hx with rfl | hx
      · rw [continuesSequence, hn, Bool.or_true]
      rcases List.mem_append.1 hx with hx | hx
      · rw [hws x hx]
        rfl
      · exact has x hx
    · rw [List.countP_cons, if_pos hn, List.countP_append, hblanks, hcount, List.length_cons,
        Nat.zero_add]
    · have hbefore : byteLength (renderBefore (f :: pre)) =
          byteLength f.render + 1 + byteLength (renderBefore pre) := by
        rw [renderBefore, List.flatMap_cons, byteLength_append, byteLength_append]
        rfl
      rw [hmspan, hbefore]
      simp only [Nat.add_assoc]

end Row

/-- The lexemes spell a row of forms: placed inside a node that takes more than one form, they
    add its nodes. -/
def SpellsRow (ls : List Lexeme) (fs : List Form) : Prop :=
  ∀ (b : Builder) (start : Nat), b.top.kind ≠ .quoted →
    StandsAt b.source start (ls.flatMap (·.text)) →
    ∃ ns next, Row b.source start fs ns ∧ b.placeAll start ls = b.extend ns next

theorem SpellsRow.nil : SpellsRow [] [] := fun b _ _ _ => ⟨[], b.next, .nil _ _, rfl⟩

section

variable {ls ms : List Lexeme} {f : Form} {fs : List Form} {o : Outline}

/-- One more form, which has the length of its text. -/
theorem SpellsRow.last (houtline : f.outline = [o]) (hls : SpellsOne ls o)
    (hlength : ls.flatMap (·.text) = f.render) : SpellsRow ls [f] := by
  intro b start hb hsrc
  obtain ⟨n, next, hn, hform, hspan, hplace⟩ := hls b start hsrc
  rw [hlength] at hspan
  have hopen : (b.extend [n] next).top.kind ≠ .quoted := hb
  rw [Builder.settle_of_kind_ne hopen] at hplace
  refine ⟨[n], next, ?_, hplace⟩
  exact .cons hform (hn.outline_eq.trans houtline.symm) hspan [] (by simp) (.nil _ _)

/-- A form, a space and the rest of the row. -/
theorem SpellsRow.cons (houtline : f.outline = [o]) (hls : SpellsOne ls o)
    (hlength : ls.flatMap (·.text) = f.render) (hms : SpellsRow ms fs) :
    SpellsRow (ls ++ ⟨.blank, [' ']⟩ :: ms) (f :: fs) := by
  intro b start hb hsrc
  rw [List.flatMap_append, List.flatMap_cons] at hsrc
  obtain ⟨hform, hrest⟩ := hsrc.append
  obtain ⟨n, mid, hn, hkind, hspan, hplace⟩ := hls b start hform
  rw [hlength] at hspan hplace hrest
  have hopen : (b.extend [n] mid).top.kind ≠ .quoted := hb
  rw [Builder.settle_of_kind_ne hopen] at hplace
  let w : Node := ⟨mid, .whitespace, ⟨start + byteLength f.render,
    start + byteLength f.render + byteLength [' ']⟩, []⟩
  obtain ⟨ns, next, hns, hplace'⟩ := hms (b.extend ([n] ++ [w]) (mid + 1))
    (start + byteLength f.render + 1) hb hrest.append.2
  refine ⟨n :: ([w] ++ ns), next, ?_, ?_⟩
  · exact .cons hkind (hn.outline_eq.trans houtline.symm) hspan [w] (by simp [w]) hns
  · have hblank : ((b.extend [n] mid).place (start + byteLength f.render) ⟨.blank, [' ']⟩) =
        b.extend ([n] ++ [w]) (mid + 1) := Builder.token_extend ..
    rw [Builder.placeAll_append, hplace, hlength, Builder.placeAll, hblank]
    exact hplace'.trans (Builder.extend_extend ..)

end

theorem flatMap_text_eq_of_lex {s rest : List Char} {ls : List Lexeme}
    (h : lex (s ++ rest) = ls ++ lex rest) : ls.flatMap (·.text) = s := by
  have htext := congrArg (List.flatMap (·.text)) h
  rw [List.flatMap_append, flatMap_text_lex, flatMap_text_lex] at htext
  exact (List.append_cancel_right htext).symm

/-- The lexemes of a form are those of its text. -/
theorem exists_lex_render {f : Form} (hread : f.isReadable = true) (hmarked : f.isMarked = false)
    (rest : List Char) (hend : EndsWord rest) :
    ∃ ls o, lex (f.render ++ rest) = ls ++ lex rest ∧ f.outline = [o] ∧ SpellsOne ls o ∧
      ls.flatMap (·.text) = f.render := by
  obtain ⟨o, houtline, hspelled⟩ := exists_spelledOne_render hread hmarked
  obtain ⟨ls, hlex, hls⟩ := hspelled.lexes rest hend
  exact ⟨ls, o, hlex, houtline, hls, flatMap_text_eq_of_lex hlex⟩

theorem beginsDark_renderAll_append {f : Form} (hread : f.isReadable = true) (fs : List Form)
    (rest : List Char) : BeginsDark (renderAll (f :: fs) ++ rest) := by
  have hspelled := f.spelled_render hread
  obtain ⟨c, cs, htext⟩ := List.exists_cons_of_ne_nil hspelled.ne_nil
  have hdark := hspelled.beginsDark
  rw [htext] at hdark
  cases fs with
  | nil =>
    rw [renderAll, htext]
    exact hdark
  | cons g fs =>
    have hrender : renderAll (f :: g :: fs) = f.render ++ ' ' :: renderAll (g :: fs) := rfl
    rw [hrender, htext]
    exact hdark

/-- A row of readable forms, none of them marked, is read form by form. -/
theorem exists_lex_renderAll : (fs : List Form) → (∀ f ∈ fs, f.isReadable = true) →
    (∀ f ∈ fs, f.isMarked = false) → {rest : List Char} → EndsWord rest →
    ∃ ls, lex (renderAll fs ++ rest) = ls ++ lex rest ∧ SpellsRow ls fs
  | [], _, _, _, _ => ⟨[], rfl, .nil⟩
  | [f], hread, hmarked, rest, hend => by
    obtain ⟨ls, o, hlex, houtline, hls, htext⟩ :=
      exists_lex_render (hread f List.mem_cons_self) (hmarked f List.mem_cons_self) rest hend
    exact ⟨ls, hlex, .last houtline hls htext⟩
  | f :: g :: fs, hread, hmarked, rest, hend => by
    obtain ⟨ms, hlexms, hms⟩ := exists_lex_renderAll (g :: fs)
      (fun x hx => hread x (List.mem_cons_of_mem _ hx))
      (fun x hx => hmarked x (List.mem_cons_of_mem _ hx)) hend
    obtain ⟨ls, o, hlex, houtline, hls, htext⟩ :=
      exists_lex_render (hread f List.mem_cons_self) (hmarked f List.mem_cons_self)
        (' ' :: (renderAll (g :: fs) ++ rest)) (endsWord_cons (by decide) _)
    -- the space is a lexeme by itself, since the next form does not begin with a blank
    have hdark := beginsDark_renderAll_append (hread g (by simp)) fs rest
    refine ⟨ls ++ ⟨.blank, [' ']⟩ :: ms, ?_, .cons houtline hls htext hms⟩
    have hrender : renderAll (f :: g :: fs) = f.render ++ ' ' :: renderAll (g :: fs) := rfl
    rw [hrender, List.append_assoc, List.cons_append, hlex, lex_blank (by decide) hdark, hlexms,
      List.append_assoc, List.cons_append]

end Form

/-! ### Markers in front of a row -/

/-- Adjacent markers. -/
def markers (k : Nat) : List Char := (List.replicate k ['#', '_']).flatten

/-- The text of a vector with `k` markers in front of its first form. -/
def Form.renderMarked (k : Nat) (fs : List Form) : List Char :=
  '[' :: (markers k ++ renderAll fs) ++ [']']

theorem lex_markers_append (k : Nat) (rest : List Char) :
    lex (markers k ++ rest) = List.replicate k ⟨.marker, ['#', '_']⟩ ++ lex rest := by
  induction k with
  | zero => rfl
  | succ k ih =>
    have hmarkers : markers (k + 1) = '#' :: '_' :: markers k := rfl
    rw [hmarkers, List.replicate_succ, List.cons_append, List.cons_append, List.cons_append, ← ih]
    exact lex_cons rfl

section Looking

variable {as : List Kind} (has : ∀ x ∈ as, continuesSequence x = true)

include has

theorem markersBefore_append (before : List Kind) :
    markersBefore (as ++ before) = markersBefore before := by
  rw [markersBefore, List.dropWhile_append_of_pos has, markersBefore]

theorem sequenceLength_append (before : List Kind) :
    sequenceLength (as ++ before) = as.countP Kind.isForm + sequenceLength before := by
  rw [sequenceLength, List.takeWhile_append_of_pos has, List.countP_append, sequenceLength]

omit has in
theorem markersBefore_replicate (k : Nat) :
    markersBefore (List.replicate k .formComment ++ [.openDelim]) = k ∧
      sequenceLength (List.replicate k .formComment ++ [.openDelim]) = 0 := by
  cases k with
  | zero => exact ⟨rfl, rfl⟩
  | succ k =>
    have hadjacent : adjacentMarkers (List.replicate k .formComment ++ [.openDelim]) = k := by
      induction k with
      | zero => rfl
      | succ k ih =>
        rw [List.replicate_succ, List.cons_append, adjacentMarkers_cons_formComment, ih]
    rw [List.replicate_succ, List.cons_append, markersBefore_cons_of_ends _ rfl,
      adjacentMarkers_cons_formComment, hadjacent, sequenceLength_cons_of_ends _ rfl]
    exact ⟨rfl, rfl⟩

/-- Of the forms in a row the markers in front deactivate as many as there are markers. -/
theorem deactivates_row {kind : Kind} (hkind : kind.isForm = true) (k : Nat) :
    deactivates (as ++ (List.replicate k .formComment ++ [.openDelim])) kind =
      decide (as.countP Kind.isForm < k) := by
  obtain ⟨hmarkers, hlength⟩ := markersBefore_replicate k
  have hordinal : sequenceOrdinal (as ++ (List.replicate k .formComment ++ [.openDelim])) kind =
      as.countP Kind.isForm + 1 := by
    rw [sequenceOrdinal, if_pos hkind]
    exact congrArg (· + 1) ((sequenceLength_append has _).trans (by rw [hlength, Nat.add_zero]))
  rw [deactivates, markersBefore_append has, hmarkers, hordinal, ← Bool.decide_and,
    decide_eq_decide]
  omega

end Looking

namespace Tree

theorem mem_selfAndAncestors_of_mem_locations {l : Location} {n : Node} {above : List Node}
    (h : l ∈ n.locations above) : ⟨n, above⟩ ∈ l.selfAndAncestors := by
  rw [Node.locations_eq] at h
  rcases List.mem_cons.1 h with rfl | h
  · exact List.mem_cons_self
  · obtain ⟨path, habove⟩ := Node.above_of_mem_locationsAll h
    rw [Location.selfAndAncestors, Location.ancestors, habove]
    exact List.mem_cons_of_mem _ (Location.mem_chain_append n path above)

/-- What is inside a node, and lies where a child of it does, is inside that child, if the node
    itself starts before the child. -/
theorem mem_selfAndAncestors_of_within {cs : List Char} (hcs : cs ≠ []) {p l : Location}
    (hp : p ∈ (Tree.read cs).locations) {c : Node} {pre post : List Node}
    (hchildren : p.node.children = pre ++ c :: post) (hl : l ∈ p.node.locations p.above)
    (hbefore : p.node.span.start < c.span.start) (hstart : c.span.start ≤ l.node.span.start)
    (hstop : l.node.span.stop ≤ c.span.stop) : ⟨c, p.node :: p.above⟩ ∈ l.selfAndAncestors := by
  rw [Node.locations_eq] at hl
  rcases List.mem_cons.1 hl with rfl | hl
  · exact absurd hbefore (Nat.not_lt.2 hstart)
  obtain ⟨d, hd, hld⟩ := Node.mem_locationsAll.1 hl
  have hnode := mem_nodes_of_mem_locations hp
  have hmem : ∀ x ∈ p.node.children, x ∈ (Tree.read cs).nodes := fun x hx =>
    mem_nodes_of_mem_children hnode hx
  have htiles := filled_read cs p.node hnode (List.ne_nil_of_mem hd)
  rw [hchildren] at htiles
  obtain ⟨-, -, hpre, hpost⟩ := htiles.around fun x hx =>
    Nat.le_of_lt (lt_stop_read hcs x (hmem x (hchildren ▸ hx)))
  -- the spans of the children do not overlap, and no node is empty
  have hinside : l.node ∈ d.preorder := by
    rw [← Node.map_node_locations (p.node :: p.above) d]
    exact List.mem_map_of_mem hld
  have hspan := span_within hcs (hmem d hd) hinside
  have hlt := lt_stop_read hcs l.node (Node.preorder_subset_of_mem _ (hmem d hd) hinside)
  rw [hchildren] at hd
  rcases List.mem_append.1 hd with hd | hd
  · have := hpre d hd
    omega
  rcases List.mem_cons.1 hd with rfl | hd
  · exact mem_selfAndAncestors_of_mem_locations hld
  · have := hpost d hd
    omega

end Tree

/-- Markers become tokens of the innermost open node. -/
theorem Builder.exists_placeAll_markers {b : Builder} (hb : b.top.kind ≠ .quoted) (start k : Nat) :
    ∃ ms next, ms.map (·.kind) = List.replicate k .formComment ∧
      b.placeAll start (List.replicate k ⟨.marker, ['#', '_']⟩) = b.extend ms next := by
  have hflat : ∀ l ∈ List.replicate k (⟨.marker, ['#', '_']⟩ : Lexeme), l.shape.isFlat = true := by
    intro l hl
    rw [List.eq_of_mem_replicate hl]
    rfl
  refine ⟨_, _, ?_, placeAll_flat hflat hb start⟩
  rw [map_kind_flatNodes, List.map_replicate]
  rfl

namespace Form

variable (k : Nat) {fs : List Form}

theorem exists_lex_renderMarked (hread : ∀ f ∈ fs, f.isReadable = true)
    (hmarked : ∀ f ∈ fs, f.isMarked = false) :
    ∃ ls, lex (renderMarked k fs) = ⟨.opener .vector, ['[']⟩ ::
        (List.replicate k ⟨.marker, ['#', '_']⟩ ++ ls ++ [⟨.closer ']', [']']⟩]) ∧
      ls.flatMap (·.text) = renderAll fs ∧ SpellsRow ls fs := by
  have hcloser : Kind.vector.closer? = some ']' := rfl
  obtain ⟨hend, -, hlast⟩ := closing_of_closer? hcloser []
  obtain ⟨ls, hlex, hls⟩ := exists_lex_renderAll fs hread hmarked hend
  refine ⟨ls, ?_, flatMap_text_eq_of_lex hlex, hls⟩
  have htext :
      renderMarked k fs = Kind.vector.opener ++ (markers k ++ (renderAll fs ++ [']'])) := by
    simp [renderMarked, Kind.opener]
  rw [htext, lex_opener hcloser, lex_markers_append, hlex, hlast]
  simp [lex, Kind.opener]

/-- A vector with markers in front of its forms is read as the markers and a row. -/
theorem exists_read_renderMarked (hread : ∀ f ∈ fs, f.isReadable = true)
    (hmarked : ∀ f ∈ fs, f.isMarked = false) :
    ∃ v first ms ns last, (Tree.read (renderMarked k fs)).root.children = [v] ∧
      v.kind = .vector ∧ v.span.start = 0 ∧ v.children = first :: (ms ++ ns) ++ [last] ∧
      first.kind = .openDelim ∧ ms.map (·.kind) = List.replicate k .formComment ∧
      Row (renderMarked k fs) (byteLength ('[' :: markers k)) fs ns := by
  obtain ⟨ls, hlex, htext, hls⟩ := exists_lex_renderMarked k hread hmarked
  have hmarkers : (List.replicate k (⟨.marker, ['#', '_']⟩ : Lexeme)).flatMap (·.text) =
      markers k := by
    rw [List.flatMap_replicate]
    rfl
  have hstands : StandsAt (renderMarked k fs) (byteLength ('[' :: markers k))
      (ls.flatMap (·.text)) := by
    refine ⟨'[' :: markers k, [']'], ?_, rfl⟩
    rw [htext]
    simp [renderMarked]
  -- the markers are tokens of the open vector, and the row comes after them
  let b := ((Builder.new (renderMarked k fs)).start .vector 0).token .openDelim
    ⟨0, 0 + byteLength ['[']⟩
  have hb : b.top.kind ≠ .quoted := fun h => Kind.noConfusion h
  obtain ⟨ms, mid, hms, hplacems⟩ := Builder.exists_placeAll_markers hb (0 + byteLength ['[']) k
  obtain ⟨ns, next, hns, hplacens⟩ :=
    hls (b.extend ms mid) (byteLength ('[' :: markers k)) hb hstands
  have hitems : b.placeAll (0 + byteLength ['['])
      (List.replicate k ⟨.marker, ['#', '_']⟩ ++ ls) = b.extend (ms ++ ns) next := by
    rw [Builder.placeAll_append, hplacems, hmarkers]
    exact hplacens.trans (Builder.extend_extend ..)
  have hcloser : Kind.vector.closer? = some ']' := rfl
  have hvector := Builder.placeAll_collection hcloser hitems rfl
  have hopen : ∀ v last, ((Builder.new (renderMarked k fs)).extend [v] last).top.kind ≠ .quoted :=
    fun _ _ h => Kind.noConfusion h
  rw [← hlex, Builder.settle_of_kind_ne (hopen _ _)] at hvector
  have hroot := congrArg (fun c : Builder => c.toTree.root.children) hvector
  exact ⟨_, _, ms, ns, _, hroot, rfl, rfl, rfl, rfl, hms, hns⟩

/-- The form after the forms `pre` of the row: it is a child of the vector, where it is written,
    and it is deactivated if there are more markers than forms before it. -/
theorem exists_form_renderMarked (hread : ∀ f ∈ fs, f.isReadable = true)
    (hmarked : ∀ f ∈ fs, f.isMarked = false) {pre post : List Form} {f : Form}
    (hfs : fs = pre ++ f :: post) :
    let t := Tree.read (renderMarked k fs)
    let start := byteLength ('[' :: markers k ++ renderBefore pre)
    ∃ v n as bs, t.root.children = [v] ∧ v.kind = .vector ∧ v.span.start = 0 ∧
      v.children = as ++ n :: bs ∧ List.replicate k .formComment ⊆ as.map (·.kind) ∧
      n.kind.isForm = true ∧ Node.outlineAll (renderMarked k fs) [n] = f.outline ∧
      n.span = ⟨start, start + byteLength f.render⟩ ∧
      deactivates (as.reverse.map (·.kind)) n.kind = decide (pre.length < k) := by
  intro t start
  obtain ⟨v, first, ms, ns, last, hroot, hkind, hstart, hchildren, hfirst, hms, hrow⟩ :=
    exists_read_renderMarked k hread hmarked
  obtain ⟨as, n, bs, rfl, has, hcount, hform, houtline, hspan⟩ := hrow pre f post hfs
  refine ⟨v, n, first :: (ms ++ as), bs ++ [last], hroot, hkind, hstart, ?_, ?_, hform, houtline,
    ?_, ?_⟩
  · rw [hchildren]
    simp
  · rw [List.map_cons, List.map_append, hms]
    exact List.Subset.trans (List.subset_append_left _ _) (List.subset_cons_self _ _)
  · rw [hspan, ← byteLength_append]
  · have hkinds : (first :: (ms ++ as)).reverse.map (·.kind) =
        as.reverse.map (·.kind) ++ (List.replicate k .formComment ++ [.openDelim]) := by
      rw [List.reverse_cons, List.reverse_append, List.map_append, List.map_append,
        List.map_reverse (l := ms), hms, List.reverse_replicate, List.map_singleton, hfirst,
        List.append_assoc]
    have hgoes : ∀ x ∈ as.reverse.map (·.kind), continuesSequence x = true := by
      intro x hx
      obtain ⟨m, hm, rfl⟩ := List.mem_map.1 hx
      exact has m (List.mem_reverse.1 hm)
    rw [hkinds, deactivates_row hgoes hform, List.countP_map, List.countP_reverse, ← hcount]
    rfl

end Form

namespace Tree

variable {cs : List Char} {v n : Node} {as bs : List Node}
  (hroot : (Tree.read cs).root.children = [v])

include hroot

theorem mem_locations_of_children_root : ⟨v, [(Tree.read cs).root]⟩ ∈ (Tree.read cs).locations :=
  children_subset_locations (Node.self_mem_locations _ [])
    (List.mem_map.2 ⟨v, by simp [hroot], rfl⟩)

/-- A form in the only node at the top level belongs to a deactivated form if it is deactivated
    itself. -/
theorem isInDeactivated_of_children_root (hchildren : v.children = as ++ n :: bs)
    (hform : n.kind.isForm = true) :
    (⟨n, [v, (Tree.read cs).root]⟩ : Location).isInDeactivated =
      deactivates (as.reverse.map (·.kind)) n.kind := by
  have hinorder := Builder.inOrder_read cs
  have hself := hinorder.before_eq (mem_locations_of_children_root hroot) hchildren
  have houter := hinorder.before_eq (Node.self_mem_locations _ [])
    (show (Tree.read cs).root.children = [] ++ v :: [] from hroot)
  have houterOff : (⟨v, [(Tree.read cs).root]⟩ : Location).isDeactivated = false := by
    rw [Location.isDeactivated, houter]
    rfl
  have hkind : (Tree.read cs).root.kind = .root := (Builder.waiting_reading cs).closable.toTree.1
  have hrootForm : (Tree.read cs).root.kind.isForm = false := by rw [hkind]; rfl
  simp only [Location.isInDeactivated, Location.selfAndAncestors, Location.ancestors,
    Location.chain, List.any_cons, List.any_nil, houterOff, hrootForm, hform, Bool.and_false,
    Bool.false_and, Bool.or_false, Bool.true_and]
  rw [Location.isDeactivated, hself]

/-- What lies within the span of a child of the only node at the top level is inside that
    child. -/
theorem mem_selfAndAncestors_of_children_root (hcs : cs ≠ [])
    (hchildren : v.children = as ++ n :: bs) (hstart : v.span.start = 0)
    (hpos : 0 < n.span.start) {l : Location} (hl : l ∈ (Tree.read cs).locations)
    (hlstart : n.span.start ≤ l.node.span.start) (hlstop : l.node.span.stop ≤ n.span.stop) :
    ⟨n, [v, (Tree.read cs).root]⟩ ∈ l.selfAndAncestors := by
  have hv := mem_locations_of_children_root hroot
  rw [locations_eq, hroot] at hl
  rcases List.mem_cons.1 hl with rfl | hl
  · -- the root starts where the text does
    have hspan := congrArg Span.start (span_root_read hcs)
    rw [hspan] at hlstart
    exact absurd hpos (Nat.not_lt.2 hlstart)
  · obtain ⟨d, hd, hld⟩ := Node.mem_locationsAll.1 hl
    obtain rfl := List.mem_singleton.1 hd
    exact mem_selfAndAncestors_of_within hcs hv hchildren hld (hstart ▸ hpos) hlstart hlstop

end Tree

namespace Form

/-- If `k` markers stand in front of the first of the plain forms in a vector, none of them
    itself marked, then every node within the span of one of the first `k` forms is inert, and
    none of the other forms is. -/
theorem isInert_read_renderMarked {k : Nat} {fs : List Form} (hk : 1 ≤ k)
    (hplain : ∀ f ∈ fs, f.isPlain = true) (hmarked : ∀ f ∈ fs, f.isMarked = false)
    {pre post : List Form} {f : Form} (hfs : fs = pre ++ f :: post) :
    let t := Tree.read (renderMarked k fs)
    let start := byteLength ('[' :: markers k ++ renderBefore pre)
    let stop := start + byteLength f.render
    ∃ form ∈ t.locations, form.node.kind.isForm = true ∧ form.node.span = ⟨start, stop⟩ ∧
      Node.outlineAll t.source [form.node] = f.outline ∧
      (pre.length < k → ∀ l ∈ t.locations, start ≤ l.node.span.start → l.node.span.stop ≤ stop →
        t.isInert l = true) ∧
      (k ≤ pre.length → t.isInert form = false) := by
  intro t start stop
  have hread : ∀ f ∈ fs, f.isReadable = true := fun f hf => isReadable_of_isPlain f (hplain f hf)
  obtain ⟨v, n, as, bs, hroot, hkind, hstart, hchildren, hmarkers, hform, houtline, hspan, hoff⟩ :=
    exists_form_renderMarked k hread hmarked hfs
  have hn : ⟨n, [v, t.root]⟩ ∈ t.locations :=
    Tree.children_subset_locations (Tree.mem_locations_of_children_root hroot)
      (List.mem_map.2 ⟨n, by simp [hchildren], rfl⟩)
  have hinside : (⟨n, [v, t.root]⟩ : Location).isInDeactivated = decide (pre.length < k) :=
    (Tree.isInDeactivated_of_children_root hroot hchildren hform).trans hoff
  refine ⟨_, hn, hform, hspan, ?_, fun hlt l hl hlstart hlstop => ?_, fun hle => ?_⟩
  · rw [Tree.source_read]
    exact houtline
  · have hpos : 0 < n.span.start := by
      rw [hspan]
      exact Nat.add_pos_left Nat.one_pos _
    have hmem := Tree.mem_selfAndAncestors_of_children_root hroot (List.cons_ne_nil _ _) hchildren
      hstart hpos hl (by rw [hspan]; exact hlstart) (by rw [hspan]; exact hlstop)
    exact Tree.isInert_of_isInDeactivated _ hmem hform (hinside.trans (decide_eq_true hlt))
  · have hmarker : (v.children.any (·.kind == .formComment)) = true := by
      have hmem := hmarkers (List.mem_replicate.2 ⟨Nat.ne_of_gt hk, rfl⟩)
      obtain ⟨m, hm, hmkind⟩ := List.mem_map.1 hmem
      refine List.any_eq_true.2 ⟨m, hchildren ▸ List.mem_append_left _ hm, ?_⟩
      rw [hmkind]
      rfl
    rw [Tree.isInert_eq_of_marker t hform hmarker, hinside, decide_eq_false (Nat.not_lt.2 hle)]

/-- Two markers in front of three forms, the second with forms inside. -/
theorem isInert_read_renderMarked_two :
    let fs := [quoted (symbol "a"), vector [symbol "b", str "c"], keyword "d"]
    let t := Tree.read (renderMarked 2 fs)
    renderMarked 2 fs = "[#_#_'a [b \"c\"] :d]".toList ∧
      (∀ l ∈ t.locations, 8 ≤ l.node.span.start → l.node.span.stop ≤ 15 → t.isInert l = true) ∧
      ∃ form ∈ t.locations, form.node.span = ⟨16, 18⟩ ∧ t.isInert form = false := by
  intro fs t
  have hplain : ∀ f ∈ fs, f.isPlain = true :=
    List.all_eq_true.1 (show fs.all isPlain = true by decide)
  have hmarked : ∀ f ∈ fs, f.isMarked = false := by simp [fs, isMarked]
  have hsecond : fs = [quoted (symbol "a")] ++
      vector [symbol "b", str "c"] :: [keyword "d"] := rfl
  have hthird : fs = [quoted (symbol "a"), vector [symbol "b", str "c"]] ++ keyword "d" :: [] := rfl
  obtain ⟨-, -, -, -, -, hinert, -⟩ :=
    isInert_read_renderMarked (show 1 ≤ 2 by decide) hplain hmarked hsecond
  obtain ⟨form, hform, -, hspan, -, -, hactive⟩ :=
    isInert_read_renderMarked (show 1 ≤ 2 by decide) hplain hmarked hthird
  exact ⟨rfl, hinert (by decide), form, hform, hspan, hactive (by decide)⟩

end Form

end Typeahead
