import Typeahead.Proofs.Lossless

/-!
# Tokens and lexemes

The leaves of the tree of a text are the lexemes of the text, one by one
(`Tokens`): the shape of a lexeme tells the kind of its token, and the token
stands strictly inside the nodes around it unless it is the one that opened the
innermost of them. Hence every node covers a run of lexemes, from the first
token inside it to the last.

* `tokens_leaves_read`: the leaves of the tree of a text are the tokens of its
  lexemes;
* `exists_run_of_mem_below`: every node but the root covers the text of a
  run of lexemes, of which its leaves are the tokens.
-/

namespace Typeahead

/-- The kinds that the token of a lexeme of this shape can have. -/
def Shape.kinds : Shape → List Kind
  | .blank => [.whitespace]
  | .comment => [.lineComment]
  | .marker => [.formComment]
  | .opener _ => [.openDelim]
  | .closer _ => [.closeDelim, .error]
  | .sigil => [.sigil]
  | .atom kind => [kind]

/-- Only atoms become forms at once. -/
theorem Shape.eq_atom_of_mem_kinds {s : Shape} {kind : Kind} (h : kind ∈ s.kinds)
    (hform : kind.isForm = true) : s = .atom kind := by
  cases s with
  | atom k => rw [List.mem_singleton.1 h]
  | closer d =>
    rcases List.mem_cons.1 h with rfl | h
    · cases hform
    · rw [List.mem_singleton.1 h] at hform
      cases hform
  | blank | comment | marker | opener k | sigil =>
    rw [List.mem_singleton.1 h] at hform
    cases hform

/-- The leaf is the token of the lexeme `l`, which starts at the offset `start`. -/
structure Leaf.IsToken (leaf : Leaf) (start : Nat) (l : Lexeme) : Prop where
  children_eq : leaf.node.children = []
  span_eq : leaf.node.span = ⟨start, start + byteLength l.text⟩
  kind_mem : leaf.node.kind ∈ l.shape.kinds
  /-- Every node around a token starts before it, unless the token opens one. -/
  inside : leaf.node.kind = .openDelim ∨ leaf.node.kind = .sigil ∨
    ∀ g ∈ leaf.trail, g.kind = .root ∨ g.start < start
  /-- Every node around a token has parts, the root apart. -/
  nested : ∀ g ∈ leaf.trail.dropLast, g.kind.isNested = true

/-- The leaves are the tokens of the lexemes, which follow each other from the
    offset `start` on. -/
inductive Tokens : Nat → List Lexeme → List Leaf → Prop
  | nil (start : Nat) : Tokens start [] []
  | cons {start : Nat} {l : Lexeme} {ls : List Lexeme} {leaf : Leaf} {leaves : List Leaf} :
    leaf.IsToken start l → Tokens (start + byteLength l.text) ls leaves →
    Tokens start (l :: ls) (leaf :: leaves)

namespace Tokens

variable {start : Nat} {ls : List Lexeme} {leaves : List Leaf}

theorem append_left {ms : List Lexeme} (h : Tokens start (ls ++ ms) leaves) :
    ∃ as bs, leaves = as ++ bs ∧ Tokens start ls as ∧
      Tokens (start + byteLength (ls.flatMap (·.text))) ms bs := by
  induction ls generalizing start leaves with
  | nil => exact ⟨[], leaves, rfl, .nil start, h⟩
  | cons l ls ih =>
    cases h with
    | cons hleaf hrest =>
      obtain ⟨as, bs, rfl, has, hbs⟩ := ih hrest
      rw [Nat.add_assoc, ← byteLength_append] at hbs
      exact ⟨_ :: as, bs, rfl, .cons hleaf has, hbs⟩

theorem append_right {as bs : List Leaf} (h : Tokens start ls (as ++ bs)) :
    ∃ ms ns, ls = ms ++ ns ∧ Tokens start ms as ∧
      Tokens (start + byteLength (ms.flatMap (·.text))) ns bs := by
  induction as generalizing start ls with
  | nil => exact ⟨[], ls, rfl, .nil start, h⟩
  | cons a as ih =>
    cases h with
    | cons hleaf hrest =>
      obtain ⟨ms, ns, rfl, hms, hns⟩ := ih hrest
      rw [Nat.add_assoc, ← byteLength_append] at hns
      exact ⟨_ :: ms, ns, rfl, .cons hleaf hms, hns⟩

theorem tiles (h : Tokens start ls leaves) :
    Tiles start (start + byteLength (ls.flatMap (·.text))) (leaves.map (·.node)) := by
  induction h with
  | nil start => rfl
  | cons hleaf _ ih =>
    rw [List.flatMap_cons, byteLength_append, ← Nat.add_assoc, List.map_cons, Tiles, hleaf.span_eq]
    exact ⟨rfl, ih⟩

theorem eq_nil (h : Tokens start [] leaves) : leaves = [] := by
  cases h
  rfl

/-- A lexeme has its token between those of the lexemes around it. -/
theorem exists_split {l : Lexeme} {ms : List Lexeme} (h : Tokens start (ls ++ l :: ms) leaves) :
    ∃ as leaf bs, leaves = as ++ leaf :: bs ∧ Tokens start ls as ∧
      leaf.IsToken (start + byteLength (ls.flatMap (·.text))) l ∧
      Tokens (start + byteLength (ls.flatMap (·.text)) + byteLength l.text) ms bs := by
  obtain ⟨as, bs, rfl, has, hbs⟩ := h.append_left
  cases hbs with
  | cons hleaf hrest => exact ⟨as, _, _, rfl, has, hleaf, hrest⟩

/-- A leaf is the token of one of the lexemes. -/
theorem exists_lexeme {leaf : Leaf} (h : Tokens start ls leaves) (hleaf : leaf ∈ leaves) :
    ∃ before l after, ls = before ++ l :: after ∧
      leaf.IsToken (start + byteLength (before.flatMap (·.text))) l := by
  obtain ⟨as, bs, rfl⟩ := List.append_of_mem hleaf
  obtain ⟨ms, ns, rfl, -, hns⟩ := h.append_right
  cases hns with
  | cons hleaf _ => exact ⟨ms, _, _, rfl, hleaf⟩

/-- The tokens of lexemes lie within the text of the lexemes. -/
theorem span_of_mem {leaf : Leaf} (h : Tokens start ls leaves) (hleaf : leaf ∈ leaves) :
    start ≤ leaf.node.span.start ∧
      leaf.node.span.stop ≤ start + byteLength (ls.flatMap (·.text)) := by
  obtain ⟨before, l, after, rfl, htoken⟩ := h.exists_lexeme hleaf
  rw [htoken.span_eq, List.flatMap_append, List.flatMap_cons, byteLength_append, byteLength_append]
  exact ⟨Nat.le_add_right .., by simp only; omega⟩

end Tokens

/-! ### Placing lexemes adds their tokens -/

namespace Builder

variable {b b' : Builder} {start stop : Nat} {l : Lexeme}

theorem trail_finish_subset (b : Builder) (stop : Nat) : (b.finish stop).trail ⊆ b.trail := by
  cases hbelow : b.below with
  | nil =>
    rw [finish_nil hbelow]
    exact List.Subset.refl _
  | cons f fs =>
    intro g hg
    rw [finish_cons hbelow] at hg
    rw [trail, frames, hbelow]
    exact List.mem_cons_of_mem _ hg

theorem Closing.trail_subset {p : Kind → Prop} (h : Closing stop p b b') : b'.trail ⊆ b.trail :=
  h.keeps (P := fun c => c.trail ⊆ b.trail)
    (fun c _ _ hc => List.Subset.trans (trail_finish_subset c stop) hc) (List.Subset.refl _)

/-- What is open after a lexeme was open before, or starts with the lexeme. -/
theorem Outcome.mem_trail (h : Outcome b start l b') :
    ∀ g ∈ b'.trail, g ∈ b.trail ∨ g.start = start := by
  intro g hg
  cases h with
  | filler _ => exact .inl hg
  | stray _ _ _ => exact .inl hg
  | opening _ =>
    rcases List.mem_cons.1 hg with rfl | hg
    · exact .inr rfl
    · exact .inl hg
  | atom _ => exact .inl ((closing_settle (b.token _ _) _).trail_subset hg)
  | closing _ _ =>
    have hfinish :=
      trail_finish_subset _ _ ((closing_settle (Builder.finish _ _) _).trail_subset hg)
    exact .inl ((closing_unwindTo b _ start).trail_subset hfinish)

/-- Every open node has parts, the root apart. -/
theorem Stacked.isNested_trail {fs : List Frame} (h : Stacked fs) :
    ∀ g ∈ (fs.map Frame.heading).dropLast, g.kind.isNested = true := by
  induction fs with
  | nil => exact h.elim
  | cons f fs ih =>
    cases fs with
    | nil => exact fun g hg => absurd hg List.not_mem_nil
    | cons f' fs =>
      intro g hg
      rcases List.mem_cons.1 hg with rfl | hg
      · exact h.1
      · exact ih h.2.2 g hg

/-- Placing a lexeme adds its token, inside nodes that were open before or, if
    the token opens one, that start with it. -/
theorem exists_token_place (hl : l.Sound) (hb : Stacked b.frames)
    (hstart : ∀ g ∈ b.trail, g.kind = .root ∨ g.start < start) :
    ∃ leaf : Leaf, (b.place start l).leaves = b.leaves ++ [leaf] ∧ leaf.IsToken start l := by
  have hnested := hb.isNested_trail
  rw [place.eq_def]
  split
  · next hk =>
    exact ⟨_, leaves_token .., rfl, rfl, by simp [hk, Shape.kinds], .inr (.inr hstart), hnested⟩
  · next hk =>
    exact ⟨_, leaves_token .., rfl, rfl, by simp [hk, Shape.kinds], .inr (.inr hstart), hnested⟩
  · next hk =>
    exact ⟨_, leaves_token .., rfl, rfl, by simp [hk, Shape.kinds], .inr (.inr hstart), hnested⟩
  · next kind hk =>
    have hkind : kind.isNested = true := by rw [Kind.isNested, hl.opener kind hk, Bool.true_or]
    have hs := hb.start_token hkind start .openDelim ⟨start, start + byteLength l.text⟩
    exact ⟨_, leaves_start_token .., rfl, rfl, by simp [hk, Shape.kinds], .inl rfl,
      hs.isNested_trail⟩
  · next hk =>
    have hquoted : Kind.quoted.isNested = true := rfl
    have hs := hb.start_token hquoted start .sigil ⟨start, start + byteLength l.text⟩
    exact ⟨_, leaves_start_token .., rfl, rfl, by simp [hk, Shape.kinds], .inr (.inl rfl),
      hs.isNested_trail⟩
  · next kind hk =>
    have hsettle := (closing_settle _ (start + byteLength l.text)).leaves_eq
      (hb.token kind ⟨start, start + byteLength l.text⟩)
    exact ⟨_, hsettle.2.trans (leaves_token ..), rfl, rfl, by simp [hk, Shape.kinds],
      .inr (.inr hstart), hnested⟩
  · next d hk =>
    split
    · have hclosing := closing_unwindTo b d start
      obtain ⟨hs, he⟩ := hclosing.leaves_eq hb
      have hsettle := (closing_settle _ (start + byteLength l.text)).leaves_eq
        ((hs.token .closeDelim ⟨start, start + byteLength l.text⟩).finish
          (start + byteLength l.text))
      rw [leaves_finish (List.cons_ne_nil _ _), leaves_token, he] at hsettle
      exact ⟨_, hsettle.2, rfl, rfl, by simp [hk, Shape.kinds],
        .inr (.inr fun g hg => hstart g (hclosing.trail_subset hg)), hs.isNested_trail⟩
    · exact ⟨_, leaves_token .., rfl, rfl, by simp [hk, Shape.kinds], .inr (.inr hstart), hnested⟩

theorem tokens_placeAll {ls : List Lexeme} (hls : ∀ l ∈ ls, l.Sound) (hb : Stacked b.frames)
    (hstart : ∀ g ∈ b.trail, g.kind = .root ∨ g.start < start) :
    ∃ leaves, (b.placeAll start ls).leaves = b.leaves ++ leaves ∧ Tokens start ls leaves := by
  induction ls generalizing b start with
  | nil => exact ⟨[], (List.append_nil _).symm, .nil start⟩
  | cons l ls ih =>
    have hl := hls l List.mem_cons_self
    have houtcome := outcome_place hl b start
    obtain ⟨leaf, hleaves, htoken⟩ := exists_token_place hl hb hstart
    have hpos := byteLength_pos hl.text_ne_nil
    have hstart' : ∀ g ∈ (b.place start l).trail,
        g.kind = .root ∨ g.start < start + byteLength l.text := by
      intro g hg
      rcases houtcome.mem_trail g hg with hg | hg
      · exact (hstart g hg).imp_right fun h => Nat.lt_add_right _ h
      · exact .inr (by omega)
    obtain ⟨leaves, hrest, htokens⟩ :=
      ih (fun l h => hls l (List.mem_cons_of_mem _ h)) (houtcome.leaves_eq hb).1 hstart'
    refine ⟨leaf :: leaves, ?_, .cons htoken htokens⟩
    rw [placeAll, hrest, hleaves, List.append_assoc, List.singleton_append]

end Builder

/-- The leaves of the tree of a text are the tokens of its lexemes. -/
theorem Tree.tokens_leaves_read (cs : List Char) : Tokens 0 (lex cs) (Tree.read cs).leaves := by
  have hnew : Builder.Stacked (Builder.new cs).frames := rfl
  have hroot : ∀ g ∈ (Builder.new cs).trail, g.kind = .root ∨ g.start < 0 := by
    intro g hg
    exact .inl (by rw [List.mem_singleton.1 hg]; rfl)
  have hsound : ∀ l ∈ lex cs, l.Sound := fun _ => sound_of_mem_lex
  have hs := (Builder.leaves_placeAll hsound hnew 0).1
  obtain ⟨leaves, hleaves, htokens⟩ := Builder.tokens_placeAll hsound hnew hroot
  have h : (Tree.read cs).leaves = leaves := (Builder.leaves_toTree hs).trans hleaves
  rwa [h]

/-! ### Nodes cover runs of lexemes -/

namespace Node

mutual

theorem leaves_ne_nil (trail : List Heading) : (n : Node) → n.leaves trail ≠ []
  | ⟨_, _, _, []⟩ => by
    rw [leaves]
    exact List.cons_ne_nil _ _
  | ⟨id, kind, span, n :: ns⟩ => by
    rw [leaves]
    exact leavesAll_ne_nil _ (n :: ns) (List.cons_ne_nil _ _)

theorem leavesAll_ne_nil (trail : List Heading) : (ns : List Node) → ns ≠ [] →
    leavesAll trail ns ≠ []
  | [], h => absurd rfl h
  | n :: ns, _ => by
    rw [leavesAll]
    exact fun h => leaves_ne_nil trail n (List.append_eq_nil_iff.1 h).1

end

mutual

/-- The leaves inside a node follow each other from its start to its end. -/
theorem tiles_leaves (trail : List Heading) : (n : Node) → (∀ m ∈ n.preorder, m.Filled) →
    Tiles n.span.start n.span.stop ((n.leaves trail).map (·.node))
  | ⟨_, _, _, []⟩, _ => by
    rw [leaves]
    exact tiles_singleton.2 rfl
  | ⟨id, kind, span, n :: ns⟩, h => by
    rw [leaves]
    rw [preorder] at h
    exact tiles_leavesAll _ (n :: ns) (fun m hm => h m (List.mem_cons_of_mem _ hm))
      (h _ List.mem_cons_self (List.cons_ne_nil _ _))

theorem tiles_leavesAll (trail : List Heading) : (ns : List Node) →
    (∀ m ∈ preorderAll ns, m.Filled) → ∀ {start stop : Nat}, Tiles start stop ns →
      Tiles start stop ((leavesAll trail ns).map (·.node))
  | [], _, _, _, htiles => htiles
  | n :: ns, h, _, _, htiles => by
    rw [preorderAll] at h
    obtain ⟨rfl, hrest⟩ := htiles
    rw [leavesAll, List.map_append]
    exact tiles_append.2 ⟨n.span.stop,
      tiles_leaves trail n fun m hm => h m (List.mem_append_left _ hm),
      tiles_leavesAll trail ns (fun m hm => h m (List.mem_append_right _ hm)) hrest⟩

end

mutual

/-- The leaves inside a node follow each other in the tree. -/
theorem exists_leaves_of_mem_locations {l : Location} (above : List Node) : (n : Node) →
    l ∈ n.locations above →
      ∃ as bs, n.leaves (above.map heading) = as ++ (l.node.leaves l.trail ++ bs)
  | ⟨_, _, _, []⟩, hl => by
    rw [locations, locationsAll, List.mem_singleton] at hl
    exact ⟨[], [], by rw [hl, List.append_nil, List.nil_append]; rfl⟩
  | ⟨id, kind, span, n :: ns⟩, hl => by
    rw [locations] at hl
    rcases List.mem_cons.1 hl with rfl | hl
    · exact ⟨[], [], by rw [List.append_nil, List.nil_append]; rfl⟩
    · rw [leaves]
      exact exists_leaves_of_mem_locationsAll (⟨id, kind, span, n :: ns⟩ :: above) (n :: ns) hl

theorem exists_leaves_of_mem_locationsAll {l : Location} (above : List Node) : (ns : List Node) →
    l ∈ locationsAll above ns →
      ∃ as bs, leavesAll (above.map heading) ns = as ++ (l.node.leaves l.trail ++ bs)
  | [], hl => absurd hl (by rw [locationsAll]; exact List.not_mem_nil)
  | n :: ns, hl => by
    rw [locationsAll] at hl
    rw [leavesAll]
    rcases List.mem_append.1 hl with hl | hl
    · obtain ⟨as, bs, h⟩ := exists_leaves_of_mem_locations above n hl
      exact ⟨as, bs ++ leavesAll (above.map heading) ns, by rw [h]; simp⟩
    · obtain ⟨as, bs, h⟩ := exists_leaves_of_mem_locationsAll above ns hl
      exact ⟨n.leaves (above.map heading) ++ as, bs, by rw [h, List.append_assoc]⟩

end

theorem mem_preorder_self (n : Node) : n ∈ n.preorder := by
  rw [preorder_eq]
  exact List.mem_cons_self

mutual

/-- What is inside a node inside `n` is inside `n`. -/
theorem preorder_subset_of_mem {m : Node} : (n : Node) → m ∈ n.preorder → m.preorder ⊆ n.preorder
  | ⟨id, kind, span, ns⟩, hm => by
    rw [preorder] at hm
    rcases List.mem_cons.1 hm with rfl | hm
    · exact List.Subset.refl _
    · rw [preorder]
      exact List.subset_cons_of_subset _ (preorderAll_subset_of_mem ns hm)

theorem preorderAll_subset_of_mem {m : Node} : (ns : List Node) → m ∈ preorderAll ns →
    m.preorder ⊆ preorderAll ns
  | [], hm => absurd hm (by rw [preorderAll]; exact List.not_mem_nil)
  | n :: ns, hm => by
    rw [preorderAll] at hm ⊢
    rcases List.mem_append.1 hm with hm | hm
    · exact List.subset_append_of_subset_left _ (preorder_subset_of_mem n hm)
    · exact List.subset_append_of_subset_right _ (preorderAll_subset_of_mem ns hm)

end

end Node

theorem Tiles.unique {start start' stop stop' : Nat} {ns : List Node} (hne : ns ≠ [])
    (h : Tiles start stop ns) (h' : Tiles start' stop' ns) : start = start' ∧ stop = stop' := by
  induction ns generalizing start start' with
  | nil => exact absurd rfl hne
  | cons n ns ih =>
    obtain ⟨hs, hrest⟩ := h
    obtain ⟨hs', hrest'⟩ := h'
    refine ⟨hs.symm.trans hs', ?_⟩
    by_cases hns : ns = []
    · subst hns
      exact hrest.symm.trans hrest'
    · exact (ih hns hrest hrest').2

namespace Tree

theorem mem_nodes_of_mem_locations {t : Tree} {l : Location} (hl : l ∈ t.locations) :
    l.node ∈ t.nodes := by
  rw [nodes, ← Node.map_node_locations []]
  exact List.mem_map_of_mem hl

theorem filled_read (cs : List Char) : ∀ n ∈ (Tree.read cs).nodes, n.Filled := by
  have htiled : Builder.Tiled (byteLength (Builder.reading cs).source) (Builder.reading cs) := by
    rw [Builder.source_reading]
    exact Builder.tiled_reading cs
  exact htiled.toTree.2

/-- A node covers the text of the lexemes of which its leaves are the tokens. -/
structure CoversRun (t : Tree) (l : Location) (before run : List Lexeme) : Prop where
  run_ne_nil : run ≠ []
  tokens : Tokens (byteLength (before.flatMap (·.text))) run (l.node.leaves l.trail)
  span_eq : l.node.span = ⟨byteLength (before.flatMap (·.text)),
    byteLength (before.flatMap (·.text)) + byteLength (run.flatMap (·.text))⟩
  chars_eq : t.chars l.node = run.flatMap (·.text)

/-- Every node but the root covers a run of lexemes. -/
theorem exists_run_of_mem_below {cs : List Char} {l : Location}
    (hl : l ∈ (Tree.read cs).below) :
    ∃ before run after, lex cs = before ++ (run ++ after) ∧
      (Tree.read cs).CoversRun l before run := by
  have hnode := mem_nodes_of_mem_locations (mem_locations_of_below hl)
  have hfilled : ∀ m ∈ l.node.preorder, m.Filled := fun m hm =>
    filled_read cs m (Node.preorder_subset_of_mem _ hnode hm)
  obtain ⟨as, bs, hleaves⟩ := Node.exists_leaves_of_mem_locationsAll _ _ hl
  have htokens : Tokens 0 (lex cs) (as ++ (l.node.leaves l.trail ++ bs)) :=
    hleaves ▸ tokens_leaves_read cs
  obtain ⟨before, rest, hlex, -, hrest⟩ := htokens.append_right
  obtain ⟨run, after, rfl, hrun, -⟩ := hrest.append_right
  rw [Nat.zero_add] at hrun
  have hne := Node.leaves_ne_nil l.trail l.node
  obtain ⟨hstart, hstop⟩ := Tiles.unique (mt List.map_eq_nil_iff.1 hne)
    (Node.tiles_leaves l.trail l.node hfilled) hrun.tiles
  have hspan : l.node.span = ⟨byteLength (before.flatMap (·.text)),
      byteLength (before.flatMap (·.text)) + byteLength (run.flatMap (·.text))⟩ := by
    rw [← hstop, ← hstart]
  refine ⟨before, run, after, hlex, ?_, hrun, hspan, ?_⟩
  · rintro rfl
    exact hne (Tokens.eq_nil hrun)
  · have hcs : StandsAt cs (byteLength (before.flatMap (·.text))) (run.flatMap (·.text)) := by
      refine ⟨before.flatMap (·.text), after.flatMap (·.text), ?_, rfl⟩
      rw [← List.flatMap_append, ← List.flatMap_append, ← hlex, flatMap_text_lex]
    have hsource : (Tree.read cs).source = cs := Builder.source_reading cs
    rw [chars, hspan, hsource, hcs.slice_eq]

theorem chars_ne_nil_of_mem_below {cs : List Char} {l : Location} (hl : l ∈ (Tree.read cs).below) :
    (Tree.read cs).chars l.node ≠ [] := by
  obtain ⟨before, run, after, hlex, hrun⟩ := exists_run_of_mem_below hl
  obtain ⟨first, run, rfl⟩ := List.exists_cons_of_ne_nil hrun.run_ne_nil
  have hfirst : first ∈ lex cs := by simp [hlex]
  rw [hrun.chars_eq]
  exact fun hnil => (sound_of_mem_lex hfirst).text_ne_nil (List.append_eq_nil_iff.1 hnil).1

end Tree

end Typeahead
