import Typeahead.Proofs.CallSlots
import Typeahead.Proofs.MarkedLexemes
import Typeahead.Proofs.Marking

/-!
# A marker in a text

A marker that is put into a text right before a node with parts, where no word ends, is
a lexeme more and changes no other. So the tree of the text is the one without the
marker, marked (`Node.mark`): the new node is the sibling right before the node.

* `CutsBefore.root_read_mark`: the tree of the text with the marker;
* `CutsBefore.sides`: how the nodes lie to the marker;
* `Tree.exists_cutsBefore`: the cut before a node.
-/

namespace Typeahead

/-! ### The tree -/

namespace Builder

/-- The tree of a text under construction, when the first lexemes were placed. -/
def readUpTo (cs : List Char) (before : List Lexeme) : Builder := (new cs).placeAll 0 before

theorem source_readUpTo (cs : List Char) (before : List Lexeme) (pos : Nat) (ls : List Lexeme) :
    ((readUpTo cs before).placeAll pos ls).source = cs := by
  rw [source_placeAll, readUpTo, source_placeAll]
  rfl

section ReadUpTo

variable {cs : List Char} {before after : List Lexeme} {l : Lexeme}
  (hlex : lex cs = before ++ l :: after)

include hlex

theorem orderly_readUpTo :
    (readUpTo cs before).Orderly (byteLength (before.flatMap (·.text))) := by
  have hsound : ∀ k ∈ lex cs, k.Sound := fun _ hk => sound_of_mem_lex hk
  refine orderly_placeAll (fun k hk => hsound k (by simp [hlex, hk])) ?_
  refine ⟨[], (l :: after).flatMap (·.text), ?_, rfl⟩
  rw [List.nil_append, ← List.flatMap_append, ← hlex, flatMap_text_lex]

theorem read_eq_readUpTo : Tree.read cs =
    ((readUpTo cs before).placeAll (byteLength (before.flatMap (·.text))) (l :: after)).toTree := by
  rw [Tree.read, hlex, placeAll_append, Nat.zero_add]
  rfl

end ReadUpTo

end Builder

namespace CutsBefore

variable {u w : List Char} {before : List Lexeme} {l : Lexeme} {after : List Lexeme}

theorem orderly (h : CutsBefore u w before l after) :
    (Builder.readUpTo (u ++ w) before).Orderly (byteLength u) := by
  have horderly := Builder.orderly_readUpTo h.lex_eq
  rwa [h.left_eq] at horderly

theorem read_eq (h : CutsBefore u w before l after) :
    Tree.read (u ++ w) =
      ((Builder.readUpTo (u ++ w) before).placeAll (byteLength u) (l :: after)).toTree := by
  have hread := Builder.read_eq_readUpTo h.lex_eq
  rwa [h.left_eq] at hread

/-- The marker that is put in at the cut. -/
def mark (u w : List Char) (before : List Lexeme) : Mark :=
  (Builder.readUpTo (u ++ w) before).nextMark (byteLength u)

theorem lt_add (h : CutsBefore u w before l after) :
    (mark u w before).offset < byteLength u + byteLength l.text :=
  Nat.lt_add_of_pos_right (byteLength_pos (h.ne_nil_of_mem (k := l) (by simp)))

theorem lt_byteLength (h : CutsBefore u w before l after) :
    (mark u w before).offset < byteLength (u ++ w) := by
  have hright := congrArg byteLength h.right_eq
  have hlt := h.lt_add
  rw [byteLength_append] at hright ⊢
  omega

theorem passed (h : CutsBefore u w before l after) :
    (Builder.readUpTo (u ++ w) before).Passed (mark u w before) :=
  h.orderly.passed

theorem place_marker (h : CutsBefore u w before l after) (src : List Char) :
    ((Builder.readUpTo (u ++ w) before).withSource src).place (byteLength u)
        ⟨.marker, ['#', '_']⟩ =
      (Builder.readUpTo (u ++ w) before).mark (mark u w before) src := by
  have htwo : byteLength ['#', '_'] = 2 := by decide
  have htoken := Builder.token_eq_mark h.orderly
  rw [Builder.place_withSource, Builder.place]
  dsimp only
  rw [htwo, htoken]
  rfl

/-- The tree of the text with a marker at the cut. -/
theorem root_read_mark (h : CutsBefore u w before l after) :
    (Tree.read (u ++ '#' :: '_' :: w)).root = (Tree.read (u ++ w)).root.mark (mark u w before) := by
  have htwo : byteLength ['#', '_'] = 2 := by decide
  have hnew : Builder.new (u ++ '#' :: '_' :: w) =
      (Builder.new (u ++ w)).withSource (u ++ '#' :: '_' :: w) := rfl
  have hcloser : ∀ d, l.shape = .closer d → (mark u w before).offset < byteLength u := by
    intro d hd
    rcases h.opens with ⟨kind, hshape⟩ | hshape <;> (rw [hd] at hshape; cases hshape)
  rw [Tree.read, h.lex_insert, Builder.placeAll_append, h.left_eq, Nat.zero_add, hnew,
    Builder.placeAll_withSource, Builder.placeAll, ← Builder.readUpTo, h.place_marker]
  dsimp only
  rw [htwo, Builder.placeAll, Builder.place_mark h.passed h.lt_add hcloser,
    Nat.add_right_comm, Builder.placeAll_mark (h.passed.place _ _) h.lt_add, h.read_eq,
    ← Builder.placeAll, Builder.root_toTree_mark]
  · rw [Builder.source_readUpTo]
    exact h.lt_byteLength
  · rw [Builder.source_readUpTo, byteLength_append, byteLength_append, byteLength_marker,
      Nat.add_assoc]

end CutsBefore

/-! ### Nodes before, around and after the marker -/

/-- How a node lies to a marker: it ends before it, it is open there, or it comes after
    it. -/
inductive Mark.Sides (m : Mark) (n : Node) : Prop
  | before : n.id < m.id → n.span.stop ≤ m.offset → m.Sides n
  | around : n.id < m.id → n.span.start ≤ m.offset → m.offset < n.span.stop →
    n.kind = .root ∨ n.kind.isNested = true → m.Sides n
  | after : m.id ≤ n.id → m.offset ≤ n.span.start → m.offset < n.span.stop → m.Sides n

/-- The same for a node that is still open. -/
def Frame.Sides (m : Mark) (f : Frame) : Prop :=
  f.id < m.id ∧ f.start ≤ m.offset ∧ (f.kind = .root ∨ f.kind.isNested = true) ∨
    m.id ≤ f.id ∧ m.offset ≤ f.start

theorem Frame.Sides.close {m : Mark} {f : Frame} (h : f.Sides m) {stop : Nat}
    (hstop : m.offset < stop) : m.Sides (f.close stop) := by
  rcases h with ⟨hid, hstart, hkind⟩ | ⟨hid, hstart⟩
  · exact .around hid hstart hstop hkind
  · exact .after hid hstart hstop

namespace Builder

variable {m : Mark} {b b' : Builder} {pos : Nat} {l : Lexeme}

/-- How the nodes of a tree under construction lie to a marker that was passed. -/
structure Sided (m : Mark) (b : Builder) : Prop where
  id_le : m.id ≤ b.next
  frames : ∀ f ∈ b.frames, f.Sides m
  finished : Finished m.Sides b

namespace Sided

theorem start (h : Sided m b) (kind : Kind) (hpos : m.offset ≤ pos) :
    Sided m (b.start kind pos) := by
  refine ⟨Nat.le_succ_of_le h.id_le, fun f hf => ?_, h.finished.start kind pos⟩
  rcases List.mem_cons.1 hf with rfl | hf
  · exact .inr ⟨h.id_le, hpos⟩
  · exact h.frames f hf

theorem add {f : Frame} {fs : List Frame} (h : ∀ g ∈ f :: fs, g.Sides m) (n : Node) :
    ∀ g ∈ f.add n :: fs, g.Sides m := by
  intro g hg
  rcases List.mem_cons.1 hg with rfl | hg
  · exact h f List.mem_cons_self
  · exact h g (List.mem_cons_of_mem _ hg)

theorem token (h : Sided m b) (kind : Kind) {start stop : Nat} (hstart : m.offset ≤ start)
    (hstop : m.offset < stop) : Sided m (b.token kind ⟨start, stop⟩) :=
  ⟨Nat.le_succ_of_le h.id_le, add h.frames _, h.finished.token (.after h.id_le hstart hstop)⟩

theorem finish (h : Sided m b) {stop : Nat} (hstop : m.offset < stop) :
    Sided m (b.finish stop) := by
  have hclose := (h.frames b.top List.mem_cons_self).close hstop
  refine ⟨(next_finish b stop).symm ▸ h.id_le, ?_, h.finished.finish hclose⟩
  rw [Builder.finish]
  split
  · exact h.frames
  · next f fs hbelow =>
    refine add (fun g hg => h.frames g ?_) _
    rw [Builder.frames, hbelow]
    exact List.mem_cons_of_mem _ hg

theorem closing {p : Kind → Prop} {stop : Nat} (h : Sided m b) (hstop : m.offset < stop)
    (hc : Closing stop p b b') : Sided m b' :=
  hc.keeps (fun _ _ _ hb => hb.finish hstop) h

theorem outcome (h : Sided m b) (hpos : m.offset < pos) (ho : Outcome b pos l b') :
    Sided m b' := by
  have hstop : m.offset < pos + byteLength l.text := Nat.lt_of_lt_of_le hpos (Nat.le_add_right ..)
  have hle := Nat.le_of_lt hpos
  cases ho with
  | filler _ => exact h.token _ hle hstop
  | stray _ _ _ => exact h.token _ hle hstop
  | opening _ => exact (h.start _ hle).token _ hle hstop
  | atom _ => exact (h.token _ hle hstop).closing hstop (closing_settle ..)
  | closing _ _ =>
    exact (((h.closing hpos (closing_unwindTo ..)).token _ hle hstop).finish hstop).closing hstop
      (closing_settle ..)

theorem placeAll (h : Sided m b) {ls : List Lexeme} (hls : ∀ l ∈ ls, l.Sound)
    (hpos : m.offset < pos) : Sided m (b.placeAll pos ls) := by
  induction ls generalizing b pos with
  | nil => exact h
  | cons l ls ih =>
    have hplace := h.outcome hpos (outcome_place (hls l List.mem_cons_self) b pos)
    exact ih hplace (fun k hk => hls k (List.mem_cons_of_mem _ hk))
      (Nat.lt_of_lt_of_le hpos (Nat.le_add_right ..))

theorem toTree (h : Sided m b) (hstop : m.offset < byteLength b.source) :
    ∀ n ∈ b.toTree.nodes, m.Sides n := by
  obtain ⟨b', hclosing, -, htree⟩ := exists_closing_toTree b
  have hb' := h.closing hstop hclosing
  intro n hn
  rw [htree] at hn
  exact hb'.finished.close ((hb'.frames b'.top List.mem_cons_self).close hstop) n hn

end Sided

theorem Stacked.of_mem {fs : List Frame} (h : Stacked fs) {f : Frame} (hf : f ∈ fs) :
    f.kind = .root ∨ f.kind.isNested = true ∧ f.children ≠ [] := by
  induction fs with
  | nil => exact absurd hf List.not_mem_nil
  | cons g fs ih =>
    cases fs with
    | nil =>
      rw [List.mem_singleton.1 hf]
      exact .inl h
    | cons e fs =>
      rcases List.mem_cons.1 hf with rfl | hf
      · exact .inr ⟨h.1, h.2.1⟩
      · exact ih h.2.2 hf

/-- At the marker, everything is open or ends before it. -/
theorem Orderly.sided (h : Orderly pos b) : Sided (b.nextMark pos) b := by
  have hspans := h.laid.tiled.1.stop_le fun k hk n hn => h.laid.le k hk n hn n n.mem_preorder_self
  refine ⟨Nat.le_refl _, fun f hf => .inl ⟨id_lt_of_mem_frames h.ids_eq hf, (hspans f hf).1,
    (h.stacked.of_mem hf).imp_right And.left⟩, fun f hf k hk n hn => ?_⟩
  have hid : n.id ∈ b.ids := mem_idsIn.2 ⟨f, hf, .inr ⟨k, hk, n, hn, rfl⟩⟩
  rw [h.ids_eq, List.mem_range] at hid
  have hwithin := Node.span_of_mem_preorder k (h.laid.tiled.2 f hf k hk) (h.laid.le f hf k hk) hn
  exact .before hid (Nat.le_trans hwithin.2 ((hspans f hf).2 k hk))

end Builder

namespace CutsBefore

variable {u w : List Char} {before : List Lexeme} {l : Lexeme} {after : List Lexeme}

theorem sound_right (h : CutsBefore u w before l after) : ∀ k ∈ l :: after, k.Sound := by
  intro k hk
  have hmem : k ∈ lex (u ++ w) := by
    rw [h.lex_eq]
    exact List.mem_append_right _ hk
  exact sound_of_mem_lex hmem

theorem sound_after (h : CutsBefore u w before l after) : ∀ k ∈ after, k.Sound := fun k hk =>
  h.sound_right k (List.mem_cons_of_mem _ hk)

theorem ne_nil (h : CutsBefore u w before l after) : u ++ w ≠ [] := by
  obtain ⟨d, w, rfl, -⟩ := h.exists_cons
  simp

theorem sides (h : CutsBefore u w before l after) :
    ∀ n ∈ (Tree.read (u ++ w)).nodes, (mark u w before).Sides n := by
  have hcut : (Builder.readUpTo (u ++ w) before).Sided (mark u w before) := h.orderly.sided
  have hle : (mark u w before).offset ≤ byteLength u := Nat.le_refl _
  have hplace : ((Builder.readUpTo (u ++ w) before).place (byteLength u) l).Sided
      (mark u w before) := by
    rw [Builder.place]
    rcases h.opens with ⟨kind, hshape⟩ | hshape <;> rw [hshape] <;>
      exact (hcut.start _ hle).token _ hle h.lt_add
  rw [h.read_eq, Builder.placeAll]
  refine (hplace.placeAll h.sound_after h.lt_add).toTree ?_
  rw [← Builder.placeAll, Builder.source_readUpTo]
  exact h.lt_byteLength

end CutsBefore

/-! ### The token that opens a node -/

theorem Shape.opens_of_mem_kinds {s : Shape}
    (h : Kind.openDelim ∈ s.kinds ∨ Kind.sigil ∈ s.kinds)
    (hs : ∀ kind, s = .atom kind → kind.isAtom = true) :
    (∃ kind, s = .opener kind) ∨ s = .sigil := by
  cases s with
  | opener kind => exact .inl ⟨kind, rfl⟩
  | sigil => exact .inr rfl
  | atom kind =>
    have hatom := hs kind rfl
    rcases h with h | h
    · rw [← List.mem_singleton.1 h] at hatom
      cases hatom
    · rw [← List.mem_singleton.1 h] at hatom
      cases hatom
  | blank | comment | marker | closer => simp [Shape.kinds] at h

/-- A node is around its leaves, unless it is one itself. -/
theorem Node.heading_mem_trail_of_mem_leaves {n : Node} {trail : List Heading} {leaf : Leaf}
    (h : leaf ∈ n.leaves trail) : leaf.node = n ∨ n.heading ∈ leaf.trail := by
  obtain ⟨id, kind, span, children⟩ := n
  cases children with
  | nil =>
    rw [leaves] at h
    rw [List.mem_singleton.1 h]
    exact .inl rfl
  | cons m ns =>
    rw [leaves] at h
    exact .inr (subset_trail_of_mem_leavesAll _ (m :: ns) h List.mem_cons_self)

namespace Tree

variable {cs : List Char} {l : Location}

/-- A node with parts starts with the token that opens it. -/
theorem exists_opening (hl : l ∈ (Tree.read cs).locations) (hnested : l.node.kind.isNested = true) :
    ∃ before k after leaf, lex cs = before ++ k :: after ∧
      l.node.span.start = byteLength (before.flatMap (·.text)) ∧
      ((∃ kind, k.shape = .opener kind) ∨ k.shape = .sigil) ∧ leaf ∈ (Tree.read cs).leaves ∧
      leaf.IsToken l.node.span.start k ∧ l.node.heading ∈ leaf.trail := by
  have hroot : l.node.kind ≠ .root := by
    intro hkind
    rw [hkind] at hnested
    cases hnested
  have hbelow := below_of_kind_ne hl hroot
  obtain ⟨before, run, after, hlex, hrun⟩ := exists_run_of_mem_below hbelow
  obtain ⟨as, bs, hleaves⟩ := Node.exists_leaves_of_mem_locationsAll _ _ hbelow
  obtain ⟨k, run, rfl⟩ := List.exists_cons_of_ne_nil hrun.run_ne_nil
  have hk : k ∈ lex cs := by simp [hlex]
  have hsound := sound_of_mem_lex hk
  have hstart : l.node.span.start = byteLength (before.flatMap (·.text)) :=
    congrArg Span.start hrun.span_eq
  have htokens := hrun.tokens
  rw [← hstart] at htokens
  cases hgen : l.node.leaves l.trail with
  | nil =>
    rw [hgen] at htokens
    cases htokens
  | cons leaf leaves =>
    rw [hgen] at htokens hleaves
    cases htokens with
    | cons htoken _ =>
      have hmem : leaf ∈ l.node.leaves l.trail := hgen ▸ List.mem_cons_self
      have htrail : l.node.heading ∈ leaf.trail := by
        refine (Node.heading_mem_trail_of_mem_leaves hmem).resolve_left fun hleaf => ?_
        -- no lexeme is a node with parts by itself
        have hkind := hleaf ▸ htoken.kind_mem
        have hatom := hsound.atom _ (Shape.eq_atom_of_mem_kinds hkind
          (Kind.isForm_of_isNested hnested))
        rw [Kind.isAtom, hnested, Bool.not_true, Bool.and_false] at hatom
        cases hatom
      refine ⟨before, k, run ++ after, leaf, by simpa using hlex, hstart, ?_, ?_, htoken, htrail⟩
      · refine Shape.opens_of_mem_kinds ?_ hsound.atom
        rcases htoken.inside with hkind | hkind | hinside
        · exact .inl (hkind ▸ htoken.kind_mem)
        · exact .inr (hkind ▸ htoken.kind_mem)
        · rcases hinside _ htrail with hkind | hlt
          · exact absurd hkind hroot
          · exact absurd hlt (Nat.lt_irrefl _)
      · rw [Tree.leaves]
        have hleaves : Node.leavesAll [(Tree.read cs).root.heading] (Tree.read cs).root.children =
          as ++ (leaf :: leaves ++ bs) := hleaves
        rw [hleaves]
        simp

end Tree

namespace CutsBefore

variable {u w : List Char} {before : List Lexeme} {k : Lexeme} {after : List Lexeme}

/-- A node that starts at the cut is not open there. -/
theorem heading_notMem_trail (h : CutsBefore u w before k after) {n : Node}
    (hn : n ∈ (Tree.read (u ++ w)).nodes) (hnested : n.kind.isNested = true)
    (hstart : n.span.start = byteLength u) :
    n.heading ∉ (Builder.readUpTo (u ++ w) before).trail := by
  intro hmem
  obtain ⟨f, hf, hheading⟩ := List.mem_map.1 hmem
  have hkind : f.kind = n.kind := congrArg Heading.kind hheading
  have hchildren : f.children ≠ [] := by
    rcases h.orderly.stacked.of_mem hf with hroot | ⟨-, hne⟩
    · rw [← hkind, hroot] at hnested
      cases hnested
    · exact hne
  obtain ⟨c, cs, hc⟩ := List.exists_cons_of_ne_nil hchildren
  have hcmem : c ∈ f.children := hc ▸ List.mem_cons_self
  -- it has a child already, which ends before the cut
  have hstops := h.orderly.laid.tiled.1.stop_le
    (fun e he m hm => h.orderly.laid.le e he m hm m m.mem_preorder_self) f hf
  have hstop := hstops.2 c hcmem
  have hbegins := Builder.begins_of_mem_frames h.orderly.ids_eq hf
  have hprefix := (hbegins.placeAll h.sound_right (byteLength u)).toTree n (h.read_eq ▸ hn)
    (congrArg Heading.id hheading).symm
  have hchild : c ∈ n.children := hprefix.subset (List.mem_reverse.2 hcmem)
  have hcs : u ++ w ≠ [] := h.ne_nil
  have hwithin := Tree.span_within hcs hn (Node.child_mem_preorder hchild)
  have hlt := Tree.lt_stop_read hcs c (Tree.mem_nodes_of_mem_children hn hchild)
  omega

/-- The token of the lexeme at the cut, as it is placed. -/
theorem exists_leaf_place (h : CutsBefore u w before k after) : ∃ first kind,
    ⟨⟨(mark u w before).id + 1, first, ⟨byteLength u, byteLength u + byteLength k.text⟩, []⟩,
      ⟨(mark u w before).id, kind, byteLength u⟩ :: (Builder.readUpTo (u ++ w) before).trail⟩ ∈
        (Tree.read (u ++ w)).leaves := by
  obtain ⟨first, kind, hplace⟩ : ∃ first kind,
      (Builder.readUpTo (u ++ w) before).place (byteLength u) k =
        ((Builder.readUpTo (u ++ w) before).start kind (byteLength u)).token first
          ⟨byteLength u, byteLength u + byteLength k.text⟩ := by
    rw [Builder.place]
    rcases h.opens with ⟨kind, hshape⟩ | hshape
    · exact ⟨.openDelim, kind, by rw [hshape]⟩
    · exact ⟨.sigil, .quoted, by rw [hshape]⟩
  have houtcome := Builder.outcome_place (h.sound_right k List.mem_cons_self)
    (Builder.readUpTo (u ++ w) before) (byteLength u)
  refine ⟨first, kind, ?_⟩
  rw [h.read_eq, Builder.placeAll]
  refine Builder.mem_leaves_toTree (houtcome.leaves_eq h.orderly.stacked).1 ?_ h.sound_after _
  rw [hplace, Builder.leaves_start_token]
  exact List.mem_append_right _ List.mem_cons_self

/-- The token at the cut stands in the node that it opens, and that one in the nodes
    that are open there. -/
theorem exists_trail_eq (h : CutsBefore u w before k after) {leaf : Leaf}
    (hleaf : leaf ∈ (Tree.read (u ++ w)).leaves) (htoken : leaf.IsToken (byteLength u) k) :
    ∃ kind, leaf.trail = ⟨(mark u w before).id, kind, byteLength u⟩ ::
      (Builder.readUpTo (u ++ w) before).trail := by
  obtain ⟨first, kind, hplaced⟩ := h.exists_leaf_place
  obtain ⟨as, token, bs, hsplits⟩ := Tree.exists_splits h.lex_eq
  have hstart := hsplits.isToken.span_eq
  rw [h.left_eq] at hstart
  have hlt := h.lt_add
  -- there is only one token that starts at the cut
  have hunique : ∀ other ∈ (Tree.read (u ++ w)).leaves,
      other.node.span = ⟨byteLength u, byteLength u + byteLength k.text⟩ → other = token := by
    intro other hother hspan
    rcases hsplits.cases_of_mem hother with heq | ⟨-, hle⟩ | hle
    · exact heq
    · rw [hspan, hstart] at hle
      exact absurd hle (Nat.not_le.2 hlt)
    · rw [hspan, hstart] at hle
      exact absurd hle (Nat.not_le.2 hlt)
  have hleaf := hunique leaf hleaf htoken.span_eq
  have hother := hunique _ hplaced rfl
  exact ⟨kind, by rw [hleaf, ← hother]⟩

/-- The node that is opened at the cut, and the one around it. -/
theorem exists_above_eq (h : CutsBefore u w before k after) {l : Location}
    (hl : l ∈ (Tree.read (u ++ w)).locations) (hnested : l.node.kind.isNested = true)
    (hstart : l.node.span.start = byteLength u) {leaf : Leaf}
    (hleaf : leaf ∈ (Tree.read (u ++ w)).leaves) (htoken : leaf.IsToken (byteLength u) k)
    (htrail : l.node.heading ∈ leaf.trail) :
    l.node.id = (mark u w before).id ∧
      ∃ p outer, l.above = p :: outer ∧ p.id = (mark u w before).host := by
  obtain ⟨kind, hkind⟩ := h.exists_trail_eq hleaf htoken
  obtain ⟨j, hj, -, hjtrail⟩ := Tree.exists_location_of_mem_leaves hleaf
  rw [hkind] at htrail hjtrail
  rcases List.mem_cons.1 htrail with hheading | htrail
  · obtain ⟨q, rest, habove, hq, hrest⟩ := List.map_eq_cons_iff.1 hjtrail
    obtain ⟨p, outer, rfl, hp, -⟩ := List.map_eq_cons_iff.1 hrest
    have hid : l.node.id = (mark u w before).id := congrArg Heading.id hheading
    have hqid : q.id = (mark u w before).id := congrArg Heading.id hq
    have hparent := (Tree.parent_mem_locations hj habove).1
    have hlq : l = ⟨q, p :: outer⟩ := Tree.location_eq_of_id_eq hl hparent (hid.trans hqid.symm)
    exact ⟨hid, p, outer, by rw [hlq], congrArg Heading.id hp⟩
  · exact absurd htrail
      (h.heading_notMem_trail (Tree.mem_nodes_of_mem_locations hl) hnested hstart)

end CutsBefore

namespace Tree

variable {cs : List Char} {l : Location}

/-- Where no word of the tree ends, the last lexeme is none. -/
theorem not_word_of_lex {before after : List Lexeme} {k : Lexeme}
    (hlex : lex cs = before ++ k :: after)
    (hword : ∀ n ∈ (Tree.read cs).nodes, n.kind.isWord = true →
      n.span.stop ≠ byteLength (before.flatMap (·.text))) :
    ∀ j ∈ before.getLast?, ∀ kind, j.shape = .atom kind → kind.isWord = false := by
  intro j hj kind hshape
  rw [Bool.eq_false_iff]
  intro hkind
  obtain ⟨init, rfl⟩ := List.getLast?_eq_some_iff.1 hj
  rw [List.append_assoc, List.singleton_append] at hlex
  obtain ⟨as, token, bs, hsplits⟩ := exists_splits hlex
  have hmem : token ∈ (Tree.read cs).leaves := by simp [hsplits.leaves_eq]
  obtain ⟨i, hi, hnode, -⟩ := exists_location_of_mem_leaves hmem
  have htoken := hsplits.isToken.kind_mem
  rw [hshape, Shape.kinds, List.mem_singleton] at htoken
  refine hword _ (mem_nodes_of_mem_locations hi) ?_ ?_
  · rw [hnode, htoken]
    exact hkind
  · rw [hnode, hsplits.isToken.span_eq]
    simp

/-- The text is cut before a node with parts, if no word ends there. -/
theorem exists_cutsBefore (hl : l ∈ (Tree.read cs).locations)
    (hnested : l.node.kind.isNested = true)
    (hword : ∀ n ∈ (Tree.read cs).nodes, n.kind.isWord = true →
      n.span.stop ≠ l.node.span.start) :
    ∃ u w before k after, cs = u ++ w ∧ l.node.span.start = byteLength u ∧
      CutsBefore u w before k after ∧ l.node.id = (CutsBefore.mark u w before).id ∧
      ∃ p outer, l.above = p :: outer ∧ p.id = (CutsBefore.mark u w before).host := by
  obtain ⟨before, k, after, leaf, hlex, hstart, hopens, hleaf, htoken, htrail⟩ :=
    exists_opening hl hnested
  have hnot := not_word_of_lex hlex (hstart ▸ hword)
  have htext := flatMap_text_lex cs
  rw [hlex, List.flatMap_append] at htext
  subst htext
  have hcut : CutsBefore (before.flatMap (·.text)) ((k :: after).flatMap (·.text)) before k
      after := ⟨hlex, rfl, hopens, hnot⟩
  rw [hstart] at htoken
  exact ⟨_, _, before, k, after, rfl, hstart, hcut,
    hcut.exists_above_eq hl hnested hstart hleaf htoken htrail⟩

end Tree

end Typeahead
