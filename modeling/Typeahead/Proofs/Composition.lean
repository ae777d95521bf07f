import Mathlib.Data.List.TakeWhile
import Typeahead.Proofs.Recovery
import Typeahead.Proofs.Spelling
import Typeahead.Proofs.Stability
import Typeahead.Proofs.Tokens

/-!
# Reading one text after another

A text that is *complete*, in that every collection of it is closed and every
sigil has its form, leaves nothing open at its end. If it also ends with blanks,
then a text written after it is read as if it stood alone: its nodes follow
those of the first text, and only their numbers and offsets are higher.

The run over the second text is compared with a run from a fresh start by lifting
the whole stack of open nodes: the root keeps the children it had, and all else is
shifted (`Builder.lift`).

* `lex_append_of_blank`: blanks between two texts keep their lexemes apart;
* `below_reading_of_complete`: after a complete text only the root is open;
* `placeAll_lift`: placing lexemes commutes with lifting;
* `children_read_append`: the tree of two texts one after the other.
-/

namespace Typeahead

/-! ### Lexemes of two texts -/

theorem isBlank_of_shape_nextLexeme {c : Char} {cs : List Char}
    (h : (nextLexeme c cs).1.shape = .blank) : isBlank c = true := by
  cases hc : isBlank c with
  | true => rfl
  | false =>
    have hsharp : (Lexeme.afterNumberSign cs).1.shape ≠ .blank := by
      rw [Lexeme.afterNumberSign.eq_def]
      split <;> exact Shape.noConfusion
    have hbar : (Lexeme.afterBar cs).1.shape ≠ .blank := by
      rw [Lexeme.afterBar.eq_def]
      split <;> exact Shape.noConfusion
    have hcomma : (Lexeme.afterComma cs).1.shape ≠ .blank := by
      rw [Lexeme.afterComma.eq_def]
      split <;> exact Shape.noConfusion
    rw [nextLexeme, hc, if_neg Bool.false_ne_true] at h
    split at h
    · cases h
    split at h
    · exact absurd h hsharp
    split at h
    · exact absurd h hbar
    split at h
    · exact absurd h hcomma
    split at h
    · cases h
    split at h
    · cases h
    split at h
    · cases h
    split at h <;> cases h

theorem Lexeme.Sound.shape_eq_blank {l : Lexeme} (hl : l.Sound)
    (h : Kind.whitespace ∈ l.shape.kinds) : l.shape = .blank := by
  cases hk : l.shape with
  | blank => rfl
  | atom kind =>
    rw [hk, Shape.kinds, List.mem_singleton] at h
    have hatom := hl.atom kind hk
    rw [← h] at hatom
    cases hatom
  | comment => rw [hk] at h; exact absurd h (by decide)
  | marker => rw [hk] at h; exact absurd h (by decide)
  | opener kind => rw [hk, Shape.kinds] at h; exact absurd h (by decide)
  | closer d => rw [hk, Shape.kinds] at h; exact absurd h (by decide)
  | sigil => rw [hk] at h; exact absurd h (by decide)

/-- A run of blanks goes on to where something dark begins. -/
theorem nextLexeme_blank_append {c : Char} {cs : List Char} (hc : isBlank c = true)
    (hcs : cs.dropWhile isBlank = []) {rest : List Char} (hrest : BeginsDark rest) :
    nextLexeme c (cs ++ rest) = (⟨.blank, c :: cs⟩, rest) := by
  have hall : ∀ x ∈ cs, isBlank x = true := List.dropWhile_eq_nil_iff.1 hcs
  rw [nextLexeme, if_pos hc, Lexeme.blank, List.takeWhile_append_of_pos hall,
    List.dropWhile_append_of_pos hall]
  cases rest with
  | nil => simp
  | cons x xs =>
    have hx : isBlank x = false := hrest x rfl
    simp [hx]

/-- Blanks at the end of a text keep its lexemes apart from those of a text that
    does not begin with a blank. -/
theorem lex_append_of_blank {a b : List Char}
    (ha : ∀ l, (lex a).getLast? = some l → l.shape = .blank) (hb : BeginsDark b) :
    lex (a ++ b) = lex a ++ lex b := by
  obtain ⟨ls, r, -, hv, hw, hlast⟩ := exists_lex_append a [] b
  rw [List.append_nil, List.append_nil] at hv
  rw [List.append_nil] at hlast
  cases r with
  | nil => rw [hw, hv, lex, List.append_nil, List.nil_append]
  | cons c cs =>
    -- the lexeme that begins with `c` covers all of `c :: cs`, so nothing is left after it
    have happ := nextLexeme_append c cs
    have hnil : (nextLexeme c cs).2 = [] := by
      have hle := hlast (nextLexeme c cs).1 _ (lex_cons rfl)
      rw [← happ, byteLength_append] at hle
      refine Decidable.byContradiction fun hne => ?_
      have hpos := byteLength_pos hne
      omega
    have hlex : lex (c :: cs) = [(nextLexeme c cs).1] := by rw [lex, hnil, lex]
    rw [hlex] at hv
    have hblank : isBlank c = true :=
      isBlank_of_shape_nextLexeme (ha _ (by rw [hv, List.getLast?_concat]))
    have hdrop : cs.dropWhile isBlank = [] := by
      rw [nextLexeme, if_pos hblank] at hnil
      exact hnil
    have hempty : BeginsDark [] := fun _ h => absurd h (by simp)
    have hone := nextLexeme_blank_append hblank hdrop hempty
    rw [List.append_nil] at hone
    rw [hw, hv, hone, List.cons_append, lex_cons (nextLexeme_blank_append hblank hdrop hb),
      List.append_assoc, List.singleton_append]

/-! ### Complete texts -/

/-- Nothing in the tree waits for more: every collection is closed, and every
    quoted form has its form. -/
structure Tree.Complete (t : Tree) : Prop where
  closed : ∀ n ∈ t.nodes, n.kind.isCollection = true → n.isClosed = true
  quoted : ∀ n ∈ t.nodes, n.kind = .quoted → n.forms ≠ []

namespace Builder

theorem preorder_subset_closeAll (stop : Nat) (below : List Frame) (top : Frame) :
    (top.close stop).preorder ⊆ (Frame.closeAll stop top below).preorder := by
  induction below generalizing top with
  | nil => exact List.Subset.refl _
  | cons f fs ih =>
    intro n hn
    exact ih _ (Frame.mem_preorder_close.2 (.inr ⟨_, List.mem_cons_self, hn⟩))

/-- After a complete text only the root is open. -/
theorem below_reading_of_complete {cs : List Char} (h : (Tree.read cs).Complete) :
    (reading cs).below = [] := by
  have hwaiting := waiting_reading cs
  have hmem : (reading cs).top.close (byteLength (reading cs).source) ∈ (Tree.read cs).nodes :=
    preorder_subset_closeAll _ _ _ (Frame.mem_preorder_close.2 (.inl rfl))
  cases hbelow : (reading cs).below with
  | nil => rfl
  | cons f fs =>
    -- the innermost open node would be a collection or a quoted form that waits
    have hnested : (reading cs).top.kind.isNested = true := by
      have hstacked := hwaiting.stacked
      rw [frames, hbelow] at hstacked
      exact hstacked.1
    rw [Kind.isNested, Bool.or_eq_true, beq_iff_eq] at hnested
    rcases hnested with hcollection | hquoted
    · have hclosed := h.closed _ hmem hcollection
      rw [Node.isClosed, Option.any_eq_true_iff_get] at hclosed
      obtain ⟨hsome, hkind⟩ := hclosed
      refine absurd (beq_iff_eq.1 hkind) (hwaiting.top.no_closeDelim _ ?_)
      exact List.mem_reverse.1 (List.mem_of_getLast? (Option.some_get hsome).symm)
    · obtain ⟨c, cs', hforms⟩ := List.exists_cons_of_ne_nil (h.quoted _ hmem hquoted)
      have hc : c ∈ ((reading cs).top.close (byteLength (reading cs).source)).forms := by
        rw [hforms]
        exact List.mem_cons_self
      obtain ⟨hchild, hform⟩ := List.mem_filter.1 hc
      have hno := hwaiting.top.no_form hquoted c (List.mem_reverse.1 hchild)
      rw [hno] at hform
      cases hform

end Builder

/-! ### Shifted nodes -/

namespace Node

mutual

/-- The node with all numbers in it raised by `ids` and all offsets by `bytes`. -/
def shift (ids bytes : Nat) : Node → Node
  | ⟨id, kind, span, children⟩ =>
    ⟨id + ids, kind, ⟨span.start + bytes, span.stop + bytes⟩, shiftAll ids bytes children⟩

/-- The nodes with all numbers raised by `ids` and all offsets by `bytes`. -/
def shiftAll (ids bytes : Nat) : List Node → List Node
  | [] => []
  | n :: ns => n.shift ids bytes :: shiftAll ids bytes ns

end

variable (ids bytes : Nat)

theorem shiftAll_append (ms ns : List Node) :
    shiftAll ids bytes (ms ++ ns) = shiftAll ids bytes ms ++ shiftAll ids bytes ns := by
  induction ms with
  | nil => rfl
  | cons m ms ih => rw [List.cons_append, shiftAll, shiftAll, ih, List.cons_append]

theorem shiftAll_reverse (ns : List Node) :
    shiftAll ids bytes ns.reverse = (shiftAll ids bytes ns).reverse := by
  induction ns with
  | nil => rfl
  | cons n ns ih =>
    have hone : shiftAll ids bytes [n] = [n.shift ids bytes] := rfl
    rw [List.reverse_cons, shiftAll_append, ih, hone, shiftAll, List.reverse_cons]

theorem span_shift (n : Node) :
    (n.shift ids bytes).span = ⟨n.span.start + bytes, n.span.stop + bytes⟩ := by
  obtain ⟨id, kind, span, children⟩ := n
  rfl

end Node

/-! ### Lifted constructions -/

namespace Frame

variable (root : List Node) (ids bytes : Nat)

/-- The frame inside the frames `below`, when the outermost one has the children
    `root` already: the outermost frame keeps them, all others are shifted. -/
def lift (below : List Frame) (f : Frame) : Frame :=
  match below with
  | [] => { f with children := Node.shiftAll ids bytes f.children ++ root }
  | _ :: _ => ⟨f.id + ids, f.kind, f.start + bytes, Node.shiftAll ids bytes f.children⟩

/-- The frames, given innermost first, when the outermost one has the children
    `root` already. -/
def liftAll : List Frame → List Frame
  | [] => []
  | f :: fs => f.lift root ids bytes fs :: liftAll fs

variable {root ids bytes}

theorem kind_lift (below : List Frame) (f : Frame) :
    (f.lift root ids bytes below).kind = f.kind := by
  cases below <;> rfl

theorem add_lift (below : List Frame) (f : Frame) (n : Node) :
    (f.lift root ids bytes below).add (n.shift ids bytes) =
      (f.add n).lift root ids bytes below := by
  cases below <;> rfl

theorem add_token_lift (below : List Frame) (f : Frame) (id : Nat) (kind : Kind)
    (start stop : Nat) :
    (f.lift root ids bytes below).add ⟨id + ids, kind, ⟨start + bytes, stop + bytes⟩, []⟩ =
      (f.add ⟨id, kind, ⟨start, stop⟩, []⟩).lift root ids bytes below :=
  add_lift below f ⟨id, kind, ⟨start, stop⟩, []⟩

theorem close_lift (g : Frame) (gs : List Frame) (f : Frame) (stop : Nat) :
    (f.lift root ids bytes (g :: gs)).close (stop + bytes) = (f.close stop).shift ids bytes := by
  rw [Frame.close, Frame.close, Node.shift, Node.shiftAll_reverse]
  rfl

theorem eq_of_heading {f : Frame} {id start : Nat} {kind : Kind}
    (h : f.heading = ⟨id, kind, start⟩) : f = ⟨id, kind, start, f.children⟩ := by
  cases h
  rfl

/-- The outermost node of a lifted construction: its children are those that it
    had already, and the shifted ones. -/
theorem closeAll_lift (stop : Nat) (below : List Frame) (top : Frame) :
    closeAll (stop + bytes) (top.lift root ids bytes below) (liftAll root ids bytes below) =
      ⟨(closeAll stop top below).id, (closeAll stop top below).kind,
        ⟨(closeAll stop top below).span.start, (closeAll stop top below).span.stop + bytes⟩,
        root.reverse ++ Node.shiftAll ids bytes (closeAll stop top below).children⟩ := by
  induction below generalizing top with
  | nil => simp [liftAll, closeAll, lift, close, Node.shiftAll_reverse]
  | cons f fs ih => rw [liftAll, closeAll, closeAll, close_lift, add_lift, ih]

end Frame

theorem Tree.nodes_eq (t : Tree) : t.nodes = t.root :: t.nodes.tail := by
  obtain ⟨source, ⟨id, kind, span, ns⟩⟩ := t
  rw [Tree.nodes, Node.preorder]
  rfl

namespace Builder

variable (src : List Char) (root : List Node) (ids bytes : Nat)

/-- The construction over the source `src`, when its root has the children `root`
    already. -/
def lift (b : Builder) : Builder :=
  { source := src
    top := b.top.lift root ids bytes b.below
    below := Frame.liftAll root ids bytes b.below
    next := b.next + ids }

variable {src root ids bytes} (b : Builder) (start stop : Nat)

theorem token_lift (kind : Kind) :
    (b.lift src root ids bytes).token kind ⟨start + bytes, stop + bytes⟩ =
      (b.token kind ⟨start, stop⟩).lift src root ids bytes := by
  rw [token, token, lift, lift, Frame.add_token_lift, Nat.add_right_comm]

theorem start_lift (kind : Kind) :
    (b.lift src root ids bytes).start kind (start + bytes) =
      (b.start kind start).lift src root ids bytes := by
  rw [Builder.start, Builder.start, lift, lift, Nat.add_right_comm]
  rfl

theorem finish_lift :
    (b.lift src root ids bytes).finish (stop + bytes) =
      (b.finish stop).lift src root ids bytes := by
  cases hbelow : b.below with
  | nil =>
    have hlift : (b.lift src root ids bytes).below = [] := by rw [lift, hbelow]; rfl
    rw [finish_nil hbelow, finish_nil hlift]
  | cons f fs =>
    have hlift : (b.lift src root ids bytes).below =
        f.lift root ids bytes fs :: Frame.liftAll root ids bytes fs := by rw [lift, hbelow]; rfl
    have htop : (b.lift src root ids bytes).top = b.top.lift root ids bytes (f :: fs) := by
      rw [lift, hbelow]
    rw [finish_cons hbelow, finish_cons hlift, htop, Frame.close_lift, Frame.add_lift]
    rfl

theorem settle_lift :
    (b.lift src root ids bytes).settle (stop + bytes) =
      (b.settle stop).lift src root ids bytes := by
  suffices hgo : ∀ (below : List Frame) (top : Frame),
      settle.go (stop + bytes) (b.lift src root ids bytes) (top.lift root ids bytes below)
        (Frame.liftAll root ids bytes below) =
        (settle.go stop b top below).lift src root ids bytes from hgo _ _
  intro below
  induction below with
  | nil => exact fun _ => rfl
  | cons f fs ih =>
    intro top
    rw [Frame.liftAll, settle.go, settle.go, Frame.kind_lift]
    split
    · rw [Frame.close_lift, Frame.add_lift]
      exact ih _
    · rfl

theorem unwindTo_lift (d : Char) :
    (b.lift src root ids bytes).unwindTo d (stop + bytes) =
      (b.unwindTo d stop).lift src root ids bytes := by
  suffices hgo : ∀ (below : List Frame) (top : Frame),
      unwindTo.go d (stop + bytes) (b.lift src root ids bytes) (top.lift root ids bytes below)
        (Frame.liftAll root ids bytes below) =
        (unwindTo.go d stop b top below).lift src root ids bytes from hgo _ _
  intro below
  induction below with
  | nil => exact fun _ => rfl
  | cons f fs ih =>
    intro top
    rw [Frame.liftAll, unwindTo.go, unwindTo.go, Frame.kind_lift]
    split
    · rfl
    · rw [Frame.close_lift, Frame.add_lift]
      exact ih _

theorem closes_lift (d : Char) : (b.lift src root ids bytes).closes d = b.closes d := by
  suffices hall : ∀ fs : List Frame,
      (Frame.liftAll root ids bytes fs).any (·.kind.closer? == some d) =
        fs.any (·.kind.closer? == some d) from hall (b.top :: b.below)
  intro fs
  induction fs with
  | nil => rfl
  | cons f fs ih => rw [Frame.liftAll, List.any_cons, List.any_cons, ih, Frame.kind_lift]

theorem place_lift (l : Lexeme) :
    (b.lift src root ids bytes).place (start + bytes) l =
      (b.place start l).lift src root ids bytes := by
  rw [place.eq_def, place.eq_def]
  simp only [Nat.add_right_comm start bytes]
  split
  · rw [token_lift]
  · rw [token_lift]
  · rw [token_lift]
  · rw [start_lift, token_lift]
  · rw [start_lift, token_lift]
  · rw [token_lift, settle_lift]
  · rw [closes_lift]
    split
    · rw [unwindTo_lift, token_lift, finish_lift, settle_lift]
    · rw [token_lift]

/-- Placing lexemes commutes with lifting. -/
theorem placeAll_lift (ls : List Lexeme) :
    (b.lift src root ids bytes).placeAll (start + bytes) ls =
      (b.placeAll start ls).lift src root ids bytes := by
  induction ls generalizing b start with
  | nil => rfl
  | cons l ls ih => rw [placeAll, placeAll, place_lift, Nat.add_right_comm, ih]

/-- The outermost open node is the root, whatever is placed. -/
theorem getLast?_trail_reading (cs : List Char) :
    (reading cs).trail.getLast? = some ⟨0, .root, 0⟩ := by
  refine reading_induction (P := fun _ b => b.trail.getLast? = some ⟨0, .root, 0⟩) rfl ?_
  intro b start l b' hb _ _ h
  refine h.keeps (P := fun c => c.trail.getLast? = some ⟨0, .root, 0⟩) ?_ (fun _ _ _ hc => hc) ?_ hb
  · intro c kind start hc
    have htrail : (c.start kind start).trail = ⟨c.next, kind, start⟩ :: c.trail := rfl
    rw [htrail, List.getLast?_cons, hc]
    rfl
  · intro c stop hc
    cases hbelow : c.below with
    | nil => rwa [finish_nil hbelow]
    | cons f fs =>
      rw [trail, frames, hbelow, List.map_cons, List.map_cons, List.getLast?_cons_cons] at hc
      rw [finish_cons hbelow]
      exact hc

theorem next_reading (cs : List Char) :
    (reading cs).next = 1 + (Tree.read cs).nodes.tail.length := by
  have hids : (reading cs).ids = List.range (reading cs).next :=
    reading_induction (P := fun _ b => b.ids = List.range b.next) rfl
      fun _ _ _ _ hb _ _ h => h.ids_eq hb
  have hlength := congrArg List.length ((ids_toTree (reading cs)).trans hids)
  rw [List.length_map, List.length_range] at hlength
  rw [← hlength, Nat.add_comm]
  exact congrArg List.length (Tree.nodes_eq (Tree.read cs))

end Builder

/-! ### The tree of two texts -/

theorem Tree.stop_le_of_mem_tail_nodes {cs : List Char} {n : Node}
    (hn : n ∈ (Tree.read cs).nodes.tail) : n.span.stop ≤ byteLength cs := by
  rw [Tree.tail_nodes, ← Node.map_node_locationsAll [(Tree.read cs).root]] at hn
  obtain ⟨l, hl, rfl⟩ := List.mem_map.1 hn
  obtain ⟨before, run, after, hlex, hrun⟩ := Tree.exists_run_of_mem_below hl
  have hlength : byteLength cs = byteLength (before.flatMap (·.text)) +
      (byteLength (run.flatMap (·.text)) + byteLength (after.flatMap (·.text))) := by
    rw [← byteLength_append, ← byteLength_append, ← List.flatMap_append, ← List.flatMap_append,
      ← hlex, flatMap_text_lex]
  have hstop := congrArg Span.stop hrun.span_eq
  simp only at hstop
  omega

/-- The last lexeme of a text that ends with a blank is one. -/
theorem shape_of_getLast?_tokens {a : List Char}
    (h : a = [] ∨ (Tree.read a).tokens.getLast?.map (·.kind) = some .whitespace) :
    ∀ l, (lex a).getLast? = some l → l.shape = .blank := by
  intro l hl
  rcases h with rfl | h
  · rw [lex] at hl
    cases hl
  obtain ⟨ls, hls⟩ := List.getLast?_eq_some_iff.1 hl
  have htokens := Tree.tokens_leaves_read a
  rw [hls] at htokens
  obtain ⟨as, bs, hleaves, -, hbs⟩ := htokens.append_left
  cases hbs with
  | cons hleaf hrest =>
    rw [← Tree.map_node_leaves, hleaves, Tokens.eq_nil hrest, List.map_append, List.map_singleton,
      List.getLast?_concat, Option.map_some] at h
    refine (sound_of_mem_lex (List.mem_of_getLast? hl)).shape_eq_blank ?_
    rw [← Option.some.inj h]
    exact hleaf.kind_mem

/-- After a complete text, reading goes on with a lifted fresh start. -/
theorem reading_eq_lift {a : List Char} (ha : (Tree.read a).Complete) (b : List Char) :
    (Builder.reading a).withSource (a ++ b) =
      (Builder.new b).lift (a ++ b) (Builder.reading a).top.children
        (Tree.read a).nodes.tail.length (byteLength a) := by
  have hbelow := Builder.below_reading_of_complete ha
  have hnext := Builder.next_reading a
  have htop : (Builder.reading a).top = ⟨0, .root, 0, (Builder.reading a).top.children⟩ := by
    have hroot := Builder.getLast?_trail_reading a
    rw [Builder.trail, Builder.frames, hbelow, List.map_singleton, List.getLast?_singleton] at hroot
    exact Frame.eq_of_heading (Option.some.inj hroot)
  rw [Builder.withSource, Builder.lift, hbelow, hnext, htop]
  rfl

/-- A complete text that ends with blanks, if it is not empty, and a text that
    does not begin with a blank are read one after the other as each alone: the
    nodes of the second follow those of the first, with the same kinds, parts and
    texts, their numbers raised by the number of nodes of the first and their
    offsets by its length. -/
theorem Tree.children_read_append {a b : List Char} (ha : (Tree.read a).Complete)
    (hblank : a = [] ∨ (Tree.read a).tokens.getLast?.map (·.kind) = some .whitespace)
    (hb : b = [] ∨ ∃ c cs, b = c :: cs ∧ isBlank c = false) :
    let ids := (Tree.read a).nodes.tail.length
    (Tree.read (a ++ b)).root.children =
        (Tree.read a).root.children ++
          Node.shiftAll ids (byteLength a) (Tree.read b).root.children ∧
      (∀ n ∈ (Tree.read a).nodes.tail, (Tree.read (a ++ b)).text n = (Tree.read a).text n) ∧
      ∀ n ∈ (Tree.read b).nodes.tail,
        (Tree.read (a ++ b)).text (n.shift ids (byteLength a)) = (Tree.read b).text n := by
  intro ids
  have hdark : BeginsDark b := by
    rcases hb with rfl | ⟨c, cs, rfl, hc⟩
    · exact fun _ h => absurd h (by simp)
    · exact beginsDark_cons hc cs
  have hlex := lex_append_of_blank (shape_of_getLast?_tokens hblank) hdark
  have hread : Builder.reading (a ++ b) =
      (Builder.reading b).lift (a ++ b) (Builder.reading a).top.children ids (byteLength a) := by
    have hplace := Builder.placeAll_withSource (Builder.new a) (a ++ b) 0 (lex a)
    rw [Builder.reading, hlex, Builder.placeAll_append, flatMap_text_lex]
    exact (congrArg (Builder.placeAll · _ _) (hplace.trans (reading_eq_lift ha b))).trans
      (Builder.placeAll_lift _ 0 _)
  have hsource : ∀ cs, (Tree.read cs).source = cs := Builder.source_reading
  refine ⟨?_, ?_, ?_⟩
  · have hroot : ∀ cs, (Tree.read cs).root =
        Frame.closeAll (byteLength cs) (Builder.reading cs).top (Builder.reading cs).below := by
      intro cs
      have h : (Tree.read cs).root = Frame.closeAll (byteLength (Builder.reading cs).source)
        (Builder.reading cs).top (Builder.reading cs).below := rfl
      rwa [Builder.source_reading] at h
    rw [hroot, hroot a, hroot b, hread, Builder.below_reading_of_complete ha, byteLength_append,
      Nat.add_comm, Builder.lift, Frame.closeAll_lift]
    rfl
  · intro n hn
    rw [Tree.text, Tree.text, Tree.chars, Tree.chars, hsource, hsource,
      slice_append_left b (Tree.stop_le_of_mem_tail_nodes hn)]
  · intro n _
    rw [Tree.text, Tree.text, Tree.chars, Tree.chars, hsource, hsource, Node.span_shift,
      slice_append_right]

/-- After a stray delimiter, a quoted list and a comment, a vector that a
    delimiter does not close is read as if it stood alone. -/
theorem Tree.children_read_append_unclosed :
    let a := ") '(f \"é\") ; c\n".toList
    let b := "[x) #_y".toList
    (Tree.read a).Complete ∧ (Tree.read a).tokens.getLast?.map (·.kind) = some .whitespace ∧
      (Tree.read (a ++ b)).root.children =
        (Tree.read a).root.children ++
          Node.shiftAll 13 (byteLength a) (Tree.read b).root.children := by
  intro a b
  have hcomplete : (Tree.read a).Complete := ⟨by decide +kernel, by decide +kernel⟩
  have hblank : (Tree.read a).tokens.getLast?.map (·.kind) = some .whitespace := by decide +kernel
  have hids : (Tree.read a).nodes.tail.length = 13 := by decide +kernel
  have h := Tree.children_read_append hcomplete (.inr hblank)
    (.inr ⟨'[', "x) #_y".toList, rfl, by decide⟩)
  exact ⟨hcomplete, hblank, hids ▸ h.1⟩

end Typeahead
