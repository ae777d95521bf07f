import Typeahead.Proofs.Characters
import Typeahead.Proofs.Masking
import Typeahead.Proofs.Pending
import Typeahead.Tree.Inert

/-!
# Inert code in the tree of a text

Code is inert if a form that it belongs to is deactivated. Where the tree has no
marker, the text of the vector around the form is scanned for one. The reader
keeps every marker, so the scan has nothing to recover in the tree of a text; but
it does not see how forms are nested. It shows the markers and names *inside* the
siblings before a form as if they stood in the vector itself, and so takes the
form to be deactivated where a marker inside a sibling is left (`Misled`).

* `isMarkedInText_read_iff`: when the text of a vector deactivates a form;
* `isInert_read_iff`: code is inert if and only if it belongs to a deactivated
  form or the text misleads.
-/

namespace Typeahead

/-! ### Where a scan can be cut -/

/-- A text is settled after a character that is no part of names and keywords. -/
theorem settled_append_singleton {x : Char} {b : List Char} (hname : isNameChar x = false)
    (hcolon : x ≠ ':') (hb : b.head? ≠ some '_') (s : List Char) : Settled (s ++ [x]) b := by
  have hlast : Settled [x] b :=
    settled_singleton hname (fun _ => hb) fun h => absurd h hcolon
  exact hlast.append_left (List.cons_ne_nil _ _) s

theorem settled_of_forall {a b : List Char} (hne : a ≠ [])
    (ha : ∀ x ∈ a, isNameChar x = false ∧ x ≠ ':') (hb : b.head? ≠ some '_') : Settled a b := by
  obtain ⟨hname, hcolon⟩ := ha _ (List.getLast_mem hne)
  have h := settled_append_singleton hname hcolon hb a.dropLast
  rwa [List.dropLast_concat_getLast hne] at h

/-- After a lexeme a text is settled, if a name begins there. -/
theorem Lexeme.EndsBefore.settled {l : Lexeme} {rest b : List Char} {c : Char}
    (h : l.EndsBefore rest) (hne : l.text ≠ []) (hc : isOrdinary c = true)
    (hrest : rest.head? = some c) (hb : b.head? = some c) : Settled l.text b := by
  have hunderscore : b.head? ≠ some '_' := by
    rw [hb]
    exact fun h => ne_of_isOrdinary hc (by decide) (Option.some.inj h)
  have hnil : rest ≠ [] := by
    rintro rfl
    cases hrest
  cases h with
  | blank _ hblank =>
    refine settled_of_forall hne (fun x hx => ⟨isNameChar_of_isBlank (hblank x hx), ?_⟩) hunderscore
    rintro rfl
    exact absurd (hblank _ hx) (by decide)
  | lineComment _ hline => exact absurd (hline c hrest) (ne_of_isOrdinary hc (by decide))
  | delimitedComment _ hclosed =>
    obtain ⟨s, hs⟩ := hclosed.resolve_left hnil
    have hend :=
      settled_append_singleton (x := '#') (by decide) (by decide) hunderscore (s ++ ['|'])
    rwa [List.append_assoc, List.singleton_append, ← hs] at hend
  | marker _ htext =>
    rw [htext]
    exact settled_marker b
  | punctuation _ hpunctuation =>
    exact settled_of_forall hne (fun x hx => isNameChar_of_isPunctuation (hpunctuation x hx))
      hunderscore
  | string _ hclosed =>
    obtain ⟨s, hs⟩ := hclosed.resolve_left hnil
    rw [hs]
    exact settled_append_singleton (by decide) (by decide) hunderscore s
  | word _ _ _ hends =>
    -- a word would go on
    have hterm := hends c hrest
    rw [isTerminator_of_isOrdinary hc] at hterm
    cases hterm

theorem exists_cons_of_beginsName {cs : List Char} (h : beginsName cs = true) :
    ∃ c s, cs = c :: s ∧ isOrdinary c = true := by
  cases cs with
  | nil => cases h
  | cons c s =>
    refine ⟨c, s, rfl, ?_⟩
    rw [beginsName, Bool.or_eq_true, Bool.and_eq_true, beq_iff_eq] at h
    rcases h with h | ⟨rfl, -⟩
    · exact (of_isAsciiLetter h).1
    · decide

theorem beginsName_append {a b : List Char} (hne : a ≠ [])
    (hb : ∀ x ∈ b.head?, a = [':'] → isNameChar x = false) :
    beginsName (a ++ b) = beginsName a := by
  match a with
  | [] => exact absurd rfl hne
  | c :: d :: s => rfl
  | [c] =>
    rw [List.cons_append, List.nil_append, beginsName, beginsName]
    cases hhead : b.head? with
    | none => rfl
    | some x =>
      by_cases hc : c = ':'
      · rw [Option.any_some, hb x hhead (by rw [hc])]
        rfl
      · rw [beq_eq_false_iff_ne.2 hc, Bool.false_and, Bool.false_and]

/-! ### The ends of a node -/

namespace Tree

variable {cs : List Char} {l : Location}

/-- The text after a node is that of the lexemes after it. -/
theorem CoversRun.eq_flatMap_of_append {before run after : List Lexeme} {a b : List Char}
    (hrun : (Tree.read cs).CoversRun l before run) (hlex : lex cs = before ++ (run ++ after))
    (hcs : cs = a ++ b) (ha : byteLength a = l.node.span.stop) : b = after.flatMap (·.text) := by
  have hcut : cs = (before ++ run).flatMap (·.text) ++ after.flatMap (·.text) := by
    rw [← List.flatMap_append, ← flatMap_text_lex cs, hlex, List.append_assoc]
  have hstop : byteLength ((before ++ run).flatMap (·.text)) = l.node.span.stop := by
    rw [hrun.span_eq, List.flatMap_append, byteLength_append]
  exact (append_inj_of_byteLength (hcs.symm.trans hcut) (ha.trans hstop.symm)).2

/-- A node ends with a lexeme that ends before the text after the node. -/
theorem exists_last_lexeme {a b : List Char}
    (hl : l ∈ (Tree.read cs).below)
    (hcs : cs = a ++ b) (ha : byteLength a = l.node.span.stop) :
    ∃ (s : List Char) (last : Lexeme), (Tree.read cs).chars l.node = s ++ last.text ∧
      last.text ≠ [] ∧ last.EndsBefore b := by
  obtain ⟨before, run, after, hlex, hrun⟩ := exists_run_of_mem_below hl
  obtain rfl := hrun.eq_flatMap_of_append hlex hcs ha
  obtain ⟨init, last, rfl⟩ : ∃ init last, run = init ++ [last] :=
    ⟨_, _, (List.dropLast_concat_getLast hrun.run_ne_nil).symm⟩
  have hsplit : lex cs = (before ++ init) ++ last :: after := by
    rw [hlex]
    simp
  refine ⟨init.flatMap (·.text), last, ?_, ?_, endsBefore_of_lex hsplit⟩
  · rw [hrun.chars_eq]
    simp
  · exact (sound_of_mem_lex (by rw [hsplit]; simp)).text_ne_nil

/-- A node that starts as a word starts with a word. -/
theorem exists_first_word {before run after : List Lexeme} {c : Char} {s : List Char}
    (hlex : lex cs = before ++ (run ++ after)) (hrun : (Tree.read cs).CoversRun l before run)
    (hchars : (Tree.read cs).chars l.node = c :: s) (hc : startsWord c = true) :
    ∃ word ls kind x, run = word :: ls ∧ word.text = c :: x ∧ word.shape = .atom kind ∧
      kind.isWord = true := by
  obtain ⟨word, ls, rfl⟩ := List.exists_cons_of_ne_nil hrun.run_ne_nil
  have hword : word.text ≠ [] := (sound_of_mem_lex (by rw [hlex]; simp)).text_ne_nil
  obtain ⟨d, x, hx⟩ := List.exists_cons_of_ne_nil hword
  rw [hrun.chars_eq, List.flatMap_cons, hx] at hchars
  obtain ⟨rfl, -⟩ := List.cons.inj hchars
  obtain ⟨kind, hshape, hkind⟩ := isWord_of_lex hlex hx hc
  exact ⟨word, ls, kind, x, rfl, hx, hshape, hkind⟩

/-- A node that starts as a word starts after the nodes around it. -/
theorem start_lt_of_startsWord {c : Char} {s : List Char}
    (hl : l ∈ (Tree.read cs).below)
    (hchars : (Tree.read cs).chars l.node = c :: s) (hc : startsWord c = true) :
    ∀ v ∈ l.above, v.kind = .root ∨ v.span.start < l.node.span.start := by
  obtain ⟨before, run, after, hlex, hrun⟩ := exists_run_of_mem_below hl
  obtain ⟨word, ls, kind, x, rfl, -, hshape, hkind⟩ := exists_first_word hlex hrun hchars hc
  have htokens := hrun.tokens
  generalize hleaves : l.node.leaves l.trail = leaves at htokens
  cases htokens with
  | @cons _ _ _ leaf leaves htoken _ =>
    have hleaf : leaf.node.kind = kind := by
      have hmem := htoken.kind_mem
      rw [hshape] at hmem
      exact List.mem_singleton.1 hmem
    have hmem : leaf ∈ l.node.leaves l.trail := by
      rw [hleaves]
      exact List.mem_cons_self
    -- the first token is a word, so it opens none of the nodes around it
    have hinside : ∀ g ∈ leaf.trail, g.kind = .root ∨
        g.start < byteLength (before.flatMap (·.text)) := by
      rcases htoken.inside with h | h | h
      · rw [← hleaf, h] at hkind
        cases hkind
      · rw [← hleaf, h] at hkind
        cases hkind
      · exact h
    intro v hv
    rw [hrun.span_eq]
    exact hinside v.heading
      (Node.subset_trail_of_mem_leaves l.trail l.node hmem (List.mem_map_of_mem hv))

/-- A word of a single character ends where the text after it ends words. -/
theorem endsWord_of_chars_eq_singleton {c : Char} {a b : List Char}
    (hl : l ∈ (Tree.read cs).below)
    (hchars : (Tree.read cs).chars l.node = [c]) (hc : startsWord c = true)
    (hcs : cs = a ++ b) (ha : byteLength a = l.node.span.stop) : EndsWord b := by
  obtain ⟨before, run, after, hlex, hrun⟩ := exists_run_of_mem_below hl
  obtain ⟨word, ls, kind, x, rfl, hx, hshape, hkind⟩ := exists_first_word hlex hrun hchars hc
  obtain rfl := hrun.eq_flatMap_of_append hlex hcs ha
  have hends := (endsBefore_of_lex hlex).endsWord hshape hkind
  rw [hrun.chars_eq, List.flatMap_cons, hx] at hchars
  have hrest : ls.flatMap (·.text) = [] := (List.append_eq_nil_iff.1 (List.cons.inj hchars).2).2
  rwa [List.append_eq, List.flatMap_append, hrest, List.nil_append] at hends

/-! ### What a scan shows of the nodes of a text -/

/-- Where more than blanks is visible of a node, all of it is. -/
theorem visible_eq_chars_of_mem {t : Tree} {n : Node} {c : Char} (hmem : c ∈ t.visible n)
    (hc : c ≠ ' ') : t.visible n = t.chars n := by
  rw [visible] at hmem ⊢
  split
  · next hkind =>
    rw [if_pos hkind] at hmem
    exact absurd (List.eq_of_mem_replicate hmem) hc
  · rfl

/-- What is visible of a node has as many bytes as the node, so it is not empty. -/
theorem visible_ne_nil (hl : l ∈ (Tree.read cs).below) : (Tree.read cs).visible l.node ≠ [] := by
  have hpos := byteLength_pos (chars_ne_nil_of_mem_below hl)
  rw [← byteLength_visible] at hpos
  intro hnil
  rw [hnil, byteLength_nil] at hpos
  exact absurd hpos (Nat.lt_irrefl 0)

/-- After what is visible of a node a scan can be cut, if a name begins there. -/
theorem settled_visible {a s b : List Char} {c : Char}
    (hl : l ∈ (Tree.read cs).below)
    (hcs : cs = a ++ c :: s) (ha : byteLength a = l.node.span.stop) (hc : isOrdinary c = true)
    (hb : b.head? = some c) : Settled ((Tree.read cs).visible l.node) b := by
  have hne := visible_ne_nil hl
  rw [visible] at hne ⊢
  split
  · next hkind =>
    rw [if_pos hkind] at hne
    refine settled_of_forall hne (fun x hx => ?_) ?_
    · rw [List.eq_of_mem_replicate hx]
      decide
    · rw [hb]
      exact fun h => ne_of_isOrdinary hc (by decide) (Option.some.inj h)
  · obtain ⟨x, last, hchars, hlast, hends⟩ := exists_last_lexeme hl hcs ha
    rw [hchars]
    exact (hends.settled hlast hc rfl hb).append_left hlast x

/-! ### Siblings -/

section Siblings

variable {v n : Node} {above pre post : List Node} (hv : ⟨v, above⟩ ∈ (Tree.read cs).locations)
  (hchildren : v.children = pre ++ n :: post)

include hv hchildren

theorem tiles_of_children : Tiles v.span.start v.span.stop (pre ++ n :: post) := by
  have hne : v.children ≠ [] := by simp [hchildren]
  rw [← hchildren]
  exact filled_read cs v (mem_nodes_of_mem_locations hv) hne

theorem below_of_children : ⟨n, v :: above⟩ ∈
    (Tree.read cs).below :=
  below_of_mem_children hv (by simp [hchildren])

/-- The text of a node is cut off before it. -/
theorem exists_append_of_children : ∃ a b, cs = a ++ ((Tree.read cs).chars n ++ b) ∧
    byteLength a = n.span.start :=
  (standsAt_chars hv (by simp [hchildren])).1

/-- A node starts after what is visible of its siblings before it. -/
theorem start_eq_of_children :
    n.span.start = v.span.start + byteLength (pre.flatMap (Tree.read cs).visible) := by
  obtain ⟨mid, hpre, hn, -⟩ := tiles_append.1 (tiles_of_children hv hchildren)
  rw [hn]
  refine stop_of_tiles hpre fun m hm => ?_
  rw [byteLength_visible]
  exact (standsAt_chars hv (by rw [hchildren]; exact List.mem_append_left _ hm)).2

/-- What a scan shows from a node on begins with a name if and only if the node
    does. -/
theorem beginsName_flatMap_visible :
    beginsName ((n :: post).flatMap (Tree.read cs).visible) =
      beginsName ((Tree.read cs).visible n) := by
  have hn := below_of_children hv hchildren
  rw [List.flatMap_cons]
  -- only a colon alone could become a name together with what follows, but it is a word
  refine beginsName_append (visible_ne_nil hn) fun x hx hcolon => ?_
  have hchars : (Tree.read cs).chars n = [':'] := by
    rw [← visible_eq_chars_of_mem (c := ':') (by rw [hcolon]; exact List.mem_cons_self) (by decide),
      hcolon]
  cases post with
  | nil => cases hx
  | cons m post =>
    have hchildren' : v.children = (pre ++ [n]) ++ m :: post := by simp [hchildren]
    obtain ⟨y, ys, hy⟩ := List.exists_cons_of_ne_nil
      (visible_ne_nil (below_of_children hv hchildren'))
    obtain rfl : y = x := by
      rw [List.flatMap_cons, hy] at hx
      exact Option.some.inj hx
    by_cases hblank : y = ' '
    · rw [hblank]
      decide
    · have hm := visible_eq_chars_of_mem (c := y) (by rw [hy]; exact List.mem_cons_self) hblank
      obtain ⟨a, b, hcs, ha⟩ := exists_append_of_children hv hchildren'
      have hstop : m.span.start = n.span.stop := by
        obtain ⟨_, -, -, hrest⟩ := tiles_append.1 (tiles_of_children hv hchildren)
        exact hrest.1
      have hends := endsWord_of_chars_eq_singleton hn hchars (by decide) hcs (ha.trans hstop)
      rw [← hm, hy] at hends
      exact isNameChar_of_isTerminator (hends y rfl)

/-- Before a node that begins with a name a scan can be cut. -/
theorem settled_flatMap_visible (hkind : v.kind ≠ .root)
    (hname : beginsName ((Tree.read cs).visible n) = true) :
    Settled (pre.flatMap (Tree.read cs).visible) ((n :: post).flatMap (Tree.read cs).visible) := by
  obtain ⟨c, s, hvisible, hc⟩ := exists_cons_of_beginsName hname
  have hchars : (Tree.read cs).chars n = c :: s := by
    rw [← visible_eq_chars_of_mem (c := c) (by rw [hvisible]; exact List.mem_cons_self)
      (ne_of_isOrdinary hc (by decide)), hvisible]
  have hstart := start_eq_of_children hv hchildren
  -- a word starts after the node around it, so a sibling stands between their starts
  have hpre : pre ≠ [] := by
    rintro rfl
    rcases start_lt_of_startsWord (below_of_children hv hchildren) hchars
      (startsWord_of_isOrdinary hc) v List.mem_cons_self with h | h
    · exact hkind h
    · rw [hstart, List.flatMap_nil, byteLength_nil] at h
      exact absurd h (Nat.lt_irrefl _)
  obtain ⟨init, p, rfl⟩ : ∃ init p, pre = init ++ [p] :=
    ⟨_, _, (List.dropLast_concat_getLast hpre).symm⟩
  have hchildren' : v.children = init ++ p :: n :: post := by simp [hchildren]
  have hp := below_of_children hv hchildren'
  have hstop : n.span.start = p.span.stop := by
    obtain ⟨_, -, -, hrest⟩ := tiles_append.1 (tiles_of_children hv hchildren')
    exact hrest.1
  obtain ⟨a, b, hcs, ha⟩ := exists_append_of_children hv hchildren
  rw [hchars, List.cons_append] at hcs
  have hsettled : Settled ((Tree.read cs).visible p)
      ((n :: post).flatMap (Tree.read cs).visible) :=
    settled_visible hp hcs (ha.trans hstop) hc (by rw [List.flatMap_cons, hvisible]; rfl)
  rw [List.flatMap_append, List.flatMap_singleton]
  exact hsettled.append_left (visible_ne_nil hp) _

/-- In the text of a node a marker is pending at a child if and only if the child
    begins with a name and what is visible of its siblings before it leaves a
    marker. -/
theorem isPendingAt_maskedChars_iff (hkind : v.kind ≠ .root) :
    isPendingAt ((Tree.read cs).maskedChars v) (n.span.start - v.span.start) = true ↔
      beginsName ((Tree.read cs).visible n) = true ∧
        0 < unspent 0 (shown (pre.flatMap (Tree.read cs).visible)) := by
  have hne : v.children ≠ [] := by simp [hchildren]
  have hmasked : (Tree.read cs).maskedChars v = v.children.flatMap (Tree.read cs).visible :=
    maskedChars_read hv hne
  rw [start_eq_of_children hv hchildren, Nat.add_sub_cancel_left, hmasked, hchildren,
    List.flatMap_append, ← beginsName_flatMap_visible hv hchildren]
  -- the scan need not be cut where no name begins: nothing is pending there
  have hcut : beginsName ((n :: post).flatMap (Tree.read cs).visible) = true →
      Settled (pre.flatMap (Tree.read cs).visible)
        ((n :: post).flatMap (Tree.read cs).visible) := by
    rw [beginsName_flatMap_visible hv hchildren]
    exact settled_flatMap_visible hv hchildren hkind
  constructor
  · intro h
    have hname := beginsName_of_isPendingAt h
    rw [isPendingAt_append (hcut hname), Bool.and_eq_true, decide_eq_true_eq] at h
    exact h
  · rintro ⟨hname, hleft⟩
    rw [isPendingAt_append (hcut hname), hname, Bool.true_and]
    exact decide_eq_true hleft

end Siblings

/-! ### Verdicts -/

/-- The text of the vector around a form deactivates it although no marker of the
    tree stands in the vector: the form begins with a name, and from some point on
    the siblings before it show more markers than names. -/
def Misled (t : Tree) (l : Location) : Prop :=
  ∃ v above pre post, l.above = v :: above ∧ v.kind = .vector ∧
    v.children = pre ++ l.node :: post ∧ (∀ n ∈ v.children, n.kind ≠ .formComment) ∧
    beginsName (t.visible l.node) = true ∧
    ∃ xs ys, shown (pre.flatMap t.visible) = xs ++ ys ∧ ys.count false < ys.count true

/-- The text has the last word on a form if and only if it misleads. -/
theorem isMarkedInText_read_iff (hl : l ∈ (Tree.read cs).locations) :
    (Tree.read cs).isMarkedInText l = true ↔ (Tree.read cs).Misled l := by
  rw [isMarkedInText.eq_def]
  split
  · next habove =>
    constructor
    · intro h
      cases h
    · rintro ⟨v, above, _, _, hcons, -⟩
      rw [habove] at hcons
      cases hcons
  · next v above habove =>
    obtain ⟨hv, hmem⟩ := parent_mem_locations hl habove
    have hmarkers : (!v.children.any (·.kind == .formComment)) = true ↔
        ∀ n ∈ v.children, n.kind ≠ .formComment := by
      simp
    simp only [Bool.and_eq_true, beq_iff_eq, decide_eq_true_eq, hmarkers]
    constructor
    · rintro ⟨⟨⟨hkind, hnone⟩, -⟩, hpending⟩
      obtain ⟨pre, post, hchildren⟩ := List.append_of_mem hmem
      have hroot : v.kind ≠ .root := by simp [hkind]
      obtain ⟨hname, hleft⟩ := (isPendingAt_maskedChars_iff hv hchildren hroot).1 hpending
      exact ⟨v, above, pre, post, habove, hkind, hchildren, hnone, hname, unspent_pos_iff.1 hleft⟩
    · rintro ⟨v', above', pre, post, habove', hkind, hchildren, hnone, hname, hleft⟩
      obtain ⟨rfl, rfl⟩ := List.cons.inj (habove.symm.trans habove')
      refine ⟨⟨⟨hkind, hnone⟩, ?_⟩, ?_⟩
      · rw [start_eq_of_children hv hchildren]
        exact Nat.le_add_right ..
      · exact (isPendingAt_maskedChars_iff hv hchildren (by simp [hkind])).2
          ⟨hname, unspent_pos_iff.2 hleft⟩

/-- In the tree of a text, a node is inert if and only if the smallest form that
    it is or lies in, or a form around that one, is deactivated by markers of the
    tree, or the text of the vector around the smallest form misleads. -/
theorem isInert_read_iff (hl : l ∈ (Tree.read cs).locations) :
    (Tree.read cs).isInert l = true ↔ ∃ f, l.enclosingForm? = some f ∧
      ((∃ a ∈ f.selfAndAncestors, a.node.kind.isForm = true ∧ a.isDeactivated = true) ∨
        (Tree.read cs).Misled f) := by
  rw [isInert]
  cases hform : l.enclosingForm? with
  | none => simp
  | some f =>
    have hf := mem_locations_of_enclosingForm? hl hform
    simp only [Bool.or_eq_true, isMarkedInText_read_iff hf, Location.isInDeactivated,
      List.any_eq_true, Bool.and_eq_true, Option.some.injEq, exists_eq_left']

/-- A marker inside a nested vector misleads about the name after the vector. -/
theorem isInert_read_misled :
    let t := Tree.read "[[#_ 1] a]".toList
    ∃ l ∈ t.locations, t.isInert l = true ∧ ∃ f, l.enclosingForm? = some f ∧ t.Misled f := by
  intro t
  obtain ⟨l, hl, hinert, hactive⟩ : ∃ l ∈ t.locations, t.isInert l = true ∧
      ∀ f ∈ l.enclosingForm?, ∀ a ∈ f.selfAndAncestors, a.isDeactivated = false := by
    decide +kernel
  obtain ⟨f, hf, hverdict⟩ := (isInert_read_iff hl).1 hinert
  refine ⟨l, hl, hinert, f, hf, hverdict.resolve_left ?_⟩
  rintro ⟨a, ha, -, hoff⟩
  rw [hactive f hf a ha] at hoff
  cases hoff

/-- The name after a vector that ends with a deactivated number is inert, although
    neither it nor the form around it is deactivated. -/
theorem isInert_of_nested_marker :
    let t := Tree.read "[[#_ 1] a]".toList
    ∃ l ∈ t.locations, l.node.kind.isForm = true ∧ t.chars l.node = ['a'] ∧ t.isInert l = true ∧
      ∀ a ∈ l.selfAndAncestors, a.isDeactivated = false := by
  decide +kernel

end Tree

end Typeahead
