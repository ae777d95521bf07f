import Typeahead.Proofs.Composition
import Typeahead.Proofs.Insertion

/-!
# A word in a blank

A text that is cut inside a blank, and the same text with a word put in at the
cut, are read almost alike: the blank becomes two blanks with the word between
them, and the other lexemes stay the same. The word completes the quoted forms that
wait for a form; the next delimiter that closes something around the cut closes the
same collection in both texts, since what is open inside a collection depends on the
shapes of the lexemes alone.

* `CutsBlank.lex_insert`: the lexemes of the text with the word;
* `Builder.Within.place`: what is open inside a node after a lexeme;
* `Builder.Within.place_eq`: a delimiter that closes the node.
-/

namespace Typeahead

/-! ### Lexemes around the cut -/

/-- The text `u ++ v` is cut inside the lexeme `l`, which ends with the part `y` after its
    part `x`. -/
structure CutsLexeme (u v : List Char) (before : List Lexeme) (l : Lexeme) (x y : List Char)
    (after : List Lexeme) : Prop where
  lex_eq : lex (u ++ v) = before ++ l :: after
  left_eq : u = before.flatMap (·.text) ++ x
  text_eq : l.text = x ++ y
  left_ne_nil : x ≠ []
  right_ne_nil : y ≠ []

/-- The text `u ++ v` is cut inside a blank, which ends with the part `y` after its
    part `x`. -/
structure CutsBlank (u v : List Char) (before : List Lexeme) (x y : List Char)
    (after : List Lexeme) : Prop where
  lex_eq : lex (u ++ v) = before ++ ⟨.blank, x ++ y⟩ :: after
  left_eq : u = before.flatMap (·.text) ++ x
  right_eq : v = y ++ after.flatMap (·.text)
  left_ne_nil : x ≠ []
  right_ne_nil : y ≠ []

theorem exists_append_of_byteLength_le {u v a b : List Char} (h : u ++ v = a ++ b)
    (hle : byteLength a ≤ byteLength u) : ∃ x, u = a ++ x ∧ b = x ++ v := by
  rcases List.append_eq_append_iff.1 h with ⟨x, rfl, hv⟩ | ⟨x, hu, hb⟩
  · obtain rfl : x = [] := by
      by_contra hne
      have hpos := byteLength_pos hne
      rw [byteLength_append] at hle
      omega
    exact ⟨[], by simp, by simpa using hv.symm⟩
  · exact ⟨x, hu, hb⟩

/-- An offset strictly inside a token of the tree of a text cuts the text in its lexeme. -/
theorem exists_cutsLexeme {u v : List Char} {leaf : Leaf}
    (hleaf : leaf ∈ (Tree.read (u ++ v)).leaves) (hstart : leaf.node.span.start < byteLength u)
    (hstop : byteLength u < leaf.node.span.stop) :
    ∃ before l x y after, CutsLexeme u v before l x y after ∧
      leaf.IsToken (byteLength (before.flatMap (·.text))) l := by
  obtain ⟨before, ⟨shape, text⟩, after, hlex, htoken⟩ :=
    (Tree.tokens_leaves_read (u ++ v)).exists_lexeme hleaf
  rw [Nat.zero_add] at htoken
  have hspan := htoken.span_eq
  rw [hspan] at hstart hstop
  dsimp only at hstart hstop
  have htext : u ++ v = before.flatMap (·.text) ++ (text ++ after.flatMap (·.text)) := by
    rw [← flatMap_text_lex (u ++ v), hlex, List.flatMap_append, List.flatMap_cons]
  -- the offset is after the start of the lexeme, and before its end
  obtain ⟨x, rfl, hrest⟩ := exists_append_of_byteLength_le htext (Nat.le_of_lt hstart)
  rw [byteLength_append] at hstart hstop
  obtain ⟨y, rfl, hv⟩ := exists_append_of_byteLength_le hrest (by omega)
  rw [byteLength_append] at hstop
  refine ⟨before, _, x, y, after, ⟨hlex, rfl, rfl, ?_, ?_⟩, htoken⟩
  · rintro rfl
    simp at hstart
  · rintro rfl
    simp at hstop

/-- The lexemes before the one that is cut stay the same, whatever comes after the cut. -/
theorem CutsLexeme.lex_append {u v : List Char} {before after : List Lexeme} {l : Lexeme}
    {x y : List Char} (h : CutsLexeme u v before l x y after) (w : List Char) :
    lex (u ++ w) = before ++ lex (x ++ w) := by
  obtain ⟨ls, r, hu, hv, hw, hlast⟩ := exists_lex_append u v w
  have hleft := h.left_eq.symm.trans hu
  have hlex := h.lex_eq.symm.trans hv
  have hx := byteLength_pos h.left_ne_nil
  have hy := byteLength_pos h.right_ne_nil
  have hl := congrArg byteLength h.text_eq
  rw [byteLength_append] at hl
  obtain rfl : before = ls := by
    rcases List.append_eq_append_iff.1 hlex with ⟨ms, rfl, hms⟩ | ⟨ms, rfl, hms⟩
    · cases ms with
      | nil => exact (List.append_nil _).symm
      | cons m ms =>
        -- the lexeme would be among the common ones, but it reaches over the cut
        obtain ⟨rfl, -⟩ := List.cons.inj hms
        have hbytes := congrArg byteLength hleft
        simp only [List.flatMap_append, List.flatMap_cons, byteLength_append] at hbytes
        omega
    · cases ms with
      | nil => exact List.append_nil _
      | cons m ms =>
        -- a lexeme before it would reach to the cut
        have hle := hlast m _ hms
        have hbytes := congrArg byteLength hleft
        simp only [List.flatMap_append, List.flatMap_cons, byteLength_append] at hbytes
        omega
  rw [hw, List.append_cancel_left hleft]

/-- An offset strictly inside a blank of the tree of a text cuts the text there. -/
theorem exists_cutsBlank {u v : List Char} {w : Node} (hw : w ∈ (Tree.read (u ++ v)).nodes)
    (hkind : w.kind = .whitespace) (hstart : w.span.start < byteLength u)
    (hstop : byteLength u < w.span.stop) : ∃ before x y after, CutsBlank u v before x y after := by
  obtain ⟨leaf, hleaf, rfl⟩ :=
    Tree.exists_leaf_of_mem_nodes hw (by simp [hkind]) (by rw [hkind]; rfl)
  obtain ⟨before, ⟨shape, text⟩, x, y, after, hcut, htoken⟩ := exists_cutsLexeme hleaf hstart hstop
  have hmem : (⟨shape, text⟩ : Lexeme) ∈ lex (u ++ v) := by simp [hcut.lex_eq]
  obtain rfl : shape = .blank := (sound_of_mem_lex hmem).shape_eq_blank (hkind ▸ htoken.kind_mem)
  obtain rfl : text = x ++ y := hcut.text_eq
  refine ⟨before, x, y, after, hcut.lex_eq, hcut.left_eq, ?_, hcut.left_ne_nil,
    hcut.right_ne_nil⟩
  have htext := congrArg (List.flatMap (·.text)) hcut.lex_eq
  rw [flatMap_text_lex, List.flatMap_append, List.flatMap_cons, hcut.left_eq] at htext
  simpa using htext

namespace CutsBlank

variable {u v : List Char} {before : List Lexeme} {x y : List Char} {after : List Lexeme}

/-- The lexemes before the blank stay the same, whatever comes after the cut. -/
theorem lex_append (h : CutsBlank u v before x y after) (w : List Char) :
    lex (u ++ w) = before ++ lex (x ++ w) :=
  CutsLexeme.lex_append ⟨h.lex_eq, h.left_eq, rfl, h.left_ne_nil, h.right_ne_nil⟩ w

theorem isBlank_of_mem (h : CutsBlank u v before x y after) :
    (∀ c ∈ x ++ y, isBlank c = true) ∧ BeginsDark (after.flatMap (·.text)) := by
  obtain ⟨c, rest, hnext⟩ := exists_nextLexeme_of_lex h.lex_eq
  have hc : isBlank c = true := isBlank_of_shape_nextLexeme (by rw [hnext])
  rw [nextLexeme, if_pos hc, Lexeme.blank, Prod.mk.injEq, Lexeme.mk.injEq] at hnext
  obtain ⟨⟨-, htext⟩, hrest⟩ := hnext
  refine ⟨fun d hd => ?_, fun d hd => ?_⟩
  · rw [← htext] at hd
    rcases List.mem_cons.1 hd with rfl | hd
    · exact hc
    · exact List.mem_takeWhile_imp hd
  · rw [← hrest] at hd
    exact not_of_mem_head?_dropWhile hd

/-- The lexemes of blanks that go on to where something dark begins. -/
theorem lex_blank {s rest : List Char} (hs : ∀ c ∈ s, isBlank c = true) (hne : s ≠ [])
    (hrest : BeginsDark rest) : lex (s ++ rest) = ⟨.blank, s⟩ :: lex rest := by
  obtain ⟨c, cs, rfl⟩ := List.exists_cons_of_ne_nil hne
  have hdrop : cs.dropWhile isBlank = [] :=
    List.dropWhile_eq_nil_iff.2 fun x hx => hs x (List.mem_cons_of_mem _ hx)
  exact lex_cons (nextLexeme_blank_append (hs c List.mem_cons_self) hdrop hrest)

/-- After the cut come the rest of the blank and the lexemes after it. -/
theorem lex_right (h : CutsBlank u v before x y after) : lex v = ⟨.blank, y⟩ :: after := by
  obtain ⟨hblank, hdark⟩ := h.isBlank_of_mem
  have hlex := (h.lex_append v).symm.trans h.lex_eq
  rw [List.append_cancel_left_eq, h.right_eq, ← List.append_assoc,
    lex_blank hblank (by simp [h.left_ne_nil]) hdark] at hlex
  rw [h.right_eq, lex_blank (fun c hc => hblank c (List.mem_append_right _ hc)) h.right_ne_nil
    hdark, (List.cons.inj hlex).2]

/-- The lexemes of the text with a word at the cut: the blank becomes two. -/
theorem lex_insert (h : CutsBlank u v before x y after) {p : List Char}
    (hp : ∀ c ∈ p, isOrdinary c = true) (hne : p ≠ []) :
    lex (u ++ (p ++ v)) =
      before ++ ⟨.blank, x⟩ :: ⟨.atom (atomKind p), p⟩ :: ⟨.blank, y⟩ :: after := by
  obtain ⟨hblank, -⟩ := h.isBlank_of_mem
  obtain ⟨c, q, rfl⟩ := List.exists_cons_of_ne_nil hne
  obtain ⟨d, s, hy⟩ := List.exists_cons_of_ne_nil h.right_ne_nil
  have hc := startsWord_of_isOrdinary (hp c List.mem_cons_self)
  have hq : ∀ a ∈ q, (!isTerminator a) = true := fun a ha => by
    rw [isTerminator_of_isOrdinary (hp a (List.mem_cons_of_mem _ ha))]
    rfl
  have hd : isTerminator d = true :=
    isTerminator_of_isBlank (hblank d (by rw [hy]; simp))
  -- the word ends where the rest of the blank begins
  have hword : nextLexeme c (q ++ v) = (⟨.atom (atomKind (c :: q)), c :: q⟩, v) := by
    have hv : v = d :: (s ++ after.flatMap (·.text)) := by rw [h.right_eq, hy]; rfl
    rw [nextLexeme_of_startsWord hc, Lexeme.atom, List.takeWhile_append_of_pos hq,
      List.dropWhile_append_of_pos hq, hv, List.takeWhile_cons_of_neg (by simp [hd]),
      List.dropWhile_cons_of_neg (by simp [hd]), List.append_nil]
  have hdark : BeginsDark (c :: q ++ v) :=
    beginsDark_cons (isBlank_of_startsWord hc) (q ++ v)
  rw [h.lex_append, lex_blank (fun a ha => hblank a (List.mem_append_left _ ha)) h.left_ne_nil
    hdark, List.cons_append, lex_cons hword, h.lex_right]

end CutsBlank

/-! ### What is open inside a node -/

namespace Builder

/-- Of the open nodes `fs`, those around the one with the heading `base` are
    `rest`. Those inside it are of the given kinds, apart from quoted forms
    directly inside it. -/
def Within (base : Heading) (rest : List Frame) (kinds : List Kind) (fs : List Frame) : Prop :=
  ∃ inner quoted f, fs = inner ++ (quoted ++ f :: rest) ∧ inner.map (·.kind) = kinds ∧
    (∀ q ∈ quoted, q.kind = .quoted) ∧ f.heading = base

/-- Whether the delimiter `d` closes the node with the heading `base` or one of the
    open nodes `rest` around it. -/
def closesFrom (base : Heading) (rest : List Frame) (d : Char) : Bool :=
  base.kind.closer? == some d || rest.any (·.kind.closer? == some d)

/-- The kinds of what is open inside a node, innermost first, after a lexeme of the
    given shape; none if the lexeme closes the node. -/
def nesting (outside : Char → Bool) (kinds : List Kind) : Shape → Option (List Kind)
  | .blank | .comment | .marker => some kinds
  | .opener kind => some (kind :: kinds)
  | .sigil => some (.quoted :: kinds)
  | .atom _ => some (kinds.dropWhile (· == .quoted))
  | .closer d =>
    match kinds.dropWhile (·.closer? != some d) with
    | _ :: ks => some (ks.dropWhile (· == .quoted))
    | [] => if outside d then none else some kinds

namespace Within

variable {b : Builder} {base : Heading} {rest fs : List Frame} {kinds : List Kind} {f : Frame}

theorem add (h : Within base rest kinds (f :: fs)) (n : Node) :
    Within base rest kinds (f.add n :: fs) := by
  obtain ⟨inner, quoted, g, hfs, hkinds, hquoted, hg⟩ := h
  cases inner with
  | cons i inner =>
    obtain ⟨rfl, rfl⟩ := List.cons.inj hfs
    exact ⟨f.add n :: inner, quoted, g, rfl, hkinds, hquoted, hg⟩
  | nil =>
    cases quoted with
    | cons q quoted =>
      obtain ⟨rfl, rfl⟩ := List.cons.inj hfs
      exact ⟨[], f.add n :: quoted, g, rfl, hkinds, by simpa [Frame.add] using hquoted, hg⟩
    | nil =>
      obtain ⟨rfl, rfl⟩ := List.cons.inj hfs
      exact ⟨[], [], f.add n, rfl, hkinds, hquoted, hg⟩

theorem kind_eq {k : Kind} (h : Within base rest (k :: kinds) (f :: fs)) :
    f.kind = k ∧ Within base rest kinds fs := by
  obtain ⟨inner, quoted, g, hfs, hkinds, hquoted, hg⟩ := h
  cases inner with
  | nil => cases hkinds
  | cons i inner =>
    obtain ⟨rfl, rfl⟩ := List.cons.inj hfs
    obtain ⟨hkind, hkinds⟩ := List.cons.inj hkinds
    exact ⟨hkind, inner, quoted, g, rfl, hkinds, hquoted, hg⟩

/-- With nothing but quoted forms open inside the node, the innermost open node is
    one of these, or the node itself. -/
theorem cases_nil (h : Within base rest [] (f :: fs)) :
    f.kind = .quoted ∧ Within base rest [] fs ∨ f.heading = base ∧ fs = rest := by
  obtain ⟨inner, quoted, g, hfs, hkinds, hquoted, hg⟩ := h
  obtain rfl := List.map_eq_nil_iff.1 hkinds
  cases quoted with
  | nil =>
    obtain ⟨rfl, rfl⟩ := List.cons.inj hfs
    exact .inr ⟨hg, rfl⟩
  | cons q quoted =>
    obtain ⟨rfl, rfl⟩ := List.cons.inj hfs
    exact .inl ⟨hquoted f List.mem_cons_self, [], quoted, g, rfl, rfl,
      fun q hq => hquoted q (List.mem_cons_of_mem _ hq), hg⟩

theorem ne_nil (h : Within base rest kinds fs) : fs ≠ [] := by
  obtain ⟨inner, quoted, g, rfl, -⟩ := h
  simp

theorem start (h : Within base rest kinds b.frames) (kind : Kind) (start : Nat) :
    Within base rest (kind :: kinds) (b.start kind start).frames := by
  obtain ⟨inner, quoted, g, hfs, rfl, hquoted, hg⟩ := h
  exact ⟨⟨b.next, kind, start, []⟩ :: inner, quoted, g, congrArg (_ :: ·) hfs, rfl, hquoted, hg⟩

theorem finish {k : Kind} (h : Within base rest (k :: kinds) b.frames) (stop : Nat) :
    Within base rest kinds (b.finish stop).frames := by
  obtain ⟨-, hbelow⟩ := h.kind_eq
  obtain ⟨f, fs, hfs⟩ := List.exists_cons_of_ne_nil hbelow.ne_nil
  rw [finish_cons hfs]
  rw [hfs] at hbelow
  exact hbelow.add _

/-- Settling closes quoted forms only. -/
theorem settle (hbase : base.kind ≠ .quoted) (h : Within base rest kinds b.frames) (stop : Nat) :
    Within base rest (kinds.dropWhile (· == .quoted)) (b.settle stop).frames := by
  suffices hgo : ∀ (below : List Frame) (top : Frame) (kinds : List Kind),
      Within base rest kinds (top :: below) →
        Within base rest (kinds.dropWhile (· == .quoted)) (settle.go stop b top below).frames from
    hgo _ _ _ h
  intro below
  induction below with
  | nil =>
    intro top kinds h
    cases kinds with
    | nil => exact h
    | cons k kinds => exact absurd rfl h.kind_eq.2.ne_nil
  | cons f fs ih =>
    intro top kinds h
    rw [settle.go]
    cases kinds with
    | nil =>
      -- the innermost open node is a quoted form directly inside the node, or the node
      rcases h.cases_nil with ⟨hquoted, hrest⟩ | ⟨rfl, -⟩
      · rw [if_pos hquoted]
        exact ih _ _ (hrest.add _)
      · have hkind : top.kind ≠ .quoted := hbase
        rw [if_neg hkind]
        exact h
    | cons k kinds =>
      obtain ⟨rfl, hrest⟩ := h.kind_eq
      split
      · next hquoted =>
        rw [List.dropWhile_cons_of_pos (by simp [hquoted])]
        exact ih _ _ (hrest.add _)
      · next hquoted =>
        rw [List.dropWhile_cons_of_neg (by simp [hquoted])]
        exact h

/-- A delimiter of a node inside closes up to that node. -/
theorem unwindTo {k : Kind} {ks : List Kind} {d : Char} (h : Within base rest kinds b.frames)
    (hd : kinds.dropWhile (·.closer? != some d) = k :: ks) (stop : Nat) :
    Within base rest (k :: ks) (b.unwindTo d stop).frames := by
  suffices hgo : ∀ (below : List Frame) (top : Frame) (kinds : List Kind),
      Within base rest kinds (top :: below) →
        kinds.dropWhile (·.closer? != some d) = k :: ks →
          Within base rest (k :: ks) (unwindTo.go d stop b top below).frames from hgo _ _ _ h hd
  intro below
  induction below with
  | nil =>
    intro top kinds h hd
    cases kinds with
    | nil => cases hd
    | cons k kinds => exact absurd rfl h.kind_eq.2.ne_nil
  | cons f fs ih =>
    intro top kinds h hd
    rw [unwindTo.go]
    cases kinds with
    | nil => cases hd
    | cons k' kinds =>
      obtain ⟨rfl, hrest⟩ := h.kind_eq
      split
      · next hcloser =>
        rw [List.dropWhile_cons_of_neg (by simp [hcloser])] at hd
        rw [← hd]
        exact h
      · next hcloser =>
        rw [List.dropWhile_cons_of_pos (by simp [hcloser])] at hd
        exact ih _ _ (hrest.add _) hd

/-- Everything inside the node can be closed. -/
theorem exists_closing (h : Within base rest kinds b.frames) (stop : Nat) :
    ∃ f : Frame, f.heading = base ∧
      Closing stop (· ∈ .quoted :: kinds) b { b with top := f, below := rest } := by
  suffices hgo : ∀ (below : List Frame) (top : Frame) (ks : List Kind),
      Within base rest ks (top :: below) → ks ⊆ kinds → ∃ f : Frame, f.heading = base ∧
        Closing stop (· ∈ .quoted :: kinds) { b with top, below }
          { b with top := f, below := rest } from hgo b.below b.top kinds h (List.Subset.refl _)
  intro below
  induction below with
  | nil =>
    intro top ks h _
    cases ks with
    | cons k ks => exact absurd rfl h.kind_eq.2.ne_nil
    | nil =>
      rcases h.cases_nil with ⟨-, hrest⟩ | ⟨hf, rfl⟩
      · exact absurd rfl hrest.ne_nil
      · exact ⟨top, hf, .refl _⟩
  | cons f fs ih =>
    intro top ks h hks
    -- one more node is closed, unless it is the node itself
    have hstep : top.kind ∈ .quoted :: kinds → ∀ ks', Within base rest ks' (f :: fs) →
        ks' ⊆ kinds → ∃ g : Frame, g.heading = base ∧
          Closing stop (· ∈ .quoted :: kinds) { b with top, below := f :: fs }
            { b with top := g, below := rest } := by
      intro hkind ks' hrest hks'
      obtain ⟨g, hg, hclosing⟩ := ih (f.add (top.close stop)) ks' (hrest.add _) hks'
      exact ⟨g, hg, .step hkind (List.cons_ne_nil f fs) hclosing⟩
    cases ks with
    | cons k ks =>
      obtain ⟨rfl, hrest⟩ := h.kind_eq
      exact hstep (List.mem_cons_of_mem _ (hks List.mem_cons_self)) ks hrest
        fun k hk => hks (List.mem_cons_of_mem _ hk)
    | nil =>
      rcases h.cases_nil with ⟨hquoted, hrest⟩ | ⟨hf, rfl⟩
      · exact hstep (by simp [hquoted]) [] hrest (List.nil_subset _)
      · exact ⟨top, hf, .refl _⟩

theorem closes_eq (h : Within base rest kinds b.frames) (d : Char) :
    b.closes d = (kinds.any (·.closer? == some d) || closesFrom base rest d) := by
  obtain ⟨inner, quoted, f, hfs, rfl, hquoted, rfl⟩ := h
  have hnone : quoted.any (·.kind.closer? == some d) = false := by
    rw [List.any_eq_false]
    intro q hq
    simp [hquoted q hq, Kind.closer?]
  have hcloses : b.closes d = b.frames.any (·.kind.closer? == some d) := rfl
  rw [hcloses, hfs, List.any_append, List.any_append, hnone, List.any_map]
  rfl

end Within

theorem Closing.unwindTo_eq {b b' : Builder} {stop : Nat} {p : Kind → Prop} {d : Char}
    (h : Closing stop p b b') (hp : ∀ k, p k → k.closer? ≠ some d) :
    b.unwindTo d stop = b'.unwindTo d stop := by
  induction h with
  | refl b => rfl
  | @step b b' hk hne _ ih =>
    obtain ⟨f, fs, hfs⟩ := List.exists_cons_of_ne_nil hne
    have hgo : ∀ (below : List Frame) (top : Frame),
        unwindTo.go d stop b top below = unwindTo.go d stop (b.finish stop) top below := by
      rw [finish_cons hfs]
      intro below
      induction below with
      | nil => exact fun _ => rfl
      | cons g gs ih =>
        intro top
        rw [unwindTo.go, unwindTo.go, ih]
    rw [← ih, unwindTo, hfs, unwindTo.go, if_neg (hp _ hk), hgo, finish_cons hfs]
    rfl

theorem Closing.toTree_eq {b b' : Builder} {stop : Nat} {p : Kind → Prop}
    (h : Closing stop p b b') (hstop : stop = byteLength b.source) : b.toTree = b'.toTree := by
  induction h with
  | refl b => rfl
  | @step b b' _ hne _ ih =>
    obtain ⟨f, fs, hfs⟩ := List.exists_cons_of_ne_nil hne
    have hsource : (b.finish stop).source = b.source := by rw [finish_cons hfs]
    rw [← ih (hstop.trans (congrArg byteLength hsource.symm)), toTree, toTree, finish_cons hfs, hfs,
      Frame.closeAll, hstop]

namespace Within

variable {b : Builder} {base : Heading} {rest : List Frame} {kinds : List Kind} {l : Lexeme}

/-- What is open inside a node after a lexeme depends on what was open before it,
    and on the shape of the lexeme. -/
theorem place (hbase : base.kind ≠ .quoted) (h : Within base rest kinds b.frames)
    {kinds' : List Kind} (hnesting : nesting (closesFrom base rest) kinds l.shape = some kinds')
    (start : Nat) : Within base rest kinds' (b.place start l).frames := by
  rw [Builder.place.eq_def]
  revert hnesting
  generalize l.shape = shape
  intro hnesting
  cases shape with
  | blank | comment | marker =>
    cases hnesting
    exact h.add _
  | opener kind | sigil =>
    cases hnesting
    exact (h.start _ _).add _
  | atom kind =>
    cases hnesting
    exact (h.add _).settle hbase _
  | closer d =>
    rw [nesting] at hnesting
    dsimp only
    rw [h.closes_eq d]
    cases hkinds : kinds.dropWhile (·.closer? != some d) with
    | cons k ks =>
      -- a node inside has the delimiter
      have hany : kinds.any (·.closer? == some d) = true := by
        by_contra hnone
        have hnil : kinds.dropWhile (·.closer? != some d) = [] := by
          rw [List.dropWhile_eq_nil_iff]
          simpa using hnone
        rw [hnil] at hkinds
        cases hkinds
      rw [hkinds] at hnesting
      cases hnesting
      rw [hany, Bool.true_or, if_pos rfl]
      exact (((h.unwindTo hkinds _).add _).finish _).settle hbase _
    | nil =>
      -- none has it, inside or outside: the delimiter is stray
      have hany : kinds.any (·.closer? == some d) = false := by
        simpa using List.dropWhile_eq_nil_iff.1 hkinds
      rw [hkinds] at hnesting
      dsimp only at hnesting
      split at hnesting
      · cases hnesting
      · next houtside =>
        cases hnesting
        rw [hany, Bool.false_or, if_neg houtside]
        exact h.add _

/-- A delimiter that closes the node, or one around it, is placed as if everything
    inside had been closed before. -/
theorem place_eq (h : Within base rest kinds b.frames)
    (hnesting : nesting (closesFrom base rest) kinds l.shape = none) (start : Nat) :
    ∃ d, l.shape = .closer d ∧ closesFrom base rest d = true ∧ ∃ f : Frame, f.heading = base ∧
      b.place start l = Builder.place { b with top := f, below := rest } start l := by
  cases hshape : l.shape with
  | closer d =>
    rw [hshape, nesting] at hnesting
    split at hnesting
    · cases hnesting
    next hkinds =>
    -- no node inside has the delimiter, so that all of them are closed on the way
    have hclosed : ∀ k, k ∈ Kind.quoted :: kinds → k.closer? ≠ some d := by
      intro k hk
      rcases List.mem_cons.1 hk with rfl | hk
      · exact fun h => by cases h
      · simpa using List.dropWhile_eq_nil_iff.1 hkinds k hk
    split at hnesting
    · next houtside =>
      obtain ⟨f, hf, hclosing⟩ := h.exists_closing start
      refine ⟨d, rfl, houtside, f, hf, ?_⟩
      have hself : Within base rest [] ({ b with top := f, below := rest } : Builder).frames :=
        ⟨[], [], f, rfl, rfl, fun q hq => absurd hq List.not_mem_nil, hf⟩
      rw [Builder.place.eq_def, Builder.place.eq_def]
      simp only [hshape]
      rw [h.closes_eq d, hself.closes_eq d, houtside, Bool.or_true, Bool.or_true, if_pos rfl,
        if_pos rfl, hclosing.unwindTo_eq hclosed]
    · cases hnesting
  | _ =>
    rw [hshape] at hnesting
    cases hnesting

end Within

end Builder

end Typeahead
