import Typeahead.Cursor.Basic
import Typeahead.Proofs.Insertion

/-!
# The placeholder

A host that completes inside a text puts the placeholder in where the cursor is,
so that the cursor has a token of its own, and takes it out again to learn what
was typed. Taking out finds the inserted copy and no other: the placeholder has
no *border*, no part at its end that it also begins with, so two copies of it
never overlap.

* `removeText_append`: a text without borders is taken out where it was put in;
* `Cursor.inSource_placeholder`: the cursor in a text without the placeholder is
  in the only token over it, and what was typed is the rest of that token.
-/

namespace Typeahead

/-! ### Taking a text out -/

/-- No part at the end of the text, the whole apart, is also at its beginning. -/
def Unbordered (p : List Char) : Prop := ∀ k < p.length, 0 < k → ¬ p.drop k <+: p

instance (p : List Char) : Decidable (Unbordered p) :=
  inferInstanceAs (Decidable (∀ k < p.length, 0 < k → ¬ p.drop k <+: p))

theorem containsText_iff {part cs : List Char} : containsText part cs = true ↔ part <:+: cs := by
  induction cs with
  | nil => simp [containsText]
  | cons c cs ih => rw [containsText, Bool.or_eq_true, List.isPrefixOf_iff_prefix, ih,
      List.infix_cons_iff]

theorem removeFrom_eq_drop (part : List Char) (skip : Nat) (cs : List Char) :
    removeFrom part skip cs = removeText part (cs.drop skip) := by
  induction cs generalizing skip with
  | nil => simp [removeFrom, removeText]
  | cons c cs ih =>
    cases skip with
    | zero => rfl
    | succ skip => rw [removeFrom, ih, List.drop_succ_cons]

/-- Nothing is taken out of a text that begins otherwise. -/
theorem removeText_cons {part : List Char} {c : Char} {cs : List Char}
    (h : ¬ part <+: c :: cs) : removeText part (c :: cs) = c :: removeText part cs := by
  have hnot : part.isPrefixOf (c :: cs) = false := by
    rw [Bool.eq_false_iff, ne_eq, List.isPrefixOf_iff_prefix]
    exact h
  rw [removeText, removeFrom, hnot, Bool.and_false, if_neg Bool.false_ne_true, removeText]

theorem removeText_of_not_infix {part cs : List Char} (h : ¬ part <:+: cs) :
    removeText part cs = cs := by
  induction cs with
  | nil => rfl
  | cons c cs ih =>
    rw [List.infix_cons_iff, not_or] at h
    rw [removeText_cons h.1, ih h.2]

theorem removeText_self_append {p : List Char} (hp : p ≠ []) (cs : List Char) :
    removeText p (p ++ cs) = removeText p cs := by
  obtain ⟨c, q, rfl⟩ := List.exists_cons_of_ne_nil hp
  have hprefix : (c :: q).isPrefixOf (c :: (q ++ cs)) = true := by
    rw [List.isPrefixOf_iff_prefix]
    exact ⟨cs, rfl⟩
  rw [List.cons_append, removeText, removeFrom, hprefix]
  simp [removeFrom_eq_drop]

/-- A text without borders does not begin before the place where it was put in,
    unless it was there before. -/
theorem not_prefix_append {p x : List Char} (hp : Unbordered p) (hx : x ≠ [])
    (hnot : ¬ p <+: x) (y : List Char) : ¬ p <+: x ++ (p ++ y) := by
  intro h
  rcases List.prefix_or_prefix_of_prefix h (List.prefix_append x (p ++ y)) with hshort | ⟨q, hq⟩
  · exact hnot hshort
  -- the part `q` of `p` past `x` is at the end of `p` and at the beginning of its copy
  have hqp : q <+: p := by
    rw [← hq, List.prefix_append_right_inj, hq] at h
    exact List.prefix_of_prefix_length_le h (List.prefix_append p y) (by simp [← hq])
  have hlt : x.length < p.length := by
    rcases Nat.lt_or_ge x.length p.length with hlt | hge
    · exact hlt
    · refine absurd ⟨[], ?_⟩ hnot
      have hnil : q = [] := List.length_eq_zero_iff.1 (by
        rw [← hq, List.length_append] at hge
        omega)
      rw [← hq, hnil, List.append_nil, List.append_nil]
  refine hp x.length hlt (List.length_pos_iff.2 hx) ?_
  rw [← hq, List.drop_left, hq]
  exact hqp

/-- A text without borders is taken out where it was put in. -/
theorem removeText_append {p x y : List Char} (hp : Unbordered p) (hne : p ≠ [])
    (hx : ¬ p <:+: x) (hy : ¬ p <:+: y) : removeText p (x ++ (p ++ y)) = x ++ y := by
  induction x with
  | nil => rw [List.nil_append, removeText_self_append hne, removeText_of_not_infix hy]; rfl
  | cons c x ih =>
    rw [List.infix_cons_iff, not_or] at hx
    have hnot := not_prefix_append hp (List.cons_ne_nil c x) hx.1 y
    rw [List.cons_append] at hnot ⊢
    rw [removeText_cons hnot, ih hx.2, List.cons_append]

theorem trim_of_not_blank {cs : List Char} (h : ∀ c ∈ cs, isBlank c = false) : trim cs = cs := by
  have hstart : ∀ {s : List Char}, (∀ c ∈ s, isBlank c = false) → trimStart s = s := by
    intro s hs
    cases s with
    | nil => rfl
    | cons c s => rw [trimStart, List.dropWhile_cons, hs c List.mem_cons_self]; rfl
  rw [trim, hstart h, hstart fun c hc => h c (List.mem_reverse.1 hc), List.reverse_reverse]

/-! ### The cursor at the placeholder -/

namespace Config

/-- The placeholder can be put in anywhere and taken out again. -/
structure Insertable (config : Config) : Prop where
  ordinary : ∀ c ∈ config.placeholder.toList, isOrdinary c = true
  ne_nil : config.placeholder.toList ≠ []
  unbordered : Unbordered config.placeholder.toList

theorem insertable_of_placeholder_eq {config : Config}
    (h : config.placeholder = ({} : Config).placeholder) : config.Insertable := by
  have hordinary : ({} : Config).placeholder.toList.all isOrdinary = true := by decide
  refine ⟨?_, ?_, ?_⟩
  · rw [h]
    exact List.all_eq_true.1 hordinary
  · rw [h]
    decide
  · rw [h]
    decide

/-- A word is left as it was before the placeholder was put in. -/
theorem Insertable.stripPlaceholder_append {config : Config} (h : config.Insertable)
    {x y : List Char} (hx : ¬ config.placeholder.toList <:+: x)
    (hy : ¬ config.placeholder.toList <:+: y)
    (hword : ∀ c ∈ x ++ (config.placeholder.toList ++ y), isTerminator c = false) :
    config.stripPlaceholder (x ++ (config.placeholder.toList ++ y)) = x ++ y := by
  have hblank : ∀ c ∈ x ++ (config.placeholder.toList ++ y), isBlank c = false := by
    intro c hc
    rw [Bool.eq_false_iff]
    intro hb
    have hc := hword c hc
    rw [isTerminator_of_isBlank hb] at hc
    cases hc
  have hspace :
      ¬ config.placeholder.toList ++ [' '] <:+: x ++ (config.placeholder.toList ++ y) := by
    intro hin
    have hmem : ' ' ∈ x ++ (config.placeholder.toList ++ y) := hin.subset (by simp)
    cases hblank ' ' hmem
  rw [stripPlaceholder, removeText_of_not_infix hspace,
    removeText_append h.unbordered h.ne_nil hx hy]
  refine trim_of_not_blank fun c hc => hblank c ?_
  rcases List.mem_append.1 hc with hc | hc
  · exact List.mem_append_left _ hc
  · exact List.mem_append_right _ (List.mem_append_right _ hc)

end Config

namespace Cursor

variable {config : Config} {u v : List Char} {l : Location}

/-- The cursor at an offset is where the search for the offset ends. -/
theorem locate_eq_ok (hl : (Tree.read (u ++ v)).root.findAt (byteLength u) [] = l) :
    locate (Tree.read (u ++ v)) config (byteLength u) =
      .ok (ofLocation (Tree.read (u ++ v)) config l (byteLength u)) := by
  have hsource : (Tree.read (u ++ v)).source = u ++ v := Builder.source_reading _
  have hfind : (Tree.read (u ++ v)).findAt? (byteLength u) = some l := by
    rw [Tree.findAt?, Tree.length, hsource, byteLength_append, if_pos (Nat.le_add_right ..), hl]
  rw [locate, hsource, isBoundary, splitAtByte?_append, hfind]
  rfl

/-- The cursor at the placeholder is in the token that holds it. -/
theorem inSource_eq_ok (hl : (Tree.read (u ++ (config.placeholder.toList ++ v))).Holds u
    config.placeholder.toList v l) :
    inSource config (u ++ v) (byteLength u) =
      .ok (Tree.read (u ++ (config.placeholder.toList ++ v)),
        ofLocation (Tree.read (u ++ (config.placeholder.toList ++ v))) config l
          (byteLength u)) := by
  have hinsert : insertAt (u ++ v) (byteLength u) config.placeholder.toList =
      .ok (u ++ (config.placeholder.toList ++ v)) := by
    rw [insertAt, splitAtByte?_append, ← List.append_assoc]
  rw [inSource, hinsert]
  simp only [bind, Except.bind, locate_eq_ok hl.findAt_eq, pure, Except.pure]

/-- What was typed of the word that holds the placeholder is the word without it. -/
theorem typedOf_of_chars_eq (hp : config.Insertable) {t : Tree} {n : Node} {x y : List Char}
    (hword : n.kind.isWord = true) (hchars : t.chars n = x ++ (config.placeholder.toList ++ y))
    (hx : ¬ config.placeholder.toList <:+: x) (hy : ¬ config.placeholder.toList <:+: y)
    (hterm : ∀ c ∈ x ++ (config.placeholder.toList ++ y), isTerminator c = false) (offset : Nat) :
    typedOf t config n offset = x ++ y := by
  have hcontains : config.containsPlaceholder (t.chars n) = true := by
    rw [Config.containsPlaceholder, containsText_iff, hchars]
    exact List.infix_append' ..
  rw [typedOf, if_pos hword]
  simp only [hcontains, if_true]
  rw [hchars, hp.stripPlaceholder_append hx hy hterm]

/-- In a text without the default placeholder, at every boundary of its
    characters, the placeholder can be put in and the cursor found there. The cursor
    is in the only token over the whole placeholder: a word, a string or a comment.
    What was typed is the word as it was in the text, the characters right before
    the cursor and right after it up to the end of the word; in a string or a
    comment nothing was typed. -/
theorem inSource_placeholder {config : Config}
    (hconfig : config.placeholder = ({} : Config).placeholder) {cs : List Char}
    (hcs : config.containsPlaceholder cs = false) {offset : Nat}
    (hoffset : isBoundary cs offset = true) :
    let p := config.placeholder.toList
    ∃ (u v : List Char) (t : Tree) (c : Cursor), cs = u ++ v ∧ byteLength u = offset ∧
      t = Tree.read (u ++ (p ++ v)) ∧ inSource config cs offset = .ok (t, c) ∧
      c.offset = offset ∧ c.location ∈ t.locations ∧
      (∀ l ∈ t.locations, l.node.children = [] ∧
        l.node.span.covers ⟨offset, offset + byteLength p⟩ = true ↔ l = c.location) ∧
      c.location.node.kind ∈ [.symbol, .keyword, .number, .string, .lineComment] ∧
      if c.location.node.kind.isWord = true then
        ∃ u' x y v', u = u' ++ x ∧ v = y ++ v' ∧ c.location.node.span.start = byteLength u' ∧
          t.chars c.location.node = x ++ (p ++ y) ∧ (∀ d ∈ x ++ y, isTerminator d = false) ∧
          EndsWord v' ∧ c.typed = String.ofList (x ++ y)
      else c.typed = "" := by
  intro p
  have hp := Config.insertable_of_placeholder_eq hconfig
  obtain ⟨⟨u, v⟩, hsplit⟩ := Option.isSome_iff_exists.1 hoffset
  obtain ⟨rfl, rfl⟩ := append_of_splitAtByte? hsplit
  obtain ⟨l, hl⟩ := Tree.exists_holds_read hp.ordinary hp.ne_nil u v
  have hnot : ∀ s, s <:+: u ++ v → ¬ p <:+: s := by
    intro s hs hps
    have hcontains := containsText_iff.2 (hps.trans hs)
    rw [Config.containsPlaceholder] at hcs
    rw [hcs] at hcontains
    cases hcontains
  refine ⟨u, v, _, _, rfl, rfl, rfl, inSource_eq_ok hl, rfl, hl.mem, ?_, ?_, ?_⟩
  · intro other hother
    simp only [Span.covers, Bool.and_eq_true, decide_eq_true_eq]
    constructor
    · rintro ⟨hnil, hstart, hstop⟩
      exact hl.unique other hother hnil hstart hstop
    · rintro rfl
      exact ⟨hl.children_eq, hl.covers⟩
  · rcases hl.cases with hkind | ⟨hword, -⟩
    · exact List.mem_append_right [.symbol, .keyword, .number] hkind
    · change l.node.kind ∈ _
      revert hword
      cases l.node.kind <;> simp [Kind.isWord]
  · split
    · next hword =>
      have hword : l.node.kind.isWord = true := hword
      have hkind : l.node.kind ∉ [.string, .lineComment] := by
        revert hword
        cases l.node.kind <;> simp [Kind.isWord]
      obtain ⟨-, u', x, y, v', hu, hv, hstart, hchars, hterm, hend⟩ := hl.cases.resolve_left hkind
      have hx : ¬ p <:+: x := hnot x ⟨u', v, by rw [hu]⟩
      have hy : ¬ p <:+: y := hnot y ⟨u, v', by rw [hv, List.append_assoc]⟩
      refine ⟨u', x, y, v', hu, hv, hstart, hchars, fun d hd => hterm d ?_, hend, ?_⟩
      · rcases List.mem_append.1 hd with hd | hd
        · exact List.mem_append_left _ hd
        · exact List.mem_append_right _ (List.mem_append_right _ hd)
      · rw [ofLocation, typedOf_of_chars_eq hp hword hchars hx hy hterm]
    · next hword =>
      have hword : ¬ l.node.kind.isWord = true := hword
      rw [ofLocation, typedOf, if_neg hword]

/-- In the word after a sigil, next to a character of two bytes and before a string
    that does not end. -/
theorem inSource_placeholder_quoted :
    let cs := "('né-w \"".toList
    ({} : Config).containsPlaceholder cs = false ∧ isBoundary cs 5 = true ∧
      ∃ t c, inSource {} cs 5 = .ok (t, c) ∧ c.location ∈ t.locations ∧
        ∀ l ∈ t.locations, l.node.children = [] ∧
          l.node.span.covers ⟨5, 5 + byteLength ({} : Config).placeholder.toList⟩ = true ↔
            l = c.location := by
  intro cs
  have hcs : ({} : Config).containsPlaceholder cs = false := by decide
  have hoffset : isBoundary cs 5 = true := by decide
  obtain ⟨u, v, t, c, -, -, -, hok, -, hmem, hunique, -⟩ := inSource_placeholder rfl hcs hoffset
  exact ⟨hcs, hoffset, t, c, hok, hmem, hunique⟩

end Cursor

end Typeahead
