import Typeahead.Proofs.Characters
import Typeahead.Proofs.Pending
import Typeahead.Proofs.Surroundings
import Typeahead.Tree.Marker

/-!
# Markers in flat vectors

A flat vector has markers, plain names and plain keywords for items, with single
blanks between them. Whether an item is deactivated can be asked in two ways. The
tree asks for the run of markers right before the sequence that the item is in:
it deactivates as many items of the sequence as it has markers. The text asks
whether a marker is pending where the item starts: every marker before it is used
up by the next item.

The two agree as long as no marker of an *older* run is left when the item's own
run is used up. An older run that was longer than its sequence leaves markers
pending for the sequences after it; in the tree they are lost (`Lingers`).

* `children_root_read_vector`: the tree of a flat vector;
* `deactivates_kindsBefore`: what the tree says about an item;
* `shown_before`: what the text shows before an item;
* `isPendingAt_eq_isDeactivated_iff`: they agree unless an older marker lingers.
-/

namespace Typeahead

/-! ### Lexemes that become tokens of the innermost open node -/

/-- Whether lexemes of this shape add a token and leave the nesting as it is. -/
def Shape.isFlat : Shape → Bool
  | .blank | .comment | .marker | .atom _ => true
  | _ => false

/-- The kind of the token of a flat lexeme. -/
def Shape.flatKind (s : Shape) : Kind := s.kinds.headD .error

/-- The tokens of flat lexemes, from the offset `start` on, numbered from `id` on. -/
def flatNodes (start id : Nat) : List Lexeme → List Node
  | [] => []
  | l :: ls => ⟨id, l.shape.flatKind, ⟨start, start + byteLength l.text⟩, []⟩ ::
      flatNodes (start + byteLength l.text) (id + 1) ls

theorem flatNodes_append (start id : Nat) (ls ms : List Lexeme) :
    flatNodes start id (ls ++ ms) = flatNodes start id ls ++
      flatNodes (start + byteLength (ls.flatMap (·.text))) (id + ls.length) ms := by
  induction ls generalizing start id with
  | nil => rfl
  | cons l ls ih =>
    rw [List.cons_append, flatNodes, ih, flatNodes, List.flatMap_cons, byteLength_append,
      List.length_cons, Nat.add_assoc start, Nat.add_assoc id, Nat.add_comm 1 ls.length]
    rfl

theorem map_kind_flatNodes (start id : Nat) (ls : List Lexeme) :
    (flatNodes start id ls).map (·.kind) = ls.map (·.shape.flatKind) := by
  induction ls generalizing start id with
  | nil => rfl
  | cons l ls ih => rw [flatNodes, List.map_cons, ih, List.map_cons]

theorem lt_of_mem_flatNodes {start id : Nat} {ls : List Lexeme} {n : Node}
    (h : n ∈ flatNodes start id ls) : n.id < id + ls.length ∧ n.children = [] := by
  induction ls generalizing start id with
  | nil => exact absurd h List.not_mem_nil
  | cons l ls ih =>
    rw [List.length_cons]
    rcases List.mem_cons.1 h with rfl | h
    · exact ⟨by simp only; omega, rfl⟩
    · have h := ih h
      exact ⟨by omega, h.2⟩

namespace Builder

variable {b : Builder}

theorem place_of_isFlat {l : Lexeme} (hl : l.shape.isFlat = true) (hb : b.top.kind ≠ .quoted)
    (start : Nat) :
    b.place start l = b.token l.shape.flatKind ⟨start, start + byteLength l.text⟩ := by
  obtain ⟨shape, text⟩ := l
  cases shape with
  | blank | comment | marker => rfl
  | atom kind =>
    exact settle_of_kind_ne (b := b.token kind ⟨start, start + byteLength text⟩) hb _
  | opener kind | closer d | sigil => cases hl

/-- Flat lexemes become tokens of the innermost open node. -/
theorem placeAll_flat {ls : List Lexeme} (hls : ∀ l ∈ ls, l.shape.isFlat = true)
    (hb : b.top.kind ≠ .quoted) (start : Nat) :
    b.placeAll start ls = b.extend (flatNodes start b.next ls) (b.next + ls.length) := by
  induction ls generalizing b start with
  | nil => rfl
  | cons l ls ih =>
    have hrest := ih (b := b.token l.shape.flatKind ⟨start, start + byteLength l.text⟩)
      (fun m hm => hls m (List.mem_cons_of_mem _ hm)) hb (start + byteLength l.text)
    rw [placeAll, place_of_isFlat (hls l List.mem_cons_self) hb, hrest, extend_token, flatNodes,
      List.length_cons]
    have hnext : (b.token l.shape.flatKind ⟨start, start + byteLength l.text⟩).next + ls.length =
        b.next + (ls.length + 1) := by
      rw [token]
      simp only
      omega
    rw [hnext]
    rfl

end Builder

/-- The brackets of a vector. -/
def openBracket : Lexeme := ⟨.opener .vector, ['[']⟩
def closeBracket : Lexeme := ⟨.closer ']', [']']⟩

/-- The node of a vector of flat lexemes at the start of a text. -/
def flatVector (ls : List Lexeme) : Node :=
  let stop := 1 + byteLength (ls.flatMap (·.text))
  ⟨1, .vector, ⟨0, stop + 1⟩, ⟨2, .openDelim, ⟨0, 1⟩, []⟩ ::
    (flatNodes 1 3 ls ++ [⟨3 + ls.length, .closeDelim, ⟨stop, stop + 1⟩, []⟩])⟩

/-- The tree of a vector of flat lexemes. -/
theorem Tree.children_root_read_vector {cs : List Char} {ls : List Lexeme}
    (hlex : lex cs = openBracket :: (ls ++ [closeBracket]))
    (hls : ∀ l ∈ ls, l.shape.isFlat = true) :
    (Tree.read cs).root.children = [flatVector ls] := by
  have hopen : (Builder.new cs).place 0 openBracket =
      ((Builder.new cs).start .vector 0).extend [⟨2, .openDelim, ⟨0, 1⟩, []⟩] 3 := rfl
  have hkind : (((Builder.new cs).start .vector 0).extend
      [⟨2, .openDelim, ⟨0, 1⟩, []⟩] 3).top.kind ≠ .quoted := by
    intro h
    cases h
  have hroot :
      ((Builder.new cs).extend [flatVector ls] (3 + ls.length + 1)).top.kind ≠ .quoted := by
    intro h
    cases h
  have hcloser : Kind.closer? .vector = some ']' := rfl
  have hreading : (Builder.new cs).placeAll 0 (lex cs) =
      (Builder.new cs).extend [flatVector ls] (3 + ls.length + 1) := by
    rw [hlex, Builder.placeAll, hopen, Builder.placeAll_append, Builder.placeAll_flat hls hkind,
      Builder.extend_extend, Builder.placeAll, closeBracket,
      Builder.place_closer_extend_start _ _ hcloser]
    exact Builder.settle_of_kind_ne hroot _
  have hread : Tree.read cs = ((Builder.new cs).placeAll 0 (lex cs)).toTree := rfl
  rw [hread, hreading]
  rfl

/-! ### Items -/

/-- Whether `c` may stand in a plain name. -/
def isPlain (c : Char) : Bool := isAsciiLetter c || isDigit c || c == '-'

/-- A letter followed by letters, digits and hyphens, all of them ASCII. -/
structure PlainName where
  first : Char
  rest : List Char
  isAsciiLetter_first : isAsciiLetter first = true
  isPlain_rest : rest.all isPlain = true

def PlainName.chars (n : PlainName) : List Char := n.first :: n.rest

theorem PlainName.isPlain_of_mem_rest (n : PlainName) {c : Char} (h : c ∈ n.rest) :
    isPlain c = true :=
  List.all_eq_true.1 n.isPlain_rest c h

/-- An item of a flat vector. -/
inductive VectorItem
  | marker
  | name (n : PlainName)
  | keyword (n : PlainName)

namespace VectorItem

def text : VectorItem → List Char
  | marker => ['#', '_']
  | name n => n.chars
  | keyword n => ':' :: n.chars

def isMarker : VectorItem → Bool
  | marker => true
  | name _ | keyword _ => false

/-- The kind of the token of an item. -/
def kind : VectorItem → Kind
  | marker => .formComment
  | name _ => .symbol
  | keyword _ => .keyword

def lexeme : VectorItem → Lexeme
  | marker => ⟨.marker, ['#', '_']⟩
  | name n => ⟨.atom .symbol, n.chars⟩
  | keyword n => ⟨.atom .keyword, ':' :: n.chars⟩

/-- The text of a flat vector. -/
def render (items : List VectorItem) : List Char :=
  '[' :: [' '].intercalate (items.map text) ++ [']']

/-- The text between the bracket and an item after the items `pre`. -/
def before (pre : List VectorItem) : List Char := pre.flatMap fun i => i.text ++ [' ']

/-- The text between an item and the bracket, with the items `post` in it. -/
def after (post : List VectorItem) : List Char := post.flatMap fun i => ' ' :: i.text

/-- The offset of an item after the items `pre`. -/
def offset (pre : List VectorItem) : Nat := byteLength ('[' :: before pre)

theorem render_append_cons (pre post : List VectorItem) (x : VectorItem) :
    render (pre ++ x :: post) = '[' :: before pre ++ (x.text ++ (after post ++ [']'])) := by
  have hpost : ∀ x : VectorItem,
      [' '].intercalate ((x :: post).map text) = x.text ++ after post := by
    induction post with
    | nil => simp [after]
    | cons y post ih =>
      intro x
      rw [List.map_cons, List.map_cons, List.intercalate_cons_cons, ← List.map_cons, ih y]
      simp [after]
  have hpre : [' '].intercalate ((pre ++ x :: post).map text) =
      before pre ++ (x.text ++ after post) := by
    induction pre with
    | nil => exact hpost x
    | cons y pre ih =>
      rw [List.cons_append, List.map_cons, List.intercalate_cons_of_ne_nil (by simp), ih]
      simp [before]
  rw [render, hpre]
  simp

end VectorItem

/-! ### Characters of items -/

theorem toNat_lt_of_isPlain {c : Char} (h : isPlain c = true) : c.toNat < 128 := by
  have hdigit : isDigit c = true → c.toNat < 128 := by
    intro hc
    have hnat : 48 ≤ c.toNat ∧ c.toNat ≤ 57 := by
      simp only [isDigit, Bool.and_eq_true, decide_eq_true_eq] at hc
      exact hc
    omega
  simp only [isPlain, Bool.or_eq_true, beq_iff_eq] at h
  rcases h with (h | h) | rfl
  · exact toNat_lt_of_isAsciiLetter h
  · exact hdigit h
  · decide

/-- Plain characters end no word and are part of names. -/
theorem of_isPlain {c : Char} (h : isPlain c = true) :
    isTerminator c = false ∧ isNameChar c = true := by
  have hP := of_lt_ascii (P := fun c => !isPlain c || (!isTerminator c && isNameChar c))
    (by decide +kernel) (toNat_lt_of_isPlain h)
  simp only [h, Bool.not_true, Bool.false_or, Bool.and_eq_true, Bool.not_eq_true'] at hP
  exact hP

namespace VectorItem

theorem beginsDark_text_append (i : VectorItem) (rest : List Char) :
    BeginsDark (i.text ++ rest) := by
  cases i with
  | marker | keyword n => exact beginsDark_cons (by decide) _
  | name n =>
    have hfirst := startsWord_of_isOrdinary (of_isAsciiLetter n.isAsciiLetter_first).1
    exact beginsDark_cons (isBlank_of_startsWord hfirst) _

/-- An item is a lexeme, if what follows ends words. -/
theorem lex_text_append (i : VectorItem) {rest : List Char} (h : EndsWord rest) :
    lex (i.text ++ rest) = i.lexeme :: lex rest := by
  cases i with
  | marker => exact lex_cons rfl
  | name n =>
    obtain ⟨hword, hkind⟩ := of_isAsciiLetter n.isAsciiLetter_first
    have hrest : ∀ x ∈ n.rest, isTerminator x = false :=
      fun x hx => (of_isPlain (n.isPlain_of_mem_rest hx)).1
    refine lex_cons ?_
    rw [nextLexeme_of_startsWord (startsWord_of_isOrdinary hword)]
    rw [List.append_eq, atom_append_of_endsWord hrest h, hkind]
    rfl
  | keyword n =>
    have hrest : ∀ x ∈ n.chars, isTerminator x = false := by
      intro x hx
      rcases List.mem_cons.1 hx with rfl | hx
      · exact isTerminator_of_isOrdinary (of_isAsciiLetter n.isAsciiLetter_first).1
      · exact (of_isPlain (n.isPlain_of_mem_rest hx)).1
    refine lex_cons ?_
    rw [nextLexeme_of_startsWord (by decide)]
    rw [List.append_eq, atom_append_of_endsWord hrest h]
    rfl

/-- The lexemes of the items `pre` and of the blanks after them. -/
def lexemesBefore (pre : List VectorItem) : List Lexeme :=
  pre.flatMap fun i => [i.lexeme, ⟨.blank, [' ']⟩]

/-- The lexemes of the items `post` and of the blanks before them. -/
def lexemesAfter (post : List VectorItem) : List Lexeme :=
  post.flatMap fun i => [⟨.blank, [' ']⟩, i.lexeme]

theorem lex_before_append (pre : List VectorItem) {rest : List Char} (h : BeginsDark rest) :
    lex (before pre ++ rest) = lexemesBefore pre ++ lex rest := by
  induction pre with
  | nil => rfl
  | cons i pre ih =>
    have hdark : BeginsDark (before pre ++ rest) := by
      cases pre with
      | nil => exact h
      | cons j pre =>
        have htext : before (j :: pre) ++ rest = j.text ++ ' ' :: (before pre ++ rest) := by
          simp [before]
        rw [htext]
        exact beginsDark_text_append j _
    have hblank : EndsWord (' ' :: (before pre ++ rest)) := endsWord_cons (by decide) _
    have htext : before (i :: pre) ++ rest = i.text ++ ' ' :: (before pre ++ rest) := by
      simp [before]
    rw [htext, lex_text_append i hblank, lex_blank (by decide) hdark, ih]
    rfl

theorem endsWord_after (post : List VectorItem) : EndsWord (after post ++ [']']) := by
  cases post with
  | nil => exact endsWord_cons (by decide) _
  | cons i post => exact endsWord_cons (by decide) _

theorem lex_after (post : List VectorItem) :
    lex (after post ++ [']']) = lexemesAfter post ++ [closeBracket] := by
  induction post with
  | nil =>
    have hnext : nextLexeme ']' [] = (closeBracket, []) := rfl
    rw [after, List.flatMap_nil, List.nil_append, lex_cons hnext, lex]
    rfl
  | cons i post ih =>
    have htext : after (i :: post) ++ [']'] = ' ' :: (i.text ++ (after post ++ [']'])) := by
      simp [after]
    rw [htext, lex_blank (by decide) (beginsDark_text_append i _),
      lex_text_append i (endsWord_after post), ih]
    rfl

theorem lex_render (pre post : List VectorItem) (x : VectorItem) :
    lex (render (pre ++ x :: post)) =
      openBracket :: (lexemesBefore pre ++ x.lexeme :: lexemesAfter post ++ [closeBracket]) := by
  have hnext : ∀ cs, nextLexeme '[' cs = (openBracket, cs) := fun _ => rfl
  rw [render_append_cons, List.cons_append, lex_cons (hnext _),
    lex_before_append pre (beginsDark_text_append x _), lex_text_append x (endsWord_after post),
    lex_after, List.append_assoc, List.cons_append]

theorem isFlat_lexeme (i : VectorItem) : i.lexeme.shape.isFlat = true := by
  cases i <;> rfl

theorem text_lexeme (i : VectorItem) : i.lexeme.text = i.text := by
  cases i <;> rfl

theorem flatKind_lexeme (i : VectorItem) : i.lexeme.shape.flatKind = i.kind := by
  cases i <;> rfl

theorem isFlat_of_mem {pre post : List VectorItem} {x : VectorItem} :
    ∀ l ∈ lexemesBefore pre ++ x.lexeme :: lexemesAfter post, l.shape.isFlat = true := by
  intro l hl
  simp only [lexemesBefore, lexemesAfter, List.mem_append, List.mem_cons, List.mem_flatMap,
    List.not_mem_nil, or_false] at hl
  rcases hl with ⟨i, -, rfl | rfl⟩ | rfl | ⟨i, -, rfl | rfl⟩
  · exact isFlat_lexeme i
  · rfl
  · exact isFlat_lexeme x
  · rfl
  · exact isFlat_lexeme i

theorem flatMap_text_lexemesBefore (pre : List VectorItem) :
    (lexemesBefore pre).flatMap (·.text) = before pre := by
  induction pre with
  | nil => rfl
  | cons i pre ih =>
    have hcons : lexemesBefore (i :: pre) = i.lexeme :: ⟨.blank, [' ']⟩ :: lexemesBefore pre := rfl
    rw [hcons, List.flatMap_cons, List.flatMap_cons, ih, text_lexeme]
    simp [before]

/-! ### What the tree says -/

/-- The number of items after the last run of markers. -/
def ownNames (pre : List VectorItem) : Nat := (pre.reverse.takeWhile (!·.isMarker)).length

/-- The number of markers in the last run of markers. -/
def ownRun (pre : List VectorItem) : Nat :=
  ((pre.reverse.dropWhile (!·.isMarker)).takeWhile (·.isMarker)).length

/-- The items before the last run of markers. -/
def older (pre : List VectorItem) : List VectorItem :=
  ((pre.reverse.dropWhile (!·.isMarker)).dropWhile (·.isMarker)).reverse

/-- The kinds of the nodes before an item, nearest first, given the items before
    it, nearest first. -/
def kindsBefore (rs : List VectorItem) : List Kind :=
  rs.flatMap (fun i => [.whitespace, i.kind]) ++ [.openDelim]

theorem continuesSequence_kind (i : VectorItem) : continuesSequence i.kind = !i.isMarker := by
  cases i <;> rfl

theorem markersBefore_kindsBefore (rs : List VectorItem) :
    markersBefore (kindsBefore rs) =
      ((rs.dropWhile (!·.isMarker)).takeWhile (·.isMarker)).length := by
  -- a run of markers, with the blanks between them
  have hrun : ∀ rs : List VectorItem, ((kindsBefore rs).filter (· != .whitespace)).takeWhile
      (· == .formComment) = (rs.takeWhile (·.isMarker)).map kind := by
    intro rs
    induction rs with
    | nil => rfl
    | cons i rs ih =>
      have hcons : kindsBefore (i :: rs) = .whitespace :: i.kind :: kindsBefore rs := rfl
      rw [hcons]
      cases i with
      | marker => simpa [kind, isMarker] using ih
      | name n | keyword n => simp [kind, isMarker]
  rw [markersBefore]
  induction rs with
  | nil => rfl
  | cons i rs ih =>
    have hcons : kindsBefore (i :: rs) = .whitespace :: i.kind :: kindsBefore rs := rfl
    have hblank : continuesSequence .whitespace = true := rfl
    rw [hcons, List.dropWhile_cons, hblank, if_pos rfl, List.dropWhile_cons, List.dropWhile_cons,
      continuesSequence_kind]
    cases hi : i.isMarker with
    | false => simpa using ih
    | true =>
      have h : ((i.kind :: kindsBefore rs).filter (· != .whitespace)).takeWhile
          (· == .formComment) = ((i :: rs).takeWhile (·.isMarker)).map kind := hrun (i :: rs)
      rw [Bool.not_true, if_neg Bool.false_ne_true, if_neg Bool.false_ne_true, h, List.length_map]

theorem sequenceOrdinal_kindsBefore (rs : List VectorItem) {k : Kind} (hk : k.isForm = true) :
    sequenceOrdinal (kindsBefore rs) k = (rs.takeWhile (!·.isMarker)).length + 1 := by
  rw [sequenceOrdinal, if_pos hk]
  congr 1
  induction rs with
  | nil => rfl
  | cons i rs ih =>
    have hcons : kindsBefore (i :: rs) = .whitespace :: i.kind :: kindsBefore rs := rfl
    have hblank : continuesSequence .whitespace = true := rfl
    rw [hcons, List.takeWhile_cons, hblank, if_pos rfl, List.takeWhile_cons, List.takeWhile_cons,
      continuesSequence_kind]
    cases i with
    | marker => rfl
    | name n | keyword n =>
      simp only [isMarker, Bool.not_false, if_true, List.countP_cons, List.length_cons, kind]
      rw [ih]
      rfl

/-- The tree deactivates an item if there are fewer items in its sequence before it
    than markers in its own run. -/
theorem deactivates_kindsBefore (pre : List VectorItem) {k : Kind} (hk : k.isForm = true) :
    deactivates (kindsBefore pre.reverse) k = decide (ownNames pre < ownRun pre) := by
  rw [deactivates, markersBefore_kindsBefore, sequenceOrdinal_kindsBefore _ hk, ownNames, ownRun]
  rw [Bool.eq_iff_iff, Bool.and_eq_true, decide_eq_true_eq, decide_eq_true_eq, decide_eq_true_eq]
  omega

/-! ### What the text says -/

theorem scanMarkers_blank (inWord : Bool) (start : Nat) (b : List Char) :
    scanMarkers inWord start (' ' :: b) = scanMarkers false (start + 1) b := by
  have hblank : isNameChar ' ' = false := by decide
  rw [scanMarkers, hblank, Bool.and_false]
  rfl

/-- A name or a keyword goes on up to the blank. -/
theorem scanMarkers_chars_append (n : PlainName) (start : Nat) (b : List Char) :
    scanMarkers true start (n.rest ++ ' ' :: b) =
      scanMarkers false (start + byteLength (n.rest ++ [' '])) b := by
  rw [scanMarkers_append_of_isNameChar fun c hc => (of_isPlain (n.isPlain_of_mem_rest hc)).2,
    scanMarkers_blank, byteLength_append, Nat.add_assoc]
  rfl

/-- A scan shows an item and goes on after the blank. -/
theorem scanMarkers_text_append (i : VectorItem) (start : Nat) (b : List Char) :
    scanMarkers false start (i.text ++ ' ' :: b) =
      (start, i.isMarker) :: scanMarkers false (start + byteLength (i.text ++ [' '])) b := by
  cases i with
  | marker =>
    rw [text, settled_marker, scanMarkers_blank]
    rfl
  | name n =>
    have hfirst := n.isAsciiLetter_first
    have hsign : (n.first == '#') = false := by
      rw [beq_eq_false_iff_ne]
      rintro h
      rw [h] at hfirst
      cases hfirst
    rw [text, PlainName.chars, List.cons_append, scanMarkers, Bool.false_and,
      if_neg Bool.false_ne_true, hsign, Bool.false_and, if_neg Bool.false_ne_true, hfirst,
      Bool.true_or, if_pos rfl, scanMarkers_chars_append, List.cons_append, byteLength_cons,
      Nat.add_assoc]
    rfl
  | keyword n =>
    have hfirst := isNameChar_of_isAsciiLetter n.isAsciiLetter_first
    have hname : (isAsciiLetter ':' || (':' == ':' &&
        (n.chars ++ ' ' :: b).head?.any isNameChar)) = true := by
      rw [PlainName.chars, List.cons_append, List.head?_cons, Option.any_some, hfirst]
      rfl
    rw [text, List.cons_append, scanMarkers, Bool.false_and, if_neg Bool.false_ne_true, if_neg,
      if_pos hname, PlainName.chars, List.cons_append, scanMarkers, hfirst, Bool.and_self,
      if_pos rfl, scanMarkers_chars_append, List.cons_append, List.cons_append, byteLength_cons,
      byteLength_cons, Nat.add_assoc, Nat.add_assoc]
    · rfl
    · intro h
      cases h

/-- A scan up to an item shows the items before it. -/
theorem shown_before (pre : List VectorItem) : shown ('[' :: before pre) = pre.map isMarker := by
  have hbefore : ∀ start, (scanMarkers false start (before pre)).map Prod.snd =
      pre.map isMarker := by
    induction pre with
    | nil => exact fun _ => rfl
    | cons i pre ih =>
      intro start
      have htext : before (i :: pre) = i.text ++ ' ' :: before pre := by simp [before]
      rw [htext, scanMarkers_text_append, List.map_cons, ih, List.map_cons]
  exact hbefore _

theorem settled_before (pre : List VectorItem) (b : List Char) : Settled ('[' :: before pre) b := by
  rcases List.eq_nil_or_concat pre with rfl | ⟨pre, i, rfl⟩
  · refine settled_singleton (by decide) ?_ ?_
    · intro h
      cases h
    · intro h
      cases h
  · have hblank : Settled [' '] b := by
      refine settled_singleton (by decide) ?_ ?_
      · intro h
        cases h
      · intro h
        cases h
    have htext : '[' :: before (pre ++ [i]) = '[' :: before pre ++ i.text ++ [' '] := by
      simp [before]
    rw [List.concat_eq_append, htext]
    exact hblank.append_left (List.cons_ne_nil _ _) _

theorem beginsName_text_append {x : VectorItem} (hx : x.isMarker = false) (rest : List Char) :
    beginsName (x.text ++ rest) = true := by
  cases x with
  | marker => cases hx
  | name n =>
    rw [text, PlainName.chars, List.cons_append, beginsName, n.isAsciiLetter_first, Bool.true_or]
  | keyword n =>
    rw [text, PlainName.chars, List.cons_append, List.cons_append, beginsName, List.head?_cons,
      Option.any_some, isNameChar_of_isAsciiLetter n.isAsciiLetter_first]
    rfl

/-- The text deactivates an item if a marker before it is left. -/
theorem isPendingAt_render (pre post : List VectorItem) {x : VectorItem} (hx : x.isMarker = false) :
    isPendingAt (render (pre ++ x :: post)) (offset pre) =
      decide (0 < unspent 0 (pre.map isMarker)) := by
  rw [render_append_cons, offset, isPendingAt_append (settled_before pre _),
    beginsName_text_append hx, Bool.true_and, shown_before]

/-- Whether a marker of an older run is left when the own run of an item after the
    items `pre` is used up. -/
def Lingers (pre : List VectorItem) : Prop :=
  ownRun pre ≤ ownNames pre ∧ ownNames pre < unspent 0 ((older pre).map isMarker) + ownRun pre

instance (pre : List VectorItem) : Decidable (Lingers pre) :=
  inferInstanceAs (Decidable (_ ∧ _))

/-- An own run adds its markers to those left of older ones, and the items after it
    use them up. -/
theorem unspent_items (pre : List VectorItem) :
    unspent 0 (pre.map isMarker) =
      unspent 0 ((older pre).map isMarker) + ownRun pre - ownNames pre := by
  have hnames : (pre.reverse.takeWhile (!·.isMarker)).reverse.map isMarker =
      List.replicate (ownNames pre) false := by
    rw [List.eq_replicate_iff, List.length_map, List.length_reverse]
    refine ⟨rfl, fun m hm => ?_⟩
    obtain ⟨i, hi, rfl⟩ := List.mem_map.1 hm
    simpa using List.mem_takeWhile_imp (List.mem_reverse.1 hi)
  have hrun : ((pre.reverse.dropWhile (!·.isMarker)).takeWhile (·.isMarker)).reverse.map isMarker =
      List.replicate (ownRun pre) true := by
    rw [List.eq_replicate_iff, List.length_map, List.length_reverse]
    refine ⟨rfl, fun m hm => ?_⟩
    obtain ⟨i, hi, rfl⟩ := List.mem_map.1 hm
    simpa using List.mem_takeWhile_imp (List.mem_reverse.1 hi)
  have hpre : pre = older pre ++
      (((pre.reverse.dropWhile (!·.isMarker)).takeWhile (·.isMarker)).reverse ++
        (pre.reverse.takeWhile (!·.isMarker)).reverse) := by
    rw [older, ← List.reverse_append, ← List.reverse_append, List.append_assoc,
      List.takeWhile_append_dropWhile, List.takeWhile_append_dropWhile, List.reverse_reverse]
  calc unspent 0 (pre.map isMarker)
    _ = unspent 0 ((older pre).map isMarker ++
        (List.replicate (ownRun pre) true ++ List.replicate (ownNames pre) false)) := by
      rw [← hrun, ← hnames, ← List.map_append, ← List.map_append, ← hpre]
    _ = unspent 0 ((older pre).map isMarker) + ownRun pre - ownNames pre := by
      rw [unspent_append, unspent_append, unspent_replicate_true, unspent_replicate_false]

/-! ### The node of an item -/

theorem map_flatKind_lexemesBefore (pre : List VectorItem) :
    ((lexemesBefore pre).map (·.shape.flatKind)).reverse ++ [.openDelim] =
      kindsBefore pre.reverse := by
  have hitem : (List.reverse ∘
      fun i : VectorItem => [i.lexeme, ⟨.blank, [' ']⟩].map (·.shape.flatKind)) =
      fun i => [.whitespace, i.kind] := by
    funext i
    simp only [Function.comp_apply, List.map_cons, List.map_nil, flatKind_lexeme]
    rfl
  rw [kindsBefore, lexemesBefore, List.map_flatMap, List.reverse_flatMap, hitem]

end VectorItem

namespace Tree

variable {cs : List Char} {before after : List Lexeme} {l : Lexeme}

/-- The child of a flat vector for one of its lexemes. -/
theorem exists_child_flatVector (before after : List Lexeme) (l : Lexeme) :
    ∃ n post, (flatVector (before ++ l :: after)).children =
        ⟨2, .openDelim, ⟨0, 1⟩, []⟩ :: flatNodes 1 3 before ++ n :: post ∧
      n.kind = l.shape.flatKind ∧ n.children = [] ∧
      n.span = ⟨1 + byteLength (before.flatMap (·.text)),
        1 + byteLength (before.flatMap (·.text)) + byteLength l.text⟩ ∧
      ∀ m ∈ (⟨2, .openDelim, ⟨0, 1⟩, []⟩ :: flatNodes 1 3 before : List Node), m.id ≠ n.id := by
  obtain ⟨close, hclose⟩ : ∃ close, (flatVector (before ++ l :: after)).children =
      ⟨2, .openDelim, ⟨0, 1⟩, []⟩ :: (flatNodes 1 3 (before ++ l :: after) ++ [close]) := ⟨_, rfl⟩
  have hnodes := flatNodes_append 1 3 before (l :: after)
  rw [flatNodes] at hnodes
  rw [hnodes, List.append_assoc, List.cons_append, ← List.cons_append] at hclose
  refine ⟨_, _, hclose, rfl, rfl, rfl, ?_⟩
  intro m hm
  rcases List.mem_cons.1 hm with rfl | hm
  · exact Nat.ne_of_lt (by simp only; omega)
  · exact Nat.ne_of_lt (lt_of_mem_flatNodes hm).1

theorem mem_locations_of_mem_flatVector {ls : List Lexeme}
    (hroot : (Tree.read cs).root.children = [flatVector ls]) {n : Node}
    (hn : n ∈ (flatVector ls).children) :
    ⟨n, [flatVector ls, (Tree.read cs).root]⟩ ∈ (Tree.read cs).locations := by
  have hself : ⟨(Tree.read cs).root, []⟩ ∈ (Tree.read cs).locations := by
    rw [locations_eq]
    exact List.mem_cons_self
  have hvector : flatVector ls ∈ (Tree.read cs).root.children := by simp [hroot]
  have hv := children_subset_locations hself (List.mem_map.2 ⟨_, hvector, rfl⟩)
  exact children_subset_locations hv (List.mem_map.2 ⟨n, hn, rfl⟩)

/-- The nodes of a flat vector are the root, the vector and tokens. -/
theorem cases_of_mem_locations {ls : List Lexeme}
    (hroot : (Tree.read cs).root.children = [flatVector ls]) {other : Location}
    (h : other ∈ (Tree.read cs).locations) :
    other.node.kind.isForm = false ∨ other.node.span.start = 0 ∨ other.node.children = [] := by
  rw [locations_eq, hroot] at h
  rcases List.mem_cons.1 h with rfl | h
  · have hkind : (Tree.read cs).root.kind = .root := (Builder.waiting_reading cs).closable.toTree.1
    exact .inl (by rw [hkind]; rfl)
  obtain ⟨v, hv, h⟩ := Node.mem_locationsAll.1 h
  rw [List.mem_singleton.1 hv, Node.locations_eq] at h
  rcases List.mem_cons.1 h with rfl | h
  · exact .inr (.inl rfl)
  · refine .inr (.inr ?_)
    obtain ⟨c, hc, h⟩ := Node.mem_locationsAll.1 h
    have hnil : c.children = [] := by
      rcases List.mem_cons.1 hc with rfl | hc
      · rfl
      rcases List.mem_append.1 hc with hc | hc
      · exact (lt_of_mem_flatNodes hc).2
      · rw [List.mem_singleton.1 hc]
    rw [Node.locations_eq, hnil, Node.locationsAll] at h
    rw [List.mem_singleton.1 h]
    exact hnil

/-- The token of a lexeme in a flat vector: its kind, its span, the kinds of the
    siblings before it, nearest first, and that it is the only form there. -/
theorem exists_location_of_lex
    (hlex : lex cs = openBracket :: (before ++ l :: after ++ [closeBracket]))
    (hflat : ∀ m ∈ before ++ l :: after, m.shape.isFlat = true) :
    ∃ loc ∈ (Tree.read cs).locations, loc.node.kind = l.shape.flatKind ∧
      loc.node.span.start = 1 + byteLength (before.flatMap (·.text)) ∧
      (Tree.read cs).chars loc.node = l.text ∧
      loc.before.map (·.kind) = (before.map (·.shape.flatKind)).reverse ++ [.openDelim] ∧
      ∀ other ∈ (Tree.read cs).locations, other.node.kind.isForm = true →
        other.node.span.start = loc.node.span.start → other = loc := by
  have hroot := children_root_read_vector hlex hflat
  have hlex' : lex cs = (openBracket :: before) ++ l :: (after ++ [closeBracket]) := by
    rw [hlex, List.append_assoc]
    rfl
  obtain ⟨as, leaf, bs, hsplits⟩ := exists_splits hlex'
  have hleaf : leaf ∈ (Tree.read cs).leaves := by simp [hsplits.leaves_eq]
  obtain ⟨loc, hbelow, hnode, -⟩ := exists_below_of_mem_leaves hleaf
  have hloc := mem_locations_of_below hbelow
  have hstart : leaf.node.span.start = 1 + byteLength (before.flatMap (·.text)) := by
    rw [hsplits.isToken.span_eq, List.flatMap_cons, byteLength_append]
    rfl
  have hcs : cs ≠ [] := by
    rintro rfl
    simp [lex] at hlex
  have hlt := lt_stop_read hcs
  have hleaflt : leaf.node.span.start < leaf.node.span.stop :=
    hnode ▸ hlt _ (mem_nodes_of_mem_locations hloc)
  -- the token is the child of the vector in its place
  obtain ⟨n, post, hchildren, hkind, hnil, hspan, hids⟩ := exists_child_flatVector before after l
  have hchild : ⟨n, [flatVector (before ++ l :: after), (Tree.read cs).root]⟩ = loc := by
    have hmem := mem_locations_of_mem_flatVector hroot (n := n) (by simp [hchildren])
    refine hsplits.eq_of_covers hloc hnode hmem hnil hleaflt (Nat.le_refl _) (Nat.le_refl _) ?_ ?_
    · rw [hspan, hstart]
    · rw [hspan, hsplits.isToken.span_eq, List.flatMap_cons, byteLength_append]
      exact Nat.le_refl _
  refine ⟨loc, hloc, ?_, ?_, ?_, ?_, ?_⟩
  · rw [← hchild, hkind]
  · rw [hnode, hstart]
  · rw [hnode, hsplits.chars_eq]
  · have hbefore : loc.before =
        (⟨2, .openDelim, ⟨0, 1⟩, []⟩ :: flatNodes 1 3 before : List Node).reverse := by
      rw [← hchild]
      exact Location.before_eq rfl hchildren hids
    rw [hbefore, List.map_reverse, List.map_cons, map_kind_flatNodes, List.reverse_cons]
  · intro other hother hform hsame
    rw [hnode] at hsame
    rcases cases_of_mem_locations hroot hother with hkind | hzero | hnil
    · rw [hkind] at hform
      cases hform
    · omega
    · have hotherlt := hlt _ (mem_nodes_of_mem_locations hother)
      exact hsplits.eq_of_covers hloc hnode hother hnil (Nat.lt_succ_self leaf.node.span.start)
        (Nat.le_refl _) hleaflt (Nat.le_of_eq hsame) (hsame ▸ hotherlt)

end Tree

/-! ### Agreement -/

namespace VectorItem

/-- In a flat vector the form at the offset of a name or keyword is that item. If
    the tree deactivates it, a marker is pending there in the text; and the two
    agree if and only if no marker of an older run lingers when the item's own run
    is used up. -/
theorem isPendingAt_eq_isDeactivated_iff (pre post : List VectorItem) {x : VectorItem}
    (hx : x.isMarker = false) :
    let cs := render (pre ++ x :: post)
    ∃ l ∈ (Tree.read cs).locations, l.node.kind.isForm = true ∧
      l.node.span.start = offset pre ∧ (Tree.read cs).chars l.node = x.text ∧
      (∀ other ∈ (Tree.read cs).locations, other.node.kind.isForm = true →
        other.node.span.start = offset pre → other = l) ∧
      (l.isDeactivated = true → isPendingAt cs (offset pre) = true) ∧
      (isPendingAt cs (offset pre) = l.isDeactivated ↔ ¬ Lingers pre) := by
  intro cs
  obtain ⟨l, hl, hkind, hstart, hchars, hbefore, hunique⟩ :=
    Tree.exists_location_of_lex (lex_render pre post x) isFlat_of_mem
  have hform : x.kind.isForm = true := by
    cases x with
    | marker => cases hx
    | name n | keyword n => rfl
  have hoffset : l.node.span.start = offset pre := by
    rw [hstart, flatMap_text_lexemesBefore, offset, byteLength_cons]
    rfl
  have hdeactivated : l.isDeactivated = decide (ownNames pre < ownRun pre) := by
    rw [Location.isDeactivated, hbefore, map_flatKind_lexemesBefore, hkind, flatKind_lexeme,
      deactivates_kindsBefore pre hform]
  have hpending : isPendingAt cs (offset pre) =
      decide (ownNames pre < unspent 0 ((older pre).map isMarker) + ownRun pre) := by
    rw [isPendingAt_render pre post hx, unspent_items, Bool.eq_iff_iff, decide_eq_true_eq,
      decide_eq_true_eq]
    omega
  refine ⟨l, hl, ?_, hoffset, ?_, ?_, ?_, ?_⟩
  · rw [hkind, flatKind_lexeme, hform]
  · rw [hchars, text_lexeme]
  · exact fun other hother hform hsame => hunique other hother hform (hsame.trans hoffset.symm)
  · rw [hdeactivated, hpending, decide_eq_true_eq, decide_eq_true_eq]
    omega
  · rw [hdeactivated, hpending, Bool.eq_iff_iff, decide_eq_true_eq, decide_eq_true_eq, Lingers]
    omega

/-- Of three markers before two names and a keyword, all three deactivate. -/
theorem isPendingAt_eq_isDeactivated_stacked :
    let pre : List VectorItem := [.marker, .marker, .marker,
      .name ⟨'a', ['1', '-'], by decide, by decide⟩, .name ⟨'b', [], by decide, by decide⟩]
    let x : VectorItem := .keyword ⟨'c', [], by decide, by decide⟩
    x.isMarker = false ∧ ¬ Lingers pre ∧ ∃ l ∈ (Tree.read (render (pre ++ [x]))).locations,
      l.node.span.start = offset pre ∧
        isPendingAt (render (pre ++ [x])) (offset pre) = l.isDeactivated := by
  intro pre x
  have hx : x.isMarker = false := rfl
  have hlingers : ¬ Lingers pre := by decide
  obtain ⟨l, hl, -, hstart, -, -, -, hiff⟩ := isPendingAt_eq_isDeactivated_iff pre [] hx
  exact ⟨hx, hlingers, l, hl, hstart, hiff.2 hlingers⟩

/-- Two markers before a single name leave one pending, which outlives the marker of
    the next sequence: in the text the last name is deactivated, in the tree not. -/
theorem isPendingAt_of_lingering :
    let cs := "[#_ #_ a #_ b c]".toList
    render [.marker, .marker, .name ⟨'a', [], by decide, by decide⟩, .marker,
      .name ⟨'b', [], by decide, by decide⟩, .name ⟨'c', [], by decide, by decide⟩] = cs ∧
      isPendingAt cs 14 = true ∧ ∃ l ∈ (Tree.read cs).locations,
        l.node.kind.isForm = true ∧ l.node.span.start = 14 ∧ l.isDeactivated = false := by
  decide +kernel

end VectorItem

end Typeahead
