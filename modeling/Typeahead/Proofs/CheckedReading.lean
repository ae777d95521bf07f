import Typeahead.Proofs.CheckedText
import Typeahead.Proofs.Records

/-!
# Checked reading

A text is read from an offset that moves over it: what comes next is found in the rest of
the text from the offset on, which has to be a boundary all the time. The nodes are kept
under their numbers, and a step that adds a node to the innermost open one, or closes it,
changes what is kept under its number.

* `lexemeAt_eq`: at the start of a lexeme its shape and its end are found;
* `run_eq`: the run over a text ends, and adds the lexemes of the text;
* `read_eq`, `build_eq`: the tree of a text, or of any steps, is found.
-/

namespace Typeahead.Checked

/-! ### Lexemes -/

/-- The character at an offset, if it is not the end of the text. -/
def peek (src : List Char) (pos : Nat) : Option (Option Char) := (sliceFrom src pos).map List.head?

/-- The character after the one at an offset. -/
def peekSecond (src : List Char) (pos : Nat) : Option (Option Char) :=
  (sliceFrom src pos).map (·[1]?)

/-- The first offset from `start` on at which a character is one to stop at, or the end of
    the text. -/
def scanUntil (src : List Char) (start : Nat) (isStop : Char → Bool) : Option Nat :=
  (sliceFrom src start).map fun rest => start + byteLength (rest.takeWhile (!isStop ·))

/-- The end of a string literal whose text starts at `body`. -/
def stringEnd (src : List Char) (body : Nat) : Option Nat :=
  (sliceFrom src body).map fun rest => body + byteLength (stringRest rest).1

/-- The end of a delimited comment whose text starts at `body`. -/
def commentEnd (src : List Char) (body : Nat) : Option Nat :=
  (sliceFrom src body).map fun rest => body + byteLength (commentRest rest).1

/-- The shape and the end of the comment that goes on to the end of the line. -/
def lineCommentAt (src : List Char) (pos : Nat) : Option (Shape × Nat) :=
  return (.comment, ← scanUntil src pos (· == '\n'))

/-- The shape and the end of the atom that starts with `c`. -/
def atomAt (src : List Char) (pos : Nat) (c : Char) : Option (Shape × Nat) := do
  let stop := max (← scanUntil src pos isTerminator) (pos + c.utf8Size)
  return (.atom (atomKind (← slice src pos stop)), stop)

/-- The shape and the end of the lexeme that starts with a number sign. -/
def numberSignAt (src : List Char) (pos : Nat) : Option (Shape × Nat) := do
  let second ← peekSecond src pos
  if second = some '_' then return (.marker, pos + 2)
  else if second = some '\x7b' then return (.opener .set, pos + 2)
  else if second = some '|' then return (.comment, ← commentEnd src (pos + 2))
  else lineCommentAt src pos

/-- The shape and the end of the lexeme at an offset, where the character is `c`. -/
def lexemeAt (src : List Char) (pos : Nat) (c : Char) : Option (Shape × Nat) :=
  if isBlank c then return (.blank, ← scanUntil src pos (!isBlank ·))
  else if c = ';' then lineCommentAt src pos
  else if c = '#' then numberSignAt src pos
  else if c = '|' then do
    if (← peekSecond src pos) = some '(' then return (.opener .shortFn, pos + 2)
    else atomAt src pos c
  else if c = ',' then do
    if (← peekSecond src pos) = some '@' then return (.sigil, pos + 2)
    else return (.sigil, pos + 1)
  else if c = '"' then return (.atom .string, ← stringEnd src (pos + 1))
  else if isCloser c then return (.closer c, pos + 1)
  else if isSigil c then return (.sigil, pos + 1)
  else
    match openerKind? c with
    | some kind => return (.opener kind, pos + 1)
    | none => atomAt src pos c

section Lexemes

variable (pre : List Char) (c : Char) (cs : List Char)

theorem scanUntil_eq (rest : List Char) (isStop : Char → Bool) :
    scanUntil (pre ++ rest) (byteLength pre) isStop =
      some (byteLength pre + byteLength (rest.takeWhile (!isStop ·))) := by
  rw [scanUntil, sliceFrom_append]
  rfl

theorem peekSecond_eq : peekSecond (pre ++ c :: cs) (byteLength pre) = some cs.head? := by
  rw [peekSecond, sliceFrom_append]
  cases cs <;> rfl

theorem head?_ne_some {x : Char} {cs : List Char} (h : ∀ rest, cs ≠ x :: rest) :
    cs.head? ≠ some x := by
  intro hhead
  obtain ⟨rest, hrest⟩ := List.head?_eq_some_iff.1 hhead
  exact h rest hrest

/-- The shape and the end that are found are those of a lexeme and the text after it. -/
def Finds (pos : Nat) (found : Option (Shape × Nat)) (l : Lexeme × List Char) : Prop :=
  found = some (l.1.shape, pos + byteLength l.1.text)

theorem finds_blank (hc : isBlank c = true) :
    Finds (byteLength pre)
      (return (.blank, ← scanUntil (pre ++ c :: cs) (byteLength pre) (!isBlank ·)))
      (Lexeme.blank c cs) := by
  have hkeep : (fun x => !!isBlank x) c = true := by simp [hc]
  rw [Finds, scanUntil_eq, List.takeWhile_cons_of_pos (p := fun x => !!isBlank x) hkeep]
  simp only [Bool.not_not]
  rfl

theorem finds_lineComment (hc : c ≠ '\n') :
    Finds (byteLength pre) (lineCommentAt (pre ++ c :: cs) (byteLength pre))
      (Lexeme.lineComment c cs) := by
  have hkeep : (fun x => !(x == '\n')) c = true := by simp [hc]
  rw [Finds, lineCommentAt, scanUntil_eq,
    List.takeWhile_cons_of_pos (p := fun x => !(x == '\n')) hkeep]
  rfl

theorem finds_atom (hc : isTerminator c = false) :
    Finds (byteLength pre) (atomAt (pre ++ c :: cs) (byteLength pre) c) (Lexeme.atom c cs) := by
  have hkeep : (fun x => !isTerminator x) c = true := by simp [hc]
  have hstop : max (byteLength pre + byteLength (c :: cs.takeWhile (!isTerminator ·)))
      (byteLength pre + c.utf8Size) =
      byteLength pre + byteLength (c :: cs.takeWhile (!isTerminator ·)) := by
    rw [byteLength_cons]
    omega
  have htext : slice (pre ++ c :: cs) (byteLength pre)
      (byteLength pre + byteLength (c :: cs.takeWhile (!isTerminator ·))) =
      some (c :: cs.takeWhile (!isTerminator ·)) := by
    refine slice_of_standsAt ⟨pre, cs.dropWhile (!isTerminator ·), ?_, rfl⟩
    rw [List.cons_append, List.takeWhile_append_dropWhile]
  rw [Finds, atomAt, scanUntil_eq, List.takeWhile_cons_of_pos (p := fun x => !isTerminator x) hkeep]
  simp only [Option.bind_eq_bind, Option.bind_some, hstop, htext]
  rfl

/-- The rest of the text after a character of one byte. -/
theorem sliceFrom_cons (hc : c.utf8Size = 1) :
    sliceFrom (pre ++ c :: cs) (byteLength pre + 1) = some cs := by
  have h := sliceFrom_append (pre ++ [c]) cs
  rwa [List.append_assoc, List.singleton_append, byteLength_append, byteLength_cons, hc] at h

theorem finds_string :
    Finds (byteLength pre)
      (return (.atom .string, ← stringEnd (pre ++ '"' :: cs) (byteLength pre + 1)))
      (⟨.atom .string, '"' :: (stringRest cs).1⟩, (stringRest cs).2) := by
  rw [Finds, stringEnd, sliceFrom_cons pre '"' cs rfl, byteLength_cons, ← Nat.add_assoc]
  rfl

theorem finds_numberSign :
    Finds (byteLength pre) (numberSignAt (pre ++ '#' :: cs) (byteLength pre))
      (Lexeme.afterNumberSign cs) := by
  rw [numberSignAt, peekSecond_eq, Lexeme.afterNumberSign.eq_def]
  split
  · rfl
  · rfl
  · next cs =>
    have hrest := sliceFrom_cons (pre ++ ['#']) '|' cs rfl
    rw [List.append_assoc, List.singleton_append, byteLength_append] at hrest
    have hend : commentEnd (pre ++ '#' :: '|' :: cs) (byteLength pre + 2) =
        some (byteLength pre + 2 + byteLength (commentRest cs).1) := by
      rw [commentEnd]
      exact congrArg (Option.map _) hrest
    have hlength : byteLength ('#' :: '|' :: (commentRest cs).1) =
        2 + byteLength (commentRest cs).1 := by
      rw [byteLength_cons, byteLength_cons, ← Nat.add_assoc]
      rfl
    rw [Finds, hlength, ← Nat.add_assoc]
    simp [hend]
  · next hmarker hset hcomment =>
    simp only [Option.bind_eq_bind, Option.bind_some]
    rw [if_neg (head?_ne_some hmarker), if_neg (head?_ne_some hset),
      if_neg (head?_ne_some hcomment)]
    exact finds_lineComment pre '#' cs (by decide)

theorem finds_bar :
    Finds (byteLength pre)
      (do
        if (← peekSecond (pre ++ '|' :: cs) (byteLength pre)) = some '(' then
          return (.opener .shortFn, byteLength pre + 2)
        else atomAt (pre ++ '|' :: cs) (byteLength pre) '|')
      (Lexeme.afterBar cs) := by
  rw [peekSecond_eq, Lexeme.afterBar.eq_def]
  split
  · rfl
  · next hopener =>
    simp only [Option.bind_eq_bind, Option.bind_some]
    rw [if_neg (head?_ne_some hopener)]
    exact finds_atom pre '|' cs (by decide)

theorem finds_comma :
    Finds (byteLength pre)
      (do
        if (← peekSecond (pre ++ ',' :: cs) (byteLength pre)) = some '@' then
          return (.sigil, byteLength pre + 2)
        else return (.sigil, byteLength pre + 1))
      (Lexeme.afterComma cs) := by
  rw [peekSecond_eq, Lexeme.afterComma.eq_def]
  split
  · rfl
  · next hsigil =>
    simp only [Option.bind_eq_bind, Option.bind_some]
    rw [if_neg (head?_ne_some hsigil)]
    rfl

theorem finds_single (shape : Shape) (hc : c.utf8Size = 1) :
    Finds (byteLength pre) (return (shape, byteLength pre + 1)) (⟨shape, [c]⟩, cs) := by
  rw [Finds, byteLength_cons, hc]
  rfl

theorem utf8Size_of_isCloser {c : Char} (h : isCloser c = true) : c.utf8Size = 1 := by
  simp only [isCloser, Bool.or_eq_true, beq_iff_eq] at h
  rcases h with (rfl | rfl) | rfl <;> rfl

theorem utf8Size_of_isSigil {c : Char} (h : isSigil c = true) : c.utf8Size = 1 := by
  simp only [isSigil, Bool.or_eq_true, beq_iff_eq] at h
  rcases h with ((rfl | rfl) | rfl) | rfl <;> rfl

theorem utf8Size_of_openerKind? {c : Char} {kind : Kind} (h : openerKind? c = some kind) :
    c.utf8Size = 1 := by
  have hc : c = '(' ∨ c = '[' ∨ c = '\x7b' := by
    refine Decidable.byContradiction fun hc => ?_
    obtain ⟨hround, hsquare, hcurly⟩ := (not_or.1 hc).imp_right not_or.1
    rw [openerKind?, if_neg hround, if_neg hsquare, if_neg hcurly] at h
    cases h
  rcases hc with rfl | rfl | rfl <;> rfl

/-- A character that starts neither of the other lexemes is no terminator. -/
theorem isTerminator_eq_false {c : Char} (hblank : ¬isBlank c = true) (hcomment : c ≠ ';')
    (hcomma : c ≠ ',') (hquote : c ≠ '"') (hcloser : ¬isCloser c = true)
    (hopener : openerKind? c = none) : isTerminator c = false := by
  simp only [isCloser, Bool.or_eq_true, beq_iff_eq, not_or] at hcloser
  have hround : c ≠ '(' := by
    rintro rfl
    cases hopener
  have hsquare : c ≠ '[' := by
    rintro rfl
    cases hopener
  have hcurly : c ≠ '\x7b' := by
    rintro rfl
    cases hopener
  simp [isTerminator, hblank, hcomment, hcomma, hquote, hcloser, hround, hsquare, hcurly]

theorem lexemeAt_eq :
    lexemeAt (pre ++ c :: cs) (byteLength pre) c =
      some ((nextLexeme c cs).1.shape, byteLength pre + byteLength (nextLexeme c cs).1.text) := by
  rw [lexemeAt, nextLexeme]
  split
  · next hblank => exact finds_blank pre c cs hblank
  split
  · next h =>
    subst h
    exact finds_lineComment pre ';' cs (by decide)
  split
  · next h =>
    subst h
    exact finds_numberSign pre cs
  split
  · next h =>
    subst h
    exact finds_bar pre cs
  split
  · next h =>
    subst h
    exact finds_comma pre cs
  split
  · next h =>
    subst h
    exact finds_string pre cs
  split
  · next hcloser => exact finds_single _ c cs _ (utf8Size_of_isCloser hcloser)
  split
  · next hsigil => exact finds_single _ c cs _ (utf8Size_of_isSigil hsigil)
  cases hopener : openerKind? c with
  | some kind => exact finds_single _ c cs _ (utf8Size_of_openerKind? hopener)
  | none =>
    next hblank hcomment _ _ hcomma hquote hcloser _ =>
    exact finds_atom pre c cs
      (isTerminator_eq_false hblank hcomment hcomma hquote hcloser hopener)

end Lexemes

/-! ### Trees under construction -/

/-- A value that is found with the innermost open node, which must be there under its
    number. -/
def onTop {α : Type} (b : Builder) (x : α) : Option α :=
  if b.top.id < b.next then some x else none

/-- Adds a node without children to the innermost open node. -/
def token (b : Builder) (kind : Kind) (span : Span) : Option Builder := onTop b (b.token kind span)

/-- Opens a node in the innermost open node. -/
def start (b : Builder) (kind : Kind) (pos : Nat) : Option Builder := onTop b (b.start kind pos)

/-- Closes the innermost open node, if it is not the root. -/
def finish (b : Builder) (stop : Nat) : Option Builder :=
  if b.depth = 0 then some b else onTop b (b.finish stop)

/-- Closes the innermost open nodes as long as their kinds are of the given ones, at most
    `n` of them. -/
def closeWhile (p : Kind → Bool) (stop : Nat) : (n : Nat) → Builder → Option Builder
  | 0, b => some b
  | n + 1, b => if p b.top.kind then do closeWhile p stop n (← finish b stop) else some b

/-- Adds the lexeme of the given shape that stands between two offsets. -/
def place (b : Builder) (shape : Shape) (pos stop : Nat) : Option Builder :=
  match shape with
  | .blank => token b .whitespace ⟨pos, stop⟩
  | .comment => token b .lineComment ⟨pos, stop⟩
  | .marker => token b .formComment ⟨pos, stop⟩
  | .opener kind => do token (← start b kind pos) .openDelim ⟨pos, stop⟩
  | .sigil => do token (← start b .quoted pos) .sigil ⟨pos, stop⟩
  | .atom kind => do
    let b ← token b kind ⟨pos, stop⟩
    closeWhile (· == .quoted) stop b.depth b
  | .closer d =>
    if b.closes d then do
      let b ← closeWhile (·.closer? != some d) pos b.depth b
      let b ← finish (← token b .closeDelim ⟨pos, stop⟩) stop
      closeWhile (· == .quoted) stop b.depth b
    else token b .error ⟨pos, stop⟩

/-- The tree, with everything closed at the end of the source. -/
def toTree (b : Builder) : Option Tree := do
  let stop := byteLength b.source
  let b ← closeWhile (fun _ => true) stop b.depth b
  return ⟨b.source, b.top.close stop⟩

section Builders

variable {b : Builder}

/-- The nodes so far are kept under their numbers. -/
def Kept (b : Builder) : Prop := b.ids = List.range b.next

theorem Kept.onTop_eq {α : Type} (h : Kept b) (x : α) : onTop b x = some x := by
  have hid : b.top.id ∈ b.ids := by simp [Builder.ids, Builder.frames, Builder.idsIn]
  rw [h, List.mem_range] at hid
  exact if_pos hid

theorem Kept.token (h : Kept b) (kind : Kind) (span : Span) : Kept (b.token kind span) := by
  rw [Kept, Builder.ids_token, h]
  exact List.range_succ.symm

theorem Kept.start (h : Kept b) (kind : Kind) (pos : Nat) : Kept (b.start kind pos) := by
  rw [Kept, Builder.ids_start, h]
  exact List.range_succ.symm

theorem Kept.finish (h : Kept b) (stop : Nat) : Kept (b.finish stop) := by
  rw [Kept, Builder.ids_finish, Builder.next_finish, h]

theorem Kept.closing {p : Kind → Prop} {stop : Nat} {b' : Builder} (h : Kept b)
    (hclosing : Builder.Closing stop p b b') : Kept b' :=
  hclosing.keeps (fun _ _ _ hb => hb.finish stop) h

theorem token_eq (h : Kept b) (kind : Kind) (span : Span) :
    token b kind span = some (b.token kind span) := h.onTop_eq _

theorem start_eq (h : Kept b) (kind : Kind) (pos : Nat) :
    start b kind pos = some (b.start kind pos) := h.onTop_eq _

theorem finish_eq (h : Kept b) (stop : Nat) : finish b stop = some (b.finish stop) := by
  rw [finish]
  split
  · next hdepth => rw [Builder.finish_nil (List.length_eq_zero_iff.1 hdepth)]
  · exact h.onTop_eq _

/-- Whatever closes open nodes one by one while their kinds are of the given ones is found. -/
theorem closeWhile_eq {p : Kind → Bool} {stop : Nat} {go : Frame → List Frame → Builder}
    (hnil : ∀ top, go top [] = { b with top, below := [] })
    (hcons : ∀ top f fs, go top (f :: fs) =
      if p top.kind then go (f.add (top.close stop)) fs else { b with top, below := f :: fs })
    {top : Frame} {below : List Frame} (h : Kept { b with top, below }) :
    closeWhile p stop below.length { b with top, below } = some (go top below) := by
  induction below generalizing top with
  | nil => rw [hnil, List.length_nil, closeWhile]
  | cons f fs ih =>
    rw [hcons, List.length_cons, closeWhile, finish_eq h]
    split
    · exact ih (h.finish stop)
    · rfl

theorem settle_eq (h : Kept b) (stop : Nat) :
    closeWhile (· == .quoted) stop b.depth b = some (b.settle stop) := by
  refine closeWhile_eq (fun _ => rfl) (fun top f fs => ?_) h
  simp only [Builder.settle.go, beq_iff_eq]

theorem unwindTo_eq (h : Kept b) (d : Char) (stop : Nat) :
    closeWhile (·.closer? != some d) stop b.depth b = some (b.unwindTo d stop) := by
  refine closeWhile_eq (fun _ => rfl) (fun top f fs => ?_) h
  simp only [Builder.unwindTo.go, bne_iff_ne, ne_eq, ite_not]

/-- All open nodes but the root are closed. -/
theorem closeAll_eq (h : Kept b) (stop : Nat) :
    ∃ b', closeWhile (fun _ => true) stop b.depth b = some b' ∧ b'.source = b.source ∧
      b'.top.close stop = Frame.closeAll stop b.top b.below := by
  suffices hgo : ∀ (below : List Frame) (top : Frame), Kept { b with top, below } →
      ∃ b', closeWhile (fun _ => true) stop below.length { b with top, below } = some b' ∧
        b'.source = b.source ∧ b'.top.close stop = Frame.closeAll stop top below from
    hgo b.below b.top h
  intro below
  induction below with
  | nil => exact fun top _ => ⟨_, rfl, rfl, rfl⟩
  | cons f fs ih =>
    intro top hkept
    rw [List.length_cons, closeWhile, finish_eq hkept]
    exact ih _ (hkept.finish stop)

theorem toTree_eq (h : Kept b) : toTree b = some b.toTree := by
  obtain ⟨b', hb', hsource, hroot⟩ := closeAll_eq h (byteLength b.source)
  simp only [toTree, hb', Option.bind_eq_bind, Option.bind_some]
  rw [hsource, hroot]
  rfl

theorem place_eq (h : Kept b) (pos : Nat) (l : Lexeme) :
    place b l.shape pos (pos + byteLength l.text) = some (b.place pos l) := by
  rw [place.eq_def, Builder.place.eq_def]
  cases l.shape with
  | blank => exact token_eq h ..
  | comment => exact token_eq h ..
  | marker => exact token_eq h ..
  | opener kind =>
    simp only [start_eq h]
    exact token_eq (h.start ..) ..
  | sigil =>
    simp only [start_eq h]
    exact token_eq (h.start ..) ..
  | atom kind =>
    simp only [token_eq h]
    exact settle_eq (h.token ..) _
  | closer d =>
    have hunwound := h.closing (Builder.closing_unwindTo b d pos)
    have htoken := hunwound.token .closeDelim ⟨pos, pos + byteLength l.text⟩
    simp only [unwindTo_eq h, Option.bind_eq_bind, Option.bind_some, token_eq hunwound,
      finish_eq htoken, token_eq h, settle_eq (htoken.finish _)]
    split <;> rfl

theorem Kept.place (h : Kept b) {l : Lexeme} (hl : l.Sound) (pos : Nat) : Kept (b.place pos l) :=
  (Builder.outcome_place hl b pos).ids_eq h

end Builders

/-! ### Reading -/

/-- Reads a text from an offset on, in less than `fuel` lexemes. -/
def run (src : List Char) : (fuel pos : Nat) → Builder → Option Builder
  | 0, _, _ => none
  | fuel + 1, pos, b => do
    match ← peek src pos with
    | none => return b
    | some c =>
      let (shape, stop) ← lexemeAt src pos c
      run src fuel stop (← place b shape pos stop)

/-- The tree of a text. -/
def read (cs : List Char) : Option Tree := do toTree (← run cs (cs.length + 1) 0 (.new cs))

/-- Takes a step of a construction. -/
def apply (b : Builder) : Builder.Step → Option Builder
  | .start kind pos => start b kind pos
  | .finish stop => finish b stop
  | .token kind span => token b kind span

/-- The tree that the steps build over a source. -/
def build (source : List Char) (steps : List Builder.Step) : Option Tree := do
  toTree (← steps.foldlM apply (.new source))

theorem run_eq {fuel : Nat} (pre : List Char) {rest : List Char} (hfuel : rest.length < fuel)
    {b : Builder} (h : Kept b) :
    run (pre ++ rest) fuel (byteLength pre) b = some (b.placeAll (byteLength pre) (lex rest)) ∧
      Kept (b.placeAll (byteLength pre) (lex rest)) := by
  induction fuel generalizing pre rest b with
  | zero => exact absurd hfuel (Nat.not_lt_zero _)
  | succ fuel ih =>
    rw [run, peek, sliceFrom_append]
    cases rest with
    | nil =>
      rw [lex]
      exact ⟨rfl, h⟩
    | cons c cs =>
      have hsplit : pre ++ c :: cs = (pre ++ (nextLexeme c cs).1.text) ++ (nextLexeme c cs).2 := by
        rw [List.append_assoc, nextLexeme_append]
      have hless : (nextLexeme c cs).2.length < fuel :=
        Nat.lt_of_le_of_lt (length_nextLexeme_le c cs) (Nat.lt_of_succ_lt_succ hfuel)
      have hrest := ih (pre ++ (nextLexeme c cs).1.text) hless
        (h.place (sound_nextLexeme c cs) (byteLength pre))
      rw [← hsplit, byteLength_append] at hrest
      rw [lex, Builder.placeAll]
      refine ⟨?_, hrest.2⟩
      simp only [Option.map_some, List.head?_cons, Option.bind_eq_bind, Option.bind_some,
        lexemeAt_eq, place_eq h]
      exact hrest.1

theorem kept_new (source : List Char) : Kept (.new source) := rfl

theorem read_eq (cs : List Char) : read cs = some (Tree.read cs) := by
  obtain ⟨hrun, hkept⟩ := run_eq [] (Nat.lt_succ_self cs.length) (kept_new cs)
  rw [List.nil_append, byteLength_nil] at hrun
  rw [read, hrun]
  exact toTree_eq hkept

theorem apply_eq {b : Builder} (h : Kept b) (step : Builder.Step) :
    apply b step = some (b.apply step) ∧ Kept (b.apply step) := by
  cases step with
  | start kind pos => exact ⟨start_eq h kind pos, h.start kind pos⟩
  | finish stop => exact ⟨finish_eq h stop, h.finish stop⟩
  | token kind span => exact ⟨token_eq h kind span, h.token kind span⟩

theorem foldlM_apply_eq (steps : List Builder.Step) {b : Builder} (h : Kept b) :
    steps.foldlM apply b = some (steps.foldl Builder.apply b) ∧
      Kept (steps.foldl Builder.apply b) := by
  induction steps generalizing b with
  | nil => exact ⟨rfl, h⟩
  | cons step steps ih =>
    obtain ⟨hstep, hkept⟩ := apply_eq h step
    rw [List.foldlM_cons, hstep]
    exact ih hkept

theorem build_eq (source : List Char) (steps : List Builder.Step) :
    build source steps = some (Builder.build source steps) := by
  obtain ⟨hsteps, hkept⟩ := foldlM_apply_eq steps (kept_new source)
  rw [build, hsteps]
  exact toTree_eq hkept

end Typeahead.Checked
