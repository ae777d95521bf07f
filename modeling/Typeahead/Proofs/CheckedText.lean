import Typeahead.Catalog.Signature
import Typeahead.Cursor.Slot
import Typeahead.Proofs.Columns

/-!
# Checked operations on texts

A text can be cut only between characters, an item taken only at an index that a list
has, and a number subtracted only from one that is not smaller. The functions of this
library avoid such operations or give them a value where they make no sense. A program
that works with offsets and indices cannot: it has to keep them in range, and breaks
down if it does not.

In this and the following modules the functions that answer a request are written with
such operations. Each of them gives `none` if one of its operations is out of range, and
each is shown to give the value of its counterpart. Searches go through everything, also
where they could end early, so that no operation is left out.

This module has the operations themselves and what is done with them on bare texts: the
window of a namespace declaration, the clause that is open at its end, the parameters of
a call shape, and the conversion of positions.
-/

namespace Typeahead.Checked

/-! ### Operations -/

/-- The difference of two numbers, of which the first must not be smaller. -/
def sub (m n : Nat) : Option Nat := if n ≤ m then some (m - n) else none

/-- The text from an offset on, which must be a boundary. -/
def sliceFrom (cs : List Char) (start : Nat) : Option (List Char) :=
  (splitAtByte? start cs).map Prod.snd

/-- The text between two offsets, which must be boundaries in this order. -/
def slice (cs : List Char) (start stop : Nat) : Option (List Char) := do
  let rest ← sliceFrom cs start
  let (s, _) ← splitAtByte? (← sub stop start) rest
  return s

/-- The items before an index, which must not exceed the length of the list. -/
def itemsBefore {α : Type} (xs : List α) (stop : Nat) : Option (List α) :=
  if stop ≤ xs.length then some (xs.take stop) else none

/-- The items from an index to another, which must be one of the list and not smaller. -/
def itemsThrough {α : Type} (xs : List α) (start last : Nat) : Option (List α) :=
  if start ≤ last ∧ last < xs.length then some ((xs.take (last + 1)).drop start) else none

theorem sub_eq {m n : Nat} (h : n ≤ m) : sub m n = some (m - n) := if_pos h

theorem sliceFrom_append (s t : List Char) : sliceFrom (s ++ t) (byteLength s) = some t := by
  rw [sliceFrom, splitAtByte?_append]
  rfl

theorem slice_of_standsAt {cs part : List Char} {start : Nat} (h : StandsAt cs start part) :
    slice cs start (start + byteLength part) = some part := by
  obtain ⟨pre, post, rfl, rfl⟩ := h
  rw [slice, sliceFrom_append, sub_eq (Nat.le_add_right ..),
    Nat.add_sub_cancel_left]
  simp only [bind, Option.bind, splitAtByte?_append]
  rfl

example : slice "né".toList 1 2 = none ∧ sub 1 2 = none := by decide

/-- If every item has a value, then so does the list. -/
theorem mapM_eq_some {α β : Type} {f : α → Option β} {g : α → β} {xs : List α}
    (h : ∀ x ∈ xs, f x = some (g x)) : xs.mapM f = some (xs.map g) := by
  induction xs with
  | nil => rfl
  | cons x xs ih =>
    rw [List.mapM_cons, h x List.mem_cons_self, ih fun y hy => h y (List.mem_cons_of_mem _ hy)]
    rfl

/-- The values that are found for the items of a list, all of which are looked at. -/
def foundAll {α β : Type} (f : α → Option (Option β)) (xs : List α) : Option (List β) :=
  return (← xs.mapM f).filterMap id

/-- The first value that is found for the items of a list, all of which are looked at. -/
def foundFirst {α β : Type} (f : α → Option (Option β)) (xs : List α) : Option (Option β) :=
  return (← xs.mapM f).findSome? id

section Found

variable {α β : Type} {f : α → Option (Option β)} {g : α → Option β} {xs : List α}
  (h : ∀ x ∈ xs, f x = some (g x))
include h

theorem foundAll_eq : foundAll f xs = some (xs.filterMap g) := by
  rw [foundAll, mapM_eq_some h]
  exact congrArg some List.filterMap_map

theorem foundFirst_eq : foundFirst f xs = some (xs.findSome? g) := by
  rw [foundFirst, mapM_eq_some h]
  exact congrArg some List.findSome?_map

end Found

/-! ### The window of a namespace declaration -/

/-- Goes down from an offset to a boundary, byte by byte. Nothing is below zero. -/
def lower (cs : List Char) : Nat → Option Nat
  | 0 => if isBoundary cs 0 then some 0 else none
  | n + 1 => if isBoundary cs (n + 1) then some (n + 1) else lower cs n

theorem lower_eq (cs : List Char) (n : Nat) : lower cs n = some (floorBoundary cs n) := by
  induction n with
  | zero =>
    have hzero : isBoundary cs 0 = true := by
      rw [isBoundary, splitAtByte?]
      rfl
    rw [lower, if_pos hzero, floorBoundary]
  | succ n ih =>
    rw [lower, floorBoundary, ih]
    split <;> rfl

/-- The text of a namespace declaration that is looked at for a cursor at `offset`. -/
def window (t : Tree) (ns : Node) (offset size : Nat) : Option (List Char) := do
  let stop := min offset t.length
  let start := if byteLength (t.chars ns) ≤ size then ns.span.start else offset - size / 2
  return Typeahead.slice t.source (← lower t.source (min start stop)) stop

theorem window_eq (t : Tree) (ns : Node) (offset size : Nat) :
    window t ns offset size = some (t.namespaceWindow ns offset size) := by
  simp only [window, lower_eq]
  rfl

/-! ### Open clauses -/

/-- The offsets of the parentheses of a text from `pos` on that are still open at its
    end, innermost first, `stack` being those of the text before. -/
def openOffsets (inString escaped : Bool) (stack : List Nat) (pos : Nat) : List Char → List Nat
  | [] => stack
  | c :: cs =>
    let next := pos + c.utf8Size
    if inString then
      if escaped then openOffsets true false stack next cs
      else if c == '\\' then openOffsets true true stack next cs
      else openOffsets (c != '"') false stack next cs
    else if c == '"' then openOffsets true false stack next cs
    else if c == '(' then openOffsets false false (pos :: stack) next cs
    else if c == ')' then openOffsets false false stack.tail next cs
    else openOffsets false false stack next cs

/-- The innermost clause that is open at the end of a text, and the text after its
    keyword. -/
def openClause (before : List Char) : Option (Option (NsClause × List Char)) := do
  let parens := openOffsets false false [] 0 before
  let inside ← parens.mapM fun paren => sliceFrom before (paren + 1)
  return inside.findSome? clauseOf?

/-- The place in a declaration, after its name, where a text ends. -/
def clauseAt (before : List Char) : Option NsClause :=
  return ((← openClause before).map Prod.fst).getD .between

/-- The text after each open parenthesis is found at its offset. -/
theorem mapM_openOffsets {before : List Char} {stack : List Nat} {texts : List (List Char)}
    (hstack : stack.mapM (fun paren => sliceFrom before (paren + 1)) = some texts)
    (inString escaped : Bool) {pre cs : List Char} (hbefore : before = pre ++ cs) :
    (openOffsets inString escaped stack (byteLength pre) cs).mapM
        (fun paren => sliceFrom before (paren + 1)) =
      some (openParens inString escaped texts cs) := by
  induction cs generalizing inString escaped stack texts pre with
  | nil => exact hstack
  | cons c cs ih =>
    have hnext : byteLength pre + c.utf8Size = byteLength (pre ++ [c]) := by simp
    have hrest : before = (pre ++ [c]) ++ cs := by simp [hbefore]
    have htail : stack.tail.mapM (fun paren => sliceFrom before (paren + 1)) =
        some texts.tail := by
      cases stack with
      | nil =>
        cases hstack
        rfl
      | cons p stack =>
        rw [List.mapM_cons] at hstack
        obtain ⟨x, -, hstack⟩ := Option.bind_eq_some_iff.1 hstack
        obtain ⟨xs, hxs, hcons⟩ := Option.bind_eq_some_iff.1 hstack
        rw [← Option.some.inj hcons]
        exact hxs
    rw [openOffsets, openParens, hnext]
    split
    · split
      · exact ih hstack _ _ hrest
      · split <;> exact ih hstack _ _ hrest
    split
    · exact ih hstack _ _ hrest
    split
    · next hopen =>
      refine ih ?_ _ _ hrest
      have hslice : sliceFrom before (byteLength pre + 1) = some cs := by
        rw [beq_iff_eq.1 hopen] at hrest
        have hparen : byteLength pre + 1 = byteLength (pre ++ ['(']) := by
          rw [byteLength_append]
          rfl
        rw [hrest, hparen, sliceFrom_append]
      rw [List.mapM_cons, hslice, hstack]
      rfl
    split
    · exact ih htail _ _ hrest
    · exact ih hstack _ _ hrest

theorem openClause_eq (before : List Char) : openClause before = some (openClause? before) := by
  have hnone : ([] : List Nat).mapM (fun paren => sliceFrom before (paren + 1)) = some [] := rfl
  have hparens := mapM_openOffsets hnone false false (List.nil_append before).symm
  rw [byteLength_nil] at hparens
  rw [openClause, hparens]
  rfl

theorem clauseAt_eq (before : List Char) : clauseAt before = some (Typeahead.clauseAt before) := by
  rw [clauseAt, openClause_eq]
  rfl

/-! ### Parameters of call shapes -/

/-- The parts of a call shape from the offset `pos` on, where the part that is being read
    starts at `start`. -/
def shapeParts (shape : List Char) (depth : Nat) (start : Option Nat) (pos : Nat) :
    List Char → Option (List (List Char))
  | [] => start.toList.mapM (sliceFrom shape)
  | c :: cs =>
    let next := pos + c.utf8Size
    if c = '[' ∨ c = '\x7b' then
      let start := if depth = 0 ∧ start.isNone then some pos else start
      shapeParts shape (depth + 1) start next cs
    else if c = ']' ∨ c = '\x7d' then shapeParts shape (depth - 1) start next cs
    else if isBlank c ∧ depth = 0 then
      return (← start.toList.mapM (slice shape · pos)) ++ (← shapeParts shape 0 none next cs)
    else shapeParts shape depth (some (start.getD pos)) next cs

/-- The parameters of a call shape. -/
def signatureParameters (signature : String) : Option (List String) :=
  let cs := trim signature.toList
  if cs.head? = some '(' then do
    let shape := cs.tail.takeWhile (· != ')')
    return ((← shapeParts shape 0 none 0 shape).drop 1).map String.ofList
  else some []

/-- The parameter that takes the argument with a given index. -/
def parameterAt (signature : String) (index : Nat) : Option (Option String) := do
  let params ← signatureParameters signature
  return match params.findIdx? (· == "&") with
    | some rest => if rest ≤ index then params[rest + 1]? else params[index]?
    | none => params[index]?

/-- The part that is being read at `pos` starts at `start`, if it has started. -/
inductive Reads (shape : List Char) : (start : Option Nat) → (pos : Nat) → (token : List Char) →
    (rest : List Char) → Prop
  | idle {pre rest : List Char} (h : shape = pre ++ rest) :
    Reads shape none (byteLength pre) [] rest
  | part {pre token rest : List Char} (h : shape = pre ++ token ++ rest) (hne : token ≠ []) :
    Reads shape (some (byteLength pre)) (byteLength pre + byteLength token) token rest

namespace Reads

variable {shape token rest : List Char} {start : Option Nat} {pos : Nat} {c : Char}

/-- The character after a part belongs to it. -/
theorem extend (h : Reads shape start pos token (c :: rest)) :
    Reads shape (some (start.getD pos)) (pos + c.utf8Size) (token ++ [c]) rest := by
  cases h with
  | @idle pre _ h =>
    have hpart : Reads shape (some (byteLength pre)) (byteLength pre + byteLength [c]) [c] rest :=
      .part (by simp [h]) (by simp)
    exact hpart
  | @part pre _ _ h hne =>
    have hpart : Reads shape (some (byteLength pre)) (byteLength pre + byteLength (token ++ [c]))
        (token ++ [c]) rest := .part (by simp [h]) (by simp)
    rw [byteLength_append, ← Nat.add_assoc] at hpart
    exact hpart

/-- A blank after a part ends it. -/
theorem skip (h : Reads shape start pos token (c :: rest)) :
    Reads shape none (pos + c.utf8Size) [] rest := by
  cases h with
  | @idle pre _ h =>
    have hidle : Reads shape none (byteLength (pre ++ [c])) [] rest := .idle (by simp [h])
    rw [byteLength_append] at hidle
    exact hidle
  | @part pre _ _ h hne =>
    have hidle : Reads shape none (byteLength (pre ++ token ++ [c])) [] rest := .idle (by simp [h])
    rw [byteLength_append, byteLength_append] at hidle
    exact hidle

end Reads

/-- Inside of brackets a part has always started. -/
theorem shapeParts_eq {shape cs token : List Char} {start : Option Nat} {pos depth : Nat}
    (h : Reads shape start pos token cs) (hdepth : 0 < depth → start.isSome = true) :
    shapeParts shape depth start pos cs = some (Typeahead.shapeParts depth token cs) := by
  induction cs generalizing start pos depth token with
  | nil =>
    cases h with
    | idle => rfl
    | @part pre _ _ h hne =>
      have hlast : sliceFrom shape (byteLength pre) = some token := by
        rw [h, List.append_nil, sliceFrom_append]
      have hparts : Typeahead.shapeParts depth token [] = [token] := by
        rw [Typeahead.shapeParts, if_neg (by simpa using hne)]
      rw [shapeParts, hparts, Option.toList_some, List.mapM_cons, hlast]
      rfl
  | cons c cs ih =>
    rw [shapeParts, Typeahead.shapeParts]
    split
    · have hstart : (if depth = 0 ∧ start.isNone = true then some pos else start) =
          some (start.getD pos) := by
        cases start with
        | some s => simp
        | none =>
          have hzero : depth = 0 := by
            refine Nat.eq_zero_of_not_pos fun hpos => ?_
            exact absurd (hdepth hpos) (by simp)
          simp [hzero]
      rw [hstart]
      exact ih h.extend fun _ => rfl
    split
    · -- a bracket that closes nothing does not start a part
      have hdepth' : 0 < depth - 1 → start.isSome = true := fun hpos => hdepth (by omega)
      cases h with
      | idle h => exact ih (Reads.idle h).skip hdepth'
      | part h hne =>
        rw [if_neg (by simpa using hne)]
        exact ih (Reads.part h hne).extend hdepth'
    split
    · have hrest := ih h.skip fun hpos => absurd hpos (Nat.lt_irrefl 0)
      cases h with
      | idle h =>
        rw [hrest]
        rfl
      | @part pre _ _ h hne =>
        have hpart : slice shape (byteLength pre) (byteLength pre + byteLength token) =
            some token :=
          slice_of_standsAt ⟨pre, c :: cs, by simp [h], rfl⟩
        rw [if_neg (by simpa using hne), Option.toList_some, List.mapM_cons, hpart, hrest]
        rfl
    · exact ih h.extend fun _ => rfl

theorem signatureParameters_eq (signature : String) :
    signatureParameters signature = some (Typeahead.signatureParameters signature) := by
  have hidle (shape : List Char) : Reads shape none 0 [] shape := .idle (List.nil_append _).symm
  rw [signatureParameters, Typeahead.signatureParameters]
  generalize trim signature.toList = cs
  by_cases hopen : cs.head? = some '('
  · obtain ⟨rest, rfl⟩ := List.head?_eq_some_iff.1 hopen
    simp only [if_pos hopen, List.tail_cons,
      shapeParts_eq (hidle _) fun hpos => absurd hpos (Nat.lt_irrefl 0)]
    rfl
  · rw [if_neg hopen]
    split
    · exact absurd rfl hopen
    · rfl

theorem parameterAt_eq (signature : String) (index : Nat) :
    parameterAt signature index = some (parameterAt? signature index) := by
  rw [parameterAt, signatureParameters_eq]
  rfl

/-! ### The placeholder -/

/-- The text with the placeholder put in at `offset`. -/
def insertAt (cs : List Char) (offset : Nat) (placeholder : List Char) :
    Option (Except RequestError (List Char)) :=
  if byteLength cs < offset ∨ isBoundary cs offset = false then
    some (.error (.offsetOutOfBounds offset (byteLength cs)))
  else return .ok ((← slice cs 0 offset) ++ placeholder ++ (← sliceFrom cs offset))

theorem insertAt_eq (cs : List Char) (offset : Nat) (placeholder : List Char) :
    insertAt cs offset placeholder = some (Typeahead.insertAt cs offset placeholder) := by
  cases hsplit : splitAtByte? offset cs with
  | none =>
    have hboundary : isBoundary cs offset = false := by
      rw [isBoundary, hsplit]
      rfl
    rw [insertAt, if_pos (.inr hboundary), Typeahead.insertAt, hsplit]
  | some x =>
    obtain ⟨u, v⟩ := x
    obtain ⟨rfl, rfl⟩ := append_of_splitAtByte? hsplit
    have hinside : ¬ (byteLength (u ++ v) < byteLength u ∨
        isBoundary (u ++ v) (byteLength u) = false) := by
      rw [isBoundary, hsplit, byteLength_append]
      simp
    have hleft := slice_of_standsAt (⟨[], v, rfl, rfl⟩ : StandsAt (u ++ v) 0 u)
    rw [Nat.zero_add] at hleft
    rw [insertAt, if_neg hinside, hleft, sliceFrom_append, Typeahead.insertAt, hsplit]
    rfl

/-! ### Positions -/

/-- The number of UTF-16 units before a character with a given index. -/
def unitsBefore (cs : List Char) (index : Nat) : Option Nat := (itemsBefore cs index).map unitLength

/-- The number of the characters of a line before its end; a line that is not there has
    none. -/
def lineLength (ls : List (List Char)) (line : Nat) : Option Nat :=
  match ls[line]? with
  | some l => sub l.length (l.reverse.takeWhile fun c => c == '\n' || c == '\r').length
  | none => some 0

/-- The byte offset of a position of a text, found by the indices of its characters. -/
def toOffset (p : Position) (cs : List Char) : Option (Option Nat) :=
  let ls := lines cs
  if ls.length < p.line then some none
  else do
    let start := (ls.take p.line).flatten.length
    let stop := start + (← lineLength ls p.line)
    let target := min ((← unitsBefore cs start) + p.character) (← unitsBefore cs stop)
    let index := (takeWeight unitCount target cs).length
    return some (byteLength (cs.take index))

/-- With no more than the units of a leading part nothing after it is taken. -/
theorem takeWeight_min_append (s t : List Char) (n : Nat) :
    takeWeight unitCount (min n (unitLength s)) (s ++ t) = takeWeight unitCount n s := by
  induction s generalizing n with
  | nil =>
    have hzero : min n (unitLength []) = 0 := Nat.min_zero n
    rw [hzero, List.nil_append]
    cases t with
    | nil => rfl
    | cons c t => rw [takeWeight, takeWeight, if_neg (Nat.not_le.2 (unitCount_pos c))]
  | cons c s ih =>
    rw [List.cons_append, takeWeight, takeWeight, unitLength_cons]
    by_cases hle : unitCount c ≤ n
    · have hsub : min n (unitCount c + unitLength s) - unitCount c =
          min (n - unitCount c) (unitLength s) := by omega
      rw [if_pos (by omega), if_pos hle, hsub, ih]
    · rw [if_neg (by omega), if_neg hle]

theorem lineLength_append (before : List (List Char)) (l : List Char) (after : List (List Char)) :
    lineLength (before ++ l :: after) before.length = some (lineText l).length := by
  have hlength := congrArg List.length
    (List.takeWhile_append_dropWhile (p := fun c => c == '\n' || c == '\r') (l := l.reverse))
  rw [List.length_append, List.length_reverse] at hlength
  rw [lineLength, List.getElem?_append_right (Nat.le_refl _), Nat.sub_self, List.getElem?_cons_zero]
  change sub l.length _ = _
  rw [sub_eq (by omega), lineText, List.length_reverse]
  exact congrArg some (by omega)

theorem unitsBefore_append (s t : List Char) :
    unitsBefore (s ++ t) s.length = some (unitLength s) := by
  rw [unitsBefore, itemsBefore, if_pos (by simp), List.take_left]
  rfl

/-- The text before a column of a line is found by its UTF-16 units. -/
theorem take_takeWeight (before line after : List Char) (character : Nat) :
    let cs := before ++ line ++ after
    let target := min (unitLength before + character) (unitLength (before ++ line))
    cs.take (takeWeight unitCount target cs).length =
      before ++ takeWeight unitCount character line := by
  intro cs target
  have htarget : target = unitLength before + min character (unitLength line) := by
    rw [← Nat.add_min_add_left, ← unitLength_append]
  have htaken : takeWeight unitCount target cs = before ++ takeWeight unitCount character line := by
    rw [htarget, show cs = before ++ (line ++ after) from List.append_assoc ..,
      takeWeight_add_append unitLength_nil unitLength_cons, takeWeight_min_append]
  rw [← htaken]
  exact (List.prefix_iff_eq_take.1 (takeWeight_isPrefix unitCount target cs)).symm

theorem toOffset_eq (p : Position) (cs : List Char) : toOffset p cs = some (p.toOffset? cs) := by
  have hflatten := flatten_lines cs
  rw [toOffset, Position.toOffset?]
  generalize lines cs = ls at hflatten
  rcases Nat.lt_trichotomy p.line ls.length with hline | hline | hline
  · obtain ⟨before, l, after, hls, hlength⟩ := exists_eq_append_cons hline
    obtain ⟨rest, hl⟩ := lineText_isPrefix l
    have hcs : cs = before.flatten ++ lineText l ++ (rest ++ after.flatten) := by
      rw [← hflatten, hls, List.flatten_append, List.flatten_cons, List.append_assoc,
        ← List.append_assoc (lineText l), hl]
    have hstart := unitsBefore_append before.flatten (lineText l ++ (rest ++ after.flatten))
    have hstop := unitsBefore_append (before.flatten ++ lineText l) (rest ++ after.flatten)
    rw [← List.append_assoc, ← hcs] at hstart
    rw [← hcs, List.length_append] at hstop
    have htake := take_takeWeight before.flatten (lineText l) (rest ++ after.flatten) p.character
    rw [← hcs] at htake
    rw [if_neg (by omega), hls, ← hlength, offsetInLines_append, List.take_left]
    simp only [lineLength_append, hstart, hstop, Option.bind_eq_bind, Option.bind_some, htake]
    rfl
  · -- the line after the last one is at the end of the text
    have hend := unitsBefore_append cs []
    rw [List.append_nil] at hend
    have htake := take_takeWeight cs [] [] p.character
    rw [List.append_nil, List.append_nil] at htake
    have hnone : lineLength ls p.line = some 0 := by
      rw [lineLength, List.getElem?_eq_none (Nat.le_of_eq hline.symm)]
    rw [if_neg (by omega), hnone, hline, List.take_length, hflatten, offsetInLines_length, hflatten]
    simp only [hend, Option.bind_eq_bind, Option.bind_some, Nat.add_zero, htake]
    exact congrArg (fun s => some (some (byteLength s))) (List.append_nil cs)
  · rw [if_pos hline, offsetInLines_eq_none hline]

end Typeahead.Checked
