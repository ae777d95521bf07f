import Typeahead.Program.Form
import Typeahead.Proofs.Spelling

/-!
# Reading undoes writing

A program that is written and read again comes back as it was. What a form is
read into is its outline (`Form.outline`): an atom is a leaf with its text, a
collection a node between its delimiters, a quoted form a node with a sigil in
front, and a marker a leaf next to the form that it deactivates. The forms with a
syntax of their own are lists that begin with a word.

Names must be words for that, and strings must not need an escape
(`Form.isReadable`); a name with a blank in it, say, is read as two. The names of
a plain program (`Form.isPlain`) moreover start with a letter or a dollar sign.

* `Form.spelled_render`: the text of a readable form spells its outline;
* `Program.spelledAll_render`: so does the text of a plain program;
* `Program.outline_read_render`: reading the text of a plain program gives its
  outline, with every collection closed and no error.
-/

namespace Typeahead

/-! ### Plain programs -/

/-- Whether `c` is a letter from a to z, of either case, or a dollar sign. -/
def startsName (c : Char) : Bool := c.isAlpha || c == '$'

/-- Whether a name starts with a letter or a dollar sign and has no character
    that ends a word: no blank, delimiter, double quote, semicolon or comma. -/
def isName (name : String) : Bool :=
  name.toList.head?.any startsName && name.toList.all (!isTerminator ·)

/-- Whether a string literal has neither a double quote nor a backslash in it. -/
def isLiteral (text : String) : Bool := text.toList.all fun c => c != '"' && c != '\\'

/-- Whether a name is read as one symbol: it is a word, and neither a number nor a
    keyword. -/
def isSymbolName (name : String) : Bool :=
  name.toList.head?.any startsWord && name.toList.all (!isTerminator ·) &&
    atomKind name.toList == .symbol

namespace Form

mutual

/-- Whether all names of a form are plain and no string needs an escape. -/
def isPlain : Form → Bool
  | symbol name | keyword name => isName name
  | str text => isLiteral text
  | int _ | nil | bool _ => true
  | list items | vector items | set items | shortFn items => isPlainAll items
  | map entries => isPlainEntries entries
  | quoted form | discard form => isPlain form
  | fnDef name params body => isName name && params.all isName && isPlainAll body
  | lambda params body => params.all isName && isPlainAll body
  | letIn bindings body | loopIn bindings body => isPlainBindings bindings && isPlainAll body

/-- The same for forms. -/
def isPlainAll : List Form → Bool
  | [] => true
  | f :: fs => isPlain f && isPlainAll fs

/-- The same for keys and values. -/
def isPlainEntries : List (Form × Form) → Bool
  | [] => true
  | (k, v) :: es => isPlain k && isPlain v && isPlainEntries es

/-- The same for names and values. -/
def isPlainBindings : List (String × Form) → Bool
  | [] => true
  | (name, v) :: bs => isName name && isPlain v && isPlainBindings bs

end

mutual

/-- Whether all symbols of a form are read as symbols, all its keywords are words
    and no string needs an escape. -/
def isReadable : Form → Bool
  | symbol name => isSymbolName name
  | keyword name => name.toList.all (!isTerminator ·)
  | str text => isLiteral text
  | int _ | nil | bool _ => true
  | list items | vector items | set items | shortFn items => isReadableAll items
  | map entries => isReadableEntries entries
  | quoted form | discard form => isReadable form
  | fnDef name params body => isSymbolName name && params.all isSymbolName && isReadableAll body
  | lambda params body => params.all isSymbolName && isReadableAll body
  | letIn bindings body | loopIn bindings body => isReadableBindings bindings && isReadableAll body

/-- The same for forms. -/
def isReadableAll : List Form → Bool
  | [] => true
  | f :: fs => isReadable f && isReadableAll fs

/-- The same for keys and values. -/
def isReadableEntries : List (Form × Form) → Bool
  | [] => true
  | (k, v) :: es => isReadable k && isReadable v && isReadableEntries es

/-- The same for names and values. -/
def isReadableBindings : List (String × Form) → Bool
  | [] => true
  | (name, v) :: bs => isSymbolName name && isReadable v && isReadableBindings bs

end

end Form

/-- Whether the namespace of a program is a word and all its forms are plain. -/
def Program.isPlain (p : Program) : Bool := isName p.nsName && p.forms.all Form.isPlain

/-! ### Outlines of programs -/

namespace Outline

/-- The outline of a symbol. -/
def symbol (name : String) : Outline := .leaf .symbol name.toList

/-- The outline of a list. -/
def list (items : List Outline) : Outline := .collection .list ['('] ')' items

/-- The outline of a vector. -/
def vector (items : List Outline) : Outline := .collection .vector ['['] ']' items

end Outline

namespace Form

mutual

/-- The outlines of the nodes that a form is read into: one, and a leaf for each
    marker in front of it. -/
def outline : Form → List Outline
  | symbol name => [.symbol name]
  | keyword name => [.leaf .keyword (':' :: name.toList)]
  | int value => [.leaf .number (toString value).toList]
  | str text => [.leaf .string ('"' :: text.toList ++ ['"'])]
  | nil => [.symbol "nil"]
  | bool value => [.symbol (if value then "true" else "false")]
  | list items => [.list (outlineAll items)]
  | vector items => [.vector (outlineAll items)]
  | map entries => [.collection .map ['\x7b'] '\x7d' (outlineEntries entries)]
  | set items => [.collection .set ['#', '\x7b'] '\x7d' (outlineAll items)]
  | shortFn items => [.collection .shortFn ['|', '('] ')' (outlineAll items)]
  | quoted form => [.node .quoted (.leaf .sigil ['\''] :: outline form)]
  | discard form => .leaf .formComment ['#', '_'] :: outline form
  | fnDef name params body =>
    [.list (.symbol "defn" :: .symbol name :: .vector (params.map .symbol) :: outlineAll body)]
  | letIn bindings body =>
    [.list (.symbol "let" :: .vector (outlineBindings bindings) :: outlineAll body)]
  | lambda params body =>
    [.list (.symbol "fn" :: .vector (params.map .symbol) :: outlineAll body)]
  | loopIn bindings body =>
    [.list (.symbol "loop" :: .vector (outlineBindings bindings) :: outlineAll body)]

/-- The outlines of forms, one after the other. -/
def outlineAll : List Form → List Outline
  | [] => []
  | f :: fs => outline f ++ outlineAll fs

/-- The outlines of keys and values. -/
def outlineEntries : List (Form × Form) → List Outline
  | [] => []
  | (k, v) :: es => outline k ++ (outline v ++ outlineEntries es)

/-- The outlines of names and values. -/
def outlineBindings : List (String × Form) → List Outline
  | [] => []
  | (name, v) :: bs => .symbol name :: (outline v ++ outlineBindings bs)

end

end Form

/-- The outlines of the nodes that a program is read into: a list for the
    namespace, and those of its forms. -/
def Program.outline (p : Program) : List Outline :=
  .list [.symbol "ns", .symbol p.nsName] :: p.forms.flatMap Form.outline

/-! ### Words -/

/-- What holds of the ten digits holds of every digit. -/
theorem forall_digit {P : Char → Prop} (hP : ∀ k < 58, 48 ≤ k → P (Char.ofNat k)) {c : Char}
    (h : isDigit c = true) : P c := by
  simp only [isDigit, Bool.and_eq_true, decide_eq_true_eq, Char.le_def,
    UInt32.le_iff_toNat_le] at h
  rw [← Char.ofNat_toNat c]
  exact hP c.toNat (Nat.lt_succ_of_le h.2) h.1

theorem isDigit_of_startsName {c : Char} (h : startsName c = true) : isDigit c = false := by
  cases hd : isDigit c with
  | false => rfl
  | true =>
    have hc : startsName c = false :=
      forall_digit (P := fun c => startsName c = false) (by decide) hd
    exact absurd (hc.symm.trans h) Bool.false_ne_true

theorem ne_of_startsName {c d : Char} (hc : startsName c = true) (hd : startsName d = false) :
    c ≠ d := by
  rintro rfl
  exact absurd (hd.symm.trans hc) Bool.false_ne_true

theorem startsWord_of_startsName {c : Char} (h : startsName c = true)
    (hc : isTerminator c = false) : startsWord c = true := by
  have hne : ∀ d, startsName d = false → c ≠ d := fun d => ne_of_startsName h
  simp [startsWord, isSigil, hc, hne '#' (by decide), hne '|' (by decide), hne '\'' (by decide),
    hne '\x60' (by decide), hne '@' (by decide), hne '^' (by decide)]

theorem atomKind_of_startsName {c : Char} (h : startsName c = true) (cs : List Char) :
    atomKind (c :: cs) = .symbol := by
  have hne : ∀ d, startsName d = false → c ≠ d := fun d => ne_of_startsName h
  rw [atomKind]
  · simp [isDigit_of_startsName h, hne '+' (by decide), hne '-' (by decide)]
  · exact hne ':' (by decide)

theorem isSymbolName_of_isName {name : String} (h : isName name = true) :
    isSymbolName name = true := by
  rw [isName, Bool.and_eq_true] at h
  obtain ⟨hstart, hall⟩ := h
  rw [isSymbolName, hall, Bool.and_true, Bool.and_eq_true, beq_iff_eq]
  cases hname : name.toList with
  | nil => simp [hname] at hstart
  | cons c cs =>
    have hc : startsName c = true := by simpa [hname] using hstart
    have hterm : isTerminator c = false := by
      simpa using List.all_eq_true.1 hall c (by simp [hname])
    exact ⟨startsWord_of_startsName hc hterm, atomKind_of_startsName hc cs⟩

/-- A word that is neither a number nor a keyword is read as a symbol. -/
theorem spelledOne_symbol {name : String} (h : isSymbolName name = true) :
    SpelledOne name.toList (.symbol name) := by
  rw [isSymbolName, Bool.and_eq_true, Bool.and_eq_true, List.all_eq_true, beq_iff_eq] at h
  obtain ⟨⟨hstart, hall⟩, hkind⟩ := h
  rw [Outline.symbol]
  cases hname : name.toList with
  | nil => simp [hname] at hstart
  | cons c cs =>
    rw [hname] at hall hkind
    have hc : startsWord c = true := by simpa [hname] using hstart
    have hword := SpelledOne.word hc fun x hx => by simpa using hall x (List.mem_cons_of_mem _ hx)
    rwa [hkind] at hword

theorem spelled_symbol {name : String} (h : isSymbolName name = true) :
    Spelled name.toList [.symbol name] :=
  (spelledOne_symbol h).spelled

theorem spelledOne_keyword {name : String} (h : name.toList.all (!isTerminator ·) = true) :
    SpelledOne (':' :: name.toList) (.leaf .keyword (':' :: name.toList)) :=
  SpelledOne.word (by decide) fun x hx => by simpa using List.all_eq_true.1 h x hx

theorem spelledOne_literal {text : String} (h : isLiteral text = true) :
    SpelledOne ('"' :: text.toList ++ ['"']) (.leaf .string ('"' :: text.toList ++ ['"'])) := by
  rw [isLiteral, List.all_eq_true] at h
  exact SpelledOne.string fun x hx => by simpa using h x hx

theorem digit_of_mem_toDigits {n : Nat} {c : Char} (h : c ∈ Nat.toDigits 10 n) :
    isDigit c = true ∧ startsWord c = true ∧ isTerminator c = false := by
  have hd : isDigit c = true := Nat.isDigit_of_mem_toDigits (by decide) (by decide) h
  exact ⟨hd, forall_digit (P := fun c => startsWord c = true ∧ isTerminator c = false)
    (by decide) hd⟩

theorem spelledOne_digits (n : Nat) :
    SpelledOne (Nat.toDigits 10 n) (.leaf .number (Nat.toDigits 10 n)) := by
  have hdigits := @digit_of_mem_toDigits n
  obtain ⟨c, cs, hn⟩ := List.exists_cons_of_ne_nil (Nat.toDigits_ne_nil : Nat.toDigits 10 n ≠ [])
  rw [hn] at hdigits ⊢
  obtain ⟨hc, hstart, -⟩ := hdigits List.mem_cons_self
  have hword := SpelledOne.word hstart fun x hx => (hdigits (List.mem_cons_of_mem _ hx)).2.2
  have hkind : atomKind (c :: cs) = .number := by
    rw [atomKind, if_pos hc]
    rintro rfl
    exact absurd hc (by decide)
  rwa [hkind] at hword

/-- A number is a word with a sign in front or without one. -/
theorem spelledOne_int (value : Int) :
    SpelledOne (toString value).toList (.leaf .number (toString value).toList) := by
  cases value with
  | ofNat n =>
    have htext : (toString (Int.ofNat n)).toList = Nat.toDigits 10 n := Nat.toList_repr
    rw [htext]
    exact spelledOne_digits n
  | negSucc n =>
    have htext : (toString (Int.negSucc n)).toList = '-' :: Nat.toDigits 10 (n + 1) := by
      simp [Int.repr]
    rw [htext]
    have hdigits := @digit_of_mem_toDigits (n + 1)
    have hword := SpelledOne.word (c := '-') (by decide) fun x hx => (hdigits hx).2.2
    -- a sign belongs to a number only because a digit follows it
    have hkind : atomKind ('-' :: Nat.toDigits 10 (n + 1)) = .number := by
      obtain ⟨c, cs, hn⟩ :=
        List.exists_cons_of_ne_nil (Nat.toDigits_ne_nil : Nat.toDigits 10 (n + 1) ≠ [])
      rw [hn] at hdigits ⊢
      have hc := (hdigits List.mem_cons_self).1
      simp [atomKind, hc]
    rwa [hkind] at hword

/-! ### Forms -/

section

variable {text : List Char} {os : List Outline}

theorem spelledOne_list (h : SpelledAll text os) : SpelledOne ('(' :: text ++ [')']) (.list os) :=
  SpelledOne.collection (rfl : Kind.list.closer? = some ')') h

theorem spelledOne_vector (h : SpelledAll text os) :
    SpelledOne ('[' :: text ++ [']']) (.vector os) :=
  SpelledOne.collection (rfl : Kind.vector.closer? = some ']') h

namespace SpelledAll

variable {s t : List Char} {ps qs : List Outline}

/-- A single space between a form and the forms after it. -/
theorem space (hs : Spelled s ps) (h : SpelledAll text os) :
    SpelledAll (s ++ ' ' :: text) (ps ++ os) :=
  .cons (by decide) hs h

/-- A form that no other follows. -/
theorem last (hs : Spelled s ps) : SpelledAll s (ps ++ []) := by
  rw [List.append_nil]
  exact .one hs

/-- Two forms that belong together, and the forms after them. -/
theorem pair (hs : Spelled s ps) (ht : Spelled t qs) (h : SpelledAll text os) :
    SpelledAll (s ++ ' ' :: t ++ ' ' :: text) (ps ++ (qs ++ os)) := by
  rw [List.append_assoc, List.cons_append]
  exact .space hs (.space ht h)

end SpelledAll

end

theorem spelledAll_joinNames (names : List String) (h : names.all isSymbolName = true) :
    SpelledAll (joinNames names) (names.map .symbol) := by
  induction names with
  | nil => exact .nil
  | cons name names ih =>
    rw [List.all_cons, Bool.and_eq_true] at h
    have hname := spelled_symbol h.1
    cases names with
    | nil =>
      rw [joinNames, String.intercalate_singleton]
      exact .one hname
    | cons next names =>
      have htext : joinNames (name :: next :: names) =
          name.toList ++ ' ' :: joinNames (next :: names) := by
        simp [joinNames, String.intercalate_cons_cons]
      rw [htext]
      exact .space hname (ih h.2)

/-- The brackets and the body of a form with a syntax of its own. -/
theorem spelledAll_body {inner body : List Char} {os ps : List Outline}
    (hinner : SpelledAll inner os) (hbody : SpelledAll body ps) :
    SpelledAll (('[' :: inner ++ [']']) ++ ' ' :: body) (.vector os :: ps) :=
  .space (spelledOne_vector hinner).spelled hbody

/-- A list that begins with a word. -/
theorem spelledOne_headed (head : String) (hhead : isSymbolName head = true) {text : List Char}
    {os : List Outline} (h : SpelledAll text os) :
    SpelledOne ('(' :: (head.toList ++ ' ' :: text) ++ [')']) (.list (.symbol head :: os)) :=
  spelledOne_list (.space (spelled_symbol hhead) h)

namespace Form

/-! The forms with a syntax of their own, as lists that begin with a word. The
definition is opened by `rfl`: its equations are costly, as they compare literals. -/

section

variable (name : String) (params : List String) (bindings : List (String × Form))
  (body : List Form)

theorem render_fnDef : render (fnDef name params body) =
    '(' :: ("defn".toList ++ ' ' :: (name.toList ++
      ' ' :: (('[' :: joinNames params ++ [']']) ++ ' ' :: renderAll body))) ++ [')'] := by
  have h : render (fnDef name params body) = "(defn ".toList ++ name.toList ++ " [".toList ++
    joinNames params ++ "] ".toList ++ renderAll body ++ [')'] := rfl
  simp [h]

theorem render_letIn : render (letIn bindings body) =
    '(' :: ("let".toList ++
      ' ' :: (('[' :: renderBindings bindings ++ [']']) ++ ' ' :: renderAll body)) ++ [')'] := by
  have h : render (letIn bindings body) = "(let [".toList ++ renderBindings bindings ++
    "] ".toList ++ renderAll body ++ [')'] := rfl
  simp [h]

theorem render_lambda : render (lambda params body) =
    '(' :: ("fn".toList ++
      ' ' :: (('[' :: joinNames params ++ [']']) ++ ' ' :: renderAll body)) ++ [')'] := by
  have h : render (lambda params body) = "(fn [".toList ++ joinNames params ++
    "] ".toList ++ renderAll body ++ [')'] := rfl
  simp [h]

theorem render_loopIn : render (loopIn bindings body) =
    '(' :: ("loop".toList ++
      ' ' :: (('[' :: renderBindings bindings ++ [']']) ++ ' ' :: renderAll body)) ++ [')'] := by
  have h : render (loopIn bindings body) = "(loop [".toList ++ renderBindings bindings ++
    "] ".toList ++ renderAll body ++ [')'] := rfl
  simp [h]

end

/-- Whether a marker deactivates the form. -/
def isMarked : Form → Bool
  | discard _ => true
  | _ => false

/-- The text of the form spells its outline, as a single node if no marker deactivates it. -/
def IsSpelled (f : Form) : Prop :=
  Spelled f.render f.outline ∧
    (f.isMarked = false → ∃ o, f.outline = [o] ∧ SpelledOne f.render o)

theorem isSpelled_of_spelledOne {f : Form} {o : Outline} (houtline : f.outline = [o])
    (h : SpelledOne f.render o) : f.IsSpelled :=
  ⟨houtline ▸ h.spelled, fun _ => ⟨o, houtline, h⟩⟩

mutual

/-- The text of a readable form spells its outline. -/
theorem isSpelled : (f : Form) → f.isReadable = true → f.IsSpelled
  | symbol _, h => isSpelled_of_spelledOne rfl (spelledOne_symbol h)
  | keyword _, h => isSpelled_of_spelledOne rfl (spelledOne_keyword h)
  | int value, _ => isSpelled_of_spelledOne rfl (spelledOne_int value)
  | str _, h => isSpelled_of_spelledOne rfl (spelledOne_literal h)
  | nil, _ => isSpelled_of_spelledOne rfl (spelledOne_symbol (by decide))
  | bool true, _ => isSpelled_of_spelledOne rfl (spelledOne_symbol (by decide))
  | bool false, _ => isSpelled_of_spelledOne rfl (spelledOne_symbol (by decide))
  | list items, h => isSpelled_of_spelledOne rfl (spelledOne_list (spelledAll_renderAll items h))
  | vector items, h =>
    isSpelled_of_spelledOne rfl (spelledOne_vector (spelledAll_renderAll items h))
  | map entries, h => isSpelled_of_spelledOne rfl
    (.collection (rfl : Kind.map.closer? = some '\x7d') (spelledAll_renderEntries entries h))
  | set items, h => isSpelled_of_spelledOne rfl
    (.collection (rfl : Kind.set.closer? = some '\x7d') (spelledAll_renderAll items h))
  | shortFn items, h => isSpelled_of_spelledOne rfl
    (.collection (rfl : Kind.shortFn.closer? = some ')') (spelledAll_renderAll items h))
  | quoted form, h => isSpelled_of_spelledOne rfl (.quoted (isSpelled form h).1)
  | discard form, h => ⟨(isSpelled form h).1.discarded, fun hmarked => by cases hmarked⟩
  | fnDef name params body, h => by
    have hreadable : (isSymbolName name && params.all isSymbolName && isReadableAll body) = true := h
    rw [Bool.and_eq_true, Bool.and_eq_true] at hreadable
    refine isSpelled_of_spelledOne rfl ?_
    rw [render_fnDef]
    exact spelledOne_headed "defn" (by decide) (.space (spelled_symbol hreadable.1.1)
      (spelledAll_body (spelledAll_joinNames params hreadable.1.2)
        (spelledAll_renderAll body hreadable.2)))
  | letIn bindings body, h => by
    have hreadable : (isReadableBindings bindings && isReadableAll body) = true := h
    rw [Bool.and_eq_true] at hreadable
    refine isSpelled_of_spelledOne rfl ?_
    rw [render_letIn]
    exact spelledOne_headed "let" (by decide)
      (spelledAll_body (spelledAll_renderBindings bindings hreadable.1)
        (spelledAll_renderAll body hreadable.2))
  | lambda params body, h => by
    have hreadable : (params.all isSymbolName && isReadableAll body) = true := h
    rw [Bool.and_eq_true] at hreadable
    refine isSpelled_of_spelledOne rfl ?_
    rw [render_lambda]
    exact spelledOne_headed "fn" (by decide)
      (spelledAll_body (spelledAll_joinNames params hreadable.1) (spelledAll_renderAll body hreadable.2))
  | loopIn bindings body, h => by
    have hreadable : (isReadableBindings bindings && isReadableAll body) = true := h
    rw [Bool.and_eq_true] at hreadable
    refine isSpelled_of_spelledOne rfl ?_
    rw [render_loopIn]
    exact spelledOne_headed "loop" (by decide)
      (spelledAll_body (spelledAll_renderBindings bindings hreadable.1)
        (spelledAll_renderAll body hreadable.2))

theorem spelledAll_renderAll : (fs : List Form) → isReadableAll fs = true →
    SpelledAll (renderAll fs) (outlineAll fs)
  | [], _ => .nil
  | [f], h => by
    have hreadable : (isReadable f && isReadableAll []) = true := h
    rw [Bool.and_eq_true] at hreadable
    exact .last (isSpelled f hreadable.1).1
  | f :: g :: fs, h => by
    have hreadable : (isReadable f && isReadableAll (g :: fs)) = true := h
    rw [Bool.and_eq_true] at hreadable
    exact .space (isSpelled f hreadable.1).1 (spelledAll_renderAll (g :: fs) hreadable.2)

theorem spelledAll_renderEntries : (es : List (Form × Form)) → isReadableEntries es = true →
    SpelledAll (renderEntries es) (outlineEntries es)
  | [], _ => .nil
  | [(k, v)], h => by
    have hreadable : (isReadable k && isReadable v && isReadableEntries []) = true := h
    rw [Bool.and_eq_true, Bool.and_eq_true] at hreadable
    exact .space (isSpelled k hreadable.1.1).1 (.last (isSpelled v hreadable.1.2).1)
  | (k, v) :: e :: es, h => by
    have hreadable : (isReadable k && isReadable v && isReadableEntries (e :: es)) = true := h
    rw [Bool.and_eq_true, Bool.and_eq_true] at hreadable
    exact .pair (isSpelled k hreadable.1.1).1 (isSpelled v hreadable.1.2).1
      (spelledAll_renderEntries (e :: es) hreadable.2)

theorem spelledAll_renderBindings : (bs : List (String × Form)) → isReadableBindings bs = true →
    SpelledAll (renderBindings bs) (outlineBindings bs)
  | [], _ => .nil
  | [(name, v)], h => by
    have hreadable : (isSymbolName name && isReadable v && isReadableBindings []) = true := h
    rw [Bool.and_eq_true, Bool.and_eq_true] at hreadable
    exact .space (spelled_symbol hreadable.1.1) (.last (isSpelled v hreadable.1.2).1)
  | (name, v) :: e :: bs, h => by
    have hreadable : (isSymbolName name && isReadable v && isReadableBindings (e :: bs)) = true := h
    rw [Bool.and_eq_true, Bool.and_eq_true] at hreadable
    exact .pair (spelled_symbol hreadable.1.1) (isSpelled v hreadable.1.2).1
      (spelledAll_renderBindings (e :: bs) hreadable.2)

end

theorem spelled_render (f : Form) (h : f.isReadable = true) : Spelled f.render f.outline :=
  (f.isSpelled h).1

/-- A form that no marker deactivates is read as a single node. -/
theorem exists_spelledOne_render {f : Form} (h : f.isReadable = true)
    (hmarked : f.isMarked = false) :
    ∃ o, f.outline = [o] ∧ SpelledOne f.render o :=
  (f.isSpelled h).2 hmarked

end Form

/-! ### Plain programs are readable -/

theorem all_isSymbolName {names : List String} (h : names.all isName = true) :
    names.all isSymbolName = true := by
  rw [List.all_eq_true] at h ⊢
  exact fun name hname => isSymbolName_of_isName (h name hname)

namespace Form

mutual

theorem isReadable_of_isPlain : (f : Form) → f.isPlain = true → f.isReadable = true
  | symbol _, h => isSymbolName_of_isName h
  | keyword name, h => by
    have hname : isName name = true := h
    rw [isName, Bool.and_eq_true] at hname
    exact hname.2
  | str _, h => h
  | int _, _ | nil, _ | bool _, _ => rfl
  | list items, h | vector items, h | set items, h | shortFn items, h =>
    isReadableAll_of_isPlainAll items h
  | map entries, h => isReadableEntries_of_isPlainEntries entries h
  | quoted form, h | discard form, h => isReadable_of_isPlain form h
  | fnDef name params body, h => by
    have hplain : (isName name && params.all isName && isPlainAll body) = true := h
    rw [Bool.and_eq_true, Bool.and_eq_true] at hplain
    rw [isReadable, isSymbolName_of_isName hplain.1.1, all_isSymbolName hplain.1.2,
      isReadableAll_of_isPlainAll body hplain.2]
    rfl
  | lambda params body, h => by
    have hplain : (params.all isName && isPlainAll body) = true := h
    rw [Bool.and_eq_true] at hplain
    rw [isReadable, all_isSymbolName hplain.1, isReadableAll_of_isPlainAll body hplain.2]
    rfl
  | letIn bindings body, h | loopIn bindings body, h => by
    have hplain : (isPlainBindings bindings && isPlainAll body) = true := h
    rw [Bool.and_eq_true] at hplain
    rw [isReadable, isReadableBindings_of_isPlainBindings bindings hplain.1,
      isReadableAll_of_isPlainAll body hplain.2]
    rfl

theorem isReadableAll_of_isPlainAll : (fs : List Form) → isPlainAll fs = true →
    isReadableAll fs = true
  | [], _ => rfl
  | f :: fs, h => by
    have hplain : (isPlain f && isPlainAll fs) = true := h
    rw [Bool.and_eq_true] at hplain
    rw [isReadableAll, isReadable_of_isPlain f hplain.1, isReadableAll_of_isPlainAll fs hplain.2]
    rfl

theorem isReadableEntries_of_isPlainEntries : (es : List (Form × Form)) →
    isPlainEntries es = true → isReadableEntries es = true
  | [], _ => rfl
  | (k, v) :: es, h => by
    have hplain : (isPlain k && isPlain v && isPlainEntries es) = true := h
    rw [Bool.and_eq_true, Bool.and_eq_true] at hplain
    rw [isReadableEntries, isReadable_of_isPlain k hplain.1.1, isReadable_of_isPlain v hplain.1.2,
      isReadableEntries_of_isPlainEntries es hplain.2]
    rfl

theorem isReadableBindings_of_isPlainBindings : (bs : List (String × Form)) →
    isPlainBindings bs = true → isReadableBindings bs = true
  | [], _ => rfl
  | (name, v) :: bs, h => by
    have hplain : (isName name && isPlain v && isPlainBindings bs) = true := h
    rw [Bool.and_eq_true, Bool.and_eq_true] at hplain
    rw [isReadableBindings, isSymbolName_of_isName hplain.1.1, isReadable_of_isPlain v hplain.1.2,
      isReadableBindings_of_isPlainBindings bs hplain.2]
    rfl

end

end Form

/-! ### Programs -/

theorem spelledAll_lines (forms : List Form) (h : ∀ f ∈ forms, f.isReadable = true) :
    SpelledAll (forms.flatMap fun f => f.render ++ ['\n']) (forms.flatMap Form.outline) := by
  induction forms with
  | nil => exact .nil
  | cons f fs ih =>
    rw [List.flatMap_cons, List.flatMap_cons, List.append_assoc]
    exact .cons (by decide) (f.spelled_render (h f List.mem_cons_self))
      (ih fun g hg => h g (List.mem_cons_of_mem _ hg))

namespace Program

variable {p : Program}

/-- The text of a plain program spells its outline. -/
theorem spelledAll_render (h : p.isPlain = true) : SpelledAll p.render p.outline := by
  rw [isPlain, Bool.and_eq_true] at h
  have htext : p.render = ('(' :: ("ns".toList ++ ' ' :: p.nsName.toList) ++ [')']) ++
      '\n' :: p.forms.flatMap fun f => f.render ++ ['\n'] := by
    have hrender : p.render = "(ns ".toList ++ p.nsName.toList ++ ")\n".toList ++
      p.forms.flatMap fun f => f.render ++ ['\n'] := rfl
    simp [hrender]
  rw [htext]
  exact .cons (by decide)
    (spelledOne_headed "ns" (by decide)
      (.one (spelled_symbol (isSymbolName_of_isName h.1)))).spelled
    (spelledAll_lines p.forms fun f hf =>
      f.isReadable_of_isPlain (List.all_eq_true.1 h.2 f hf))

end Program

/-- The kind of the node that an outline stands for. -/
def Outline.kind : Outline → Kind
  | leaf kind _ | node kind _ => kind

theorem Node.kind_outline (src : List Char) (n : Node) : (n.outline src).kind = n.kind := by
  obtain ⟨id, kind, span, children⟩ := n
  cases children <;> rw [Node.outline] <;> rfl

/-- The forms among nodes are those among their outlines. -/
theorem Node.length_filter_isForm (src : List Char) (ns : List Node) :
    (ns.filter (·.kind.isForm)).length =
      (Node.outlineAll src ns).countP (·.kind.isForm) := by
  rw [← List.countP_eq_length_filter]
  induction ns with
  | nil => rfl
  | cons n ns ih =>
    rw [Node.outlineAll]
    split
    · next hn => rw [List.countP_cons_of_neg (by simp [hn, Kind.isForm]), ih]
    · rw [List.countP_cons, List.countP_cons, ih, Node.kind_outline]

/-- Markers are no forms: a form is read into one form. -/
theorem Form.countP_outline : (f : Form) → f.outline.countP (·.kind.isForm) = 1
  | symbol _ | keyword _ | int _ | str _ | nil | bool _ => rfl
  | list _ | vector _ | map _ | set _ | shortFn _ | quoted _ => rfl
  | fnDef .. | letIn .. | lambda .. | loopIn .. => rfl
  | discard form => countP_outline form

theorem Program.countP_outline (p : Program) :
    p.outline.countP (·.kind.isForm) = p.forms.length + 1 := by
  have hforms : (p.forms.flatMap Form.outline).countP (·.kind.isForm) = p.forms.length := by
    induction p.forms with
    | nil => rfl
    | cons f fs ih =>
      rw [List.flatMap_cons, List.countP_append, Form.countP_outline, ih, List.length_cons,
        Nat.add_comm]
  rw [Program.outline, List.countP_cons_of_pos rfl, hforms]

/-- Reading the text of a program gives back the program: the list of its
    namespace and the nodes of its forms, and blanks between them. Nothing is left
    open and nothing is stray, and there is one form more than in the program. -/
theorem Program.outline_read_render (p : Program) (h : p.isPlain = true) :
    (Tree.read p.render).outline = p.outline ∧
      (∀ n ∈ (Tree.read p.render).nodes, n.kind ≠ .error) ∧
      (∀ n ∈ (Tree.read p.render).nodes, n.kind.isCollection = true → n.isClosed = true) ∧
      (Tree.read p.render).root.forms.length = p.forms.length + 1 := by
  obtain ⟨hsource, hnodes, hroot⟩ := (spelledAll_render h).outlined_read
  refine ⟨?_, fun n hn => (hnodes n hn).1, fun n hn => (hnodes n hn).2, ?_⟩
  · rw [Tree.outline, hsource, hroot]
  · rw [Node.forms, Node.length_filter_isForm p.render, hroot, countP_outline]

/-- A program with quoted and deactivated forms, a map with a vector in it, and a
    body without forms. -/
def nestedProgram : Program :=
  ⟨"app", [
    .fnDef "$f" ["x", "y"] [.quoted (.discard (.symbol "x")), .str "a b"],
    .discard (.letIn [("n", .int (-12)), ("m", .map [(.keyword "k", .vector [.nil])])] []),
    .shortFn [.quoted (.quoted (.set [.bool true]))]]⟩

theorem Program.outline_read_render_nested :
    nestedProgram.isPlain = true ∧
      (Tree.read nestedProgram.render).outline = nestedProgram.outline ∧
      (∀ n ∈ (Tree.read nestedProgram.render).nodes, n.kind ≠ .error) ∧
      (∀ n ∈ (Tree.read nestedProgram.render).nodes,
        n.kind.isCollection = true → n.isClosed = true) ∧
      (Tree.read nestedProgram.render).root.forms.length = 4 :=
  have hplain : nestedProgram.isPlain = true := by decide
  ⟨hplain, Program.outline_read_render nestedProgram hplain⟩

end Typeahead
