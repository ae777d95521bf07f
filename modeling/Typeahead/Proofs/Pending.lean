import Typeahead.Proofs.Slice
import Typeahead.Tree.Lexeme
import Typeahead.Tree.MarkerText

/-!
# Pending markers

A scan of a text shows its markers, names and keywords in order (`shown`). Each
name uses up one of the markers before it, if there is one left, so what is left
of them is a counter that does not go below zero (`unspent`). It is positive if
and only if, from some point on, the scan shows more markers than names.

A scan can be cut where the text before the cut is *settled*: no name goes on
across the cut, and the scan looks no further ahead than the cut. What is pending
at the cut then depends only on what the text before it shows, and on whether the
text after it begins with a name.

* `unspent_pos_iff`: when markers are left;
* `isPendingAt_append`: what is pending at a cut;
* `beginsName_of_isPendingAt`: nothing is pending where no name begins.
-/

namespace Typeahead

/-! ### Counting markers -/

/-- What a scan of a text shows: its markers, as `true`, and its names and
    keywords, as `false`. -/
def shown (cs : List Char) : List Bool := (scanMarkers false 0 cs).map Prod.snd

/-- The number of markers left of `pending` and those shown, if each name uses up
    one. -/
def unspent (pending : Nat) : List Bool → Nat
  | [] => pending
  | true :: items => unspent (pending + 1) items
  | false :: items => unspent (pending - 1) items

theorem unspent_append (pending : Nat) (as bs : List Bool) :
    unspent pending (as ++ bs) = unspent (unspent pending as) bs := by
  induction as generalizing pending with
  | nil => rfl
  | cons a as ih => cases a <;> exact ih _

theorem unspent_replicate_true (pending n : Nat) :
    unspent pending (List.replicate n true) = pending + n := by
  induction n generalizing pending with
  | zero => rfl
  | succ n ih => rw [List.replicate_succ, unspent, ih]; omega

theorem unspent_replicate_false (pending n : Nat) :
    unspent pending (List.replicate n false) = pending - n := by
  induction n generalizing pending with
  | zero => rfl
  | succ n ih => rw [List.replicate_succ, unspent, ih]; omega

/-- More than `k` markers are left if and only if there were enough to begin with,
    or, from some point on, there are that many more markers than names. -/
theorem lt_unspent_iff {k pending : Nat} {items : List Bool} :
    k < unspent pending items ↔ k + items.count false < pending + items.count true ∨
      ∃ as bs, items = as ++ bs ∧ k + bs.count false < bs.count true := by
  induction items generalizing pending with
  | nil => simp [unspent]
  | cons item items ih =>
    -- a part at the end of `item :: items` is the whole or a part at the end of `items`
    have hcons : (∃ as bs, item :: items = as ++ bs ∧ k + bs.count false < bs.count true) ↔
        k + (item :: items).count false < (item :: items).count true ∨
          ∃ as bs, items = as ++ bs ∧ k + bs.count false < bs.count true := by
      constructor
      · rintro ⟨as, bs, h, hlt⟩
        cases as with
        | nil =>
          rw [List.nil_append] at h
          exact .inl (h ▸ hlt)
        | cons a as => exact .inr ⟨as, bs, (List.cons.inj h).2, hlt⟩
      · rintro (hlt | ⟨as, bs, rfl, hlt⟩)
        · exact ⟨[], item :: items, rfl, hlt⟩
        · exact ⟨item :: as, bs, rfl, hlt⟩
    rw [hcons]
    have hself : k + items.count false < items.count true →
        ∃ as bs, items = as ++ bs ∧ k + bs.count false < bs.count true :=
      fun hlt => ⟨[], items, rfl, hlt⟩
    cases item with
    | true =>
      rw [unspent, ih, List.count_cons_of_ne (by decide), List.count_cons_self]
      constructor
      · rintro (h | h)
        · exact .inl (by omega)
        · exact .inr (.inr h)
      · rintro (h | h | h)
        · exact .inl (by omega)
        · exact .inl (by omega)
        · exact .inr h
    | false =>
      rw [unspent, ih, List.count_cons_self, List.count_cons_of_ne (by decide)]
      constructor
      · rintro (h | h)
        · rcases Nat.eq_zero_or_pos pending with h0 | hpos
          · exact .inr (.inr (hself (by omega)))
          · exact .inl (by omega)
        · exact .inr (.inr h)
      · rintro (h | h | h)
        · exact .inl (by omega)
        · exact .inl (by omega)
        · exact .inr h

/-- Markers are left if and only if, from some point on, there are more markers
    than names. -/
theorem unspent_pos_iff {items : List Bool} :
    0 < unspent 0 items ↔ ∃ as bs, items = as ++ bs ∧ bs.count false < bs.count true := by
  rw [lt_unspent_iff]
  simp only [Nat.zero_add]
  constructor
  · rintro (h | h)
    · exact ⟨[], items, rfl, h⟩
    · exact h
  · exact .inr

/-! ### Items of a scan -/

theorem isPendingAmong_append {offset : Nat} {items : List (Nat × Bool)}
    (h : ∀ i ∈ items, i.1 < offset) (pending : Nat) (rest : List (Nat × Bool)) :
    isPendingAmong offset pending (items ++ rest) =
      isPendingAmong offset (unspent pending (items.map Prod.snd)) rest := by
  induction items generalizing pending with
  | nil => rfl
  | cons i items ih =>
    have hi : i.1 < offset := h i List.mem_cons_self
    have hrest := ih fun j hj => h j (List.mem_cons_of_mem _ hj)
    obtain ⟨start, marker⟩ := i
    cases marker with
    | true =>
      rw [List.cons_append, isPendingAmong, if_pos hi, hrest]
      rfl
    | false =>
      rw [List.cons_append, isPendingAmong, if_neg (Nat.not_le.2 hi), hrest]
      rfl

theorem isPendingAmong_of_lt {offset : Nat} {items : List (Nat × Bool)}
    (h : ∀ i ∈ items, offset < i.1) (pending : Nat) :
    isPendingAmong offset pending items = false := by
  induction items with
  | nil => rfl
  | cons i items ih =>
    have hi : offset < i.1 := h i List.mem_cons_self
    have hrest := ih fun j hj => h j (List.mem_cons_of_mem _ hj)
    obtain ⟨start, marker⟩ := i
    cases marker with
    | true => rw [isPendingAmong, if_neg (Nat.not_lt.2 (Nat.le_of_lt hi)), hrest]
    | false =>
      have hne : (start == offset) = false := beq_eq_false_iff_ne.2 (Nat.ne_of_gt hi)
      rw [isPendingAmong, if_pos (Nat.le_of_lt hi), hne, Bool.false_and]

/-- The items of a scan lie in the text. -/
theorem start_of_mem_scanMarkers {inWord : Bool} {start : Nat} {cs : List Char} {i : Nat × Bool}
    (h : i ∈ scanMarkers inWord start cs) : start ≤ i.1 ∧ i.1 < start + byteLength cs := by
  induction cs generalizing inWord start with
  | nil => exact absurd h List.not_mem_nil
  | cons c cs ih =>
    have hpos := c.utf8Size_pos
    -- an item after the first character
    have hnext : ∀ {inWord : Bool}, i ∈ scanMarkers inWord (start + c.utf8Size) cs →
        start ≤ i.1 ∧ i.1 < start + byteLength (c :: cs) := by
      intro inWord hi
      have hi := ih hi
      rw [byteLength_cons]
      omega
    have hfirst : start < start + byteLength (c :: cs) := by
      rw [byteLength_cons]
      omega
    rw [scanMarkers] at h
    split at h
    · exact hnext h
    split at h
    · rcases List.mem_cons.1 h with rfl | h
      · exact ⟨Nat.le_refl _, hfirst⟩
      · exact hnext h
    split at h
    · rcases List.mem_cons.1 h with rfl | h
      · exact ⟨Nat.le_refl _, hfirst⟩
      · exact hnext h
    · exact hnext h

/-! ### Cutting a scan -/

/-- Scanning `a ++ b` is scanning `a` and then `b`, as if it stood alone. -/
def Settled (a b : List Char) : Prop :=
  ∀ inWord start, scanMarkers inWord start (a ++ b) =
    scanMarkers inWord start a ++ scanMarkers false (start + byteLength a) b

/-- Whether the text begins with a name or a keyword. -/
def beginsName : List Char → Bool
  | [] => false
  | c :: cs => isAsciiLetter c || (c == ':' && cs.head?.any isNameChar)

/-- Only the end of the text before a cut matters. -/
theorem Settled.append_left {a b : List Char} (h : Settled a b) (hne : a ≠ []) (s : List Char) :
    Settled (s ++ a) b := by
  induction s with
  | nil => exact h
  | cons c s ih =>
    intro inWord start
    -- what is seen ahead of `c` is in `s ++ a`
    have hhead : (s ++ a ++ b).head? = (s ++ a).head? := by
      rw [List.head?_append]
      cases hs : (s ++ a).head? with
      | none =>
        have hnil := List.head?_eq_none_iff.1 hs
        exact absurd (List.append_eq_nil_iff.1 hnil).2 hne
      | some x => rfl
    rw [List.cons_append, List.cons_append, scanMarkers, scanMarkers, hhead, byteLength_cons,
      ← Nat.add_assoc]
    split
    · exact ih _ _
    split
    · rw [ih]
      rfl
    split
    · rw [ih]
      rfl
    · exact ih _ _

theorem isNameChar_of_isAsciiLetter {c : Char} (h : isAsciiLetter c = true) :
    isNameChar c = true := by
  obtain ⟨rest, hranges⟩ : ∃ rest, wordRanges =
      (0x30, 0x39) :: (0x41, 0x5a) :: (0x5f, 0x5f) :: (0x61, 0x7a) :: rest := ⟨_, rfl⟩
  have hnat : (97 ≤ c.toNat ∧ c.toNat ≤ 122) ∨ (65 ≤ c.toNat ∧ c.toNat ≤ 90) := by
    simp only [isAsciiLetter, Bool.or_eq_true, Bool.and_eq_true, decide_eq_true_eq] at h
    exact h
  have hword : isWordChar c = true := by
    rw [isWordChar, hranges]
    simp only [inRanges]
    rcases hnat with ⟨hlo, hhi⟩ | ⟨hlo, hhi⟩
    · rw [if_neg (by omega), if_neg (by omega), if_neg (by omega), if_pos hhi]
      exact decide_eq_true hlo
    · rw [if_neg (by omega), if_pos hhi]
      exact decide_eq_true hlo
  rw [isNameChar, hword, Bool.true_or]

/-- A text is settled after a character that is no part of a name, unless the
    character begins a marker or a keyword together with the next one. -/
theorem settled_singleton {c : Char} {b : List Char} (hname : isNameChar c = false)
    (hmarker : c = '#' → b.head? ≠ some '_')
    (hkeyword : c = ':' → b.head?.any isNameChar = false) : Settled [c] b := by
  have hletter : isAsciiLetter c = false := by
    rw [Bool.eq_false_iff]
    intro h
    rw [isNameChar_of_isAsciiLetter h] at hname
    cases hname
  intro inWord start
  have hscan : ∀ cs : List Char, (c = '#' → cs.head? ≠ some '_') →
      (c = ':' → cs.head?.any isNameChar = false) →
        scanMarkers inWord start (c :: cs) = scanMarkers false (start + c.utf8Size) cs := by
    intro cs hm hk
    rw [scanMarkers, hname, Bool.and_false, if_neg Bool.false_ne_true, hletter, Bool.false_or]
    rw [if_neg, if_neg]
    · rw [Bool.and_eq_true, beq_iff_eq]
      rintro ⟨hc, hany⟩
      rw [hk hc] at hany
      cases hany
    · rw [Bool.and_eq_true, beq_iff_eq, beq_iff_eq]
      exact fun ⟨hc, hhead⟩ => hm hc hhead
  rw [List.cons_append, List.nil_append, hscan b hmarker hkeyword, hscan [] nofun fun _ => rfl]
  rfl

theorem settled_marker (b : List Char) : Settled ['#', '_'] b := by
  have hsign : isNameChar '#' = false := by decide
  intro inWord start
  have hscan : ∀ cs : List Char, scanMarkers inWord start ('#' :: '_' :: cs) =
      (start, true) :: scanMarkers false (start + '#'.utf8Size + '_'.utf8Size) cs := by
    intro cs
    have hmarker : ('#' == '#' && ('_' :: cs).head? == some '_') = true := rfl
    rw [scanMarkers, hsign, Bool.and_false, if_neg Bool.false_ne_true, if_pos hmarker, scanMarkers]
    rfl
  rw [List.cons_append, List.cons_append, List.nil_append, hscan, hscan, byteLength_cons,
    byteLength_cons, Nat.add_assoc]
  rfl

/-- At a cut, a marker is pending if and only if a name begins there and the text
    before it shows more markers than are used up. -/
theorem isPendingAt_append {a b : List Char} (h : Settled a b) :
    isPendingAt (a ++ b) (byteLength a) = (beginsName b && decide (0 < unspent 0 (shown a))) := by
  have hbefore : ∀ i ∈ scanMarkers false 0 a, i.1 < byteLength a := fun i hi => by
    have hi := (start_of_mem_scanMarkers hi).2
    rwa [Nat.zero_add] at hi
  rw [isPendingAt, h, isPendingAmong_append hbefore, Nat.zero_add]
  change isPendingAmong (byteLength a) (unspent 0 (shown a)) _ = _
  cases b with
  | nil => rfl
  | cons c cs =>
    have hafter : ∀ {inWord : Bool}, ∀ i ∈ scanMarkers inWord (byteLength a + c.utf8Size) cs,
        byteLength a < i.1 := fun i hi => by
      have hi := (start_of_mem_scanMarkers hi).1
      have hpos := c.utf8Size_pos
      omega
    rw [scanMarkers, Bool.false_and, if_neg Bool.false_ne_true, beginsName]
    split
    · next hmarker =>
      rw [Bool.and_eq_true, beq_iff_eq] at hmarker
      rw [isPendingAmong, isPendingAmong_of_lt hafter, hmarker.1]
      rfl
    split
    · next hname =>
      rw [isPendingAmong, if_pos (Nat.le_refl _), hname, beq_self_eq_true]
    · next hname => rw [isPendingAmong_of_lt hafter, Bool.eq_false_iff.2 hname, Bool.false_and]

/-! ### Where something can be pending -/

theorem mem_of_isPendingAmong {offset pending : Nat} {items : List (Nat × Bool)}
    (h : isPendingAmong offset pending items = true) : (offset, false) ∈ items := by
  induction items generalizing pending with
  | nil => cases h
  | cons i items ih =>
    obtain ⟨start, marker⟩ := i
    cases marker with
    | true => exact List.mem_cons_of_mem _ (ih h)
    | false =>
      rw [isPendingAmong] at h
      split at h
      · rw [Bool.and_eq_true, beq_iff_eq] at h
        rw [h.1]
        exact List.mem_cons_self
      · exact List.mem_cons_of_mem _ (ih h)

/-- Where a scan shows a name, the text from there on begins with one. -/
theorem exists_beginsName_of_mem_scanMarkers {inWord : Bool} {start offset : Nat} {cs : List Char}
    (h : (offset, false) ∈ scanMarkers inWord start cs) :
    ∃ a b, cs = a ++ b ∧ start + byteLength a = offset ∧ beginsName b = true := by
  induction cs generalizing inWord start with
  | nil => exact absurd h List.not_mem_nil
  | cons c cs ih =>
    have hnext : ∀ {inWord : Bool}, (offset, false) ∈ scanMarkers inWord (start + c.utf8Size) cs →
        ∃ a b, c :: cs = a ++ b ∧ start + byteLength a = offset ∧ beginsName b = true := by
      intro inWord hi
      obtain ⟨a, b, rfl, hoffset, hb⟩ := ih hi
      exact ⟨c :: a, b, rfl, by rw [byteLength_cons]; omega, hb⟩
    rw [scanMarkers] at h
    split at h
    · exact hnext h
    split at h
    · rcases List.mem_cons.1 h with heq | h
      · cases heq
      · exact hnext h
    split at h
    · next hname =>
      rcases List.mem_cons.1 h with heq | h
      · cases heq
        exact ⟨[], c :: cs, rfl, rfl, hname⟩
      · exact hnext h
    · exact hnext h

/-- Nothing is pending where no name begins. -/
theorem beginsName_of_isPendingAt {a b : List Char}
    (h : isPendingAt (a ++ b) (byteLength a) = true) : beginsName b = true := by
  obtain ⟨a', b', hcs, hlength, hb⟩ :=
    exists_beginsName_of_mem_scanMarkers (mem_of_isPendingAmong h)
  rw [Nat.zero_add] at hlength
  obtain ⟨-, rfl⟩ := append_inj_of_byteLength hcs hlength.symm
  exact hb

/-! ### Names -/

/-- A name goes on over the characters of names. -/
theorem scanMarkers_append_of_isNameChar {cs : List Char} (h : ∀ c ∈ cs, isNameChar c = true)
    (start : Nat) (b : List Char) :
    scanMarkers true start (cs ++ b) = scanMarkers true (start + byteLength cs) b := by
  induction cs generalizing start with
  | nil => rfl
  | cons c cs ih =>
    rw [List.cons_append, scanMarkers, h c List.mem_cons_self, Bool.and_self, if_pos rfl,
      ih fun x hx => h x (List.mem_cons_of_mem _ hx), byteLength_cons, Nat.add_assoc]

end Typeahead
