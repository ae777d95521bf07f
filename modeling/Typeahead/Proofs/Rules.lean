import Typeahead.Proofs.Shadowing

/-!
# Rules of binding forms

A list introduces names by a *rule*: by the pattern in a slot among its active forms,
or by the clauses of its binding vector, whose forms make them in some style. With the
rule as data, it can be said what a further form changes. The clauses that the forms
before a cursor make are of two sorts: those that stay as they are, and those that
are *unfinished*, because the form that they wait for would come next.

* `Tree.clausesAt_eq`: the clauses of a list are those of its rule;
* `NameSlot.find_append`: what a slot finds among the first forms, it finds among all;
* `Style.exists_finishes`: as soon as a form comes after the cursor, unfinished
  clauses are out of sight.
-/

namespace Typeahead

/-- Where the form that introduces names stands in a list. -/
inductive NameSlot
  /-- The first form. -/
  | first
  /-- The first vector after the head and before any call. -/
  | parameters
  /-- The form after the head, if it is a vector. -/
  | bindings
  /-- The second form after the head. -/
  | third
  deriving DecidableEq, Repr

/-- The form in a slot. -/
def NameSlot.find : NameSlot → List Node → Option Node
  | first, fs => fs.head?
  | parameters, fs => ((fs.drop 1).takeWhile (!·.kind.isCall)).find? (·.kind == .vector)
  | bindings, fs => fs[1]?.filter (·.kind == .vector)
  | third, fs => fs[2]?

/-- How the forms of a vector make clauses. -/
inductive Style
  /-- Names and values in turn. -/
  | pairs
  /-- The first name and its value only. -/
  | firstPair
  /-- Names, and last the collection that they go through. -/
  | each
  /-- The clauses of a comprehension. -/
  | comprehension
  deriving DecidableEq, Repr

/-- The clauses that the forms of a vector make. -/
def Style.clauses (t : Tree) : Style → List Node → List Clause
  | pairs, fs => Clause.ofPairs fs
  | firstPair, fs => (Clause.ofPairs fs).take 1
  | each, fs => Clause.ofEach fs
  | comprehension, fs => t.forClauses fs

/-- How a list names what it binds. -/
inductive Naming
  /-- By the pattern in a slot. -/
  | pattern (slot : NameSlot)
  /-- By the clauses of its binding vector. -/
  | vector (style : Style)
  deriving DecidableEq, Repr

namespace Naming

/-- The slot of the form that has the clauses. -/
def slot : Naming → NameSlot
  | pattern s => s
  | vector _ => .bindings

/-- The clauses of the form in the slot. -/
def clausesOf (t : Tree) : Naming → Node → List Clause
  | pattern _, p => [.atEnd p]
  | vector s, v => s.clauses t v.activeForms

end Naming

/-- How a list introduces names. -/
structure Rule where
  kind : BindingKind
  naming : Naming
  deriving DecidableEq, Repr

/-- The clauses that a list with the given active forms has by a rule. -/
def Rule.clauses (t : Tree) (r : Rule) (fs : List Node) : List Clause :=
  ((r.naming.slot.find fs).map (r.naming.clausesOf t)).getD []

/-- The rule for lists with a given head. -/
def Head.rule? : Head → Option Rule
  | .lambda | .fnDef | .fnDefPrivate | .macroDef | .macroDefPrivate =>
    some ⟨.parameter, .pattern .parameters⟩
  | .letIn | .bindingIn => some ⟨.letBinding, .vector .pairs⟩
  | .loopIn => some ⟨.loopBinding, .vector .pairs⟩
  | .forIn | .doFor => some ⟨.forBinding, .vector .comprehension⟩
  | .forEach => some ⟨.forBinding, .vector .each⟩
  | .ifLet => some ⟨.ifLetBinding, .vector .firstPair⟩
  | .whenLet => some ⟨.whenLetBinding, .vector .firstPair⟩
  | .catchIn => some ⟨.catchBinding, .pattern .third⟩
  | _ => none

namespace Tree

variable (t : Tree)

/-- The rule for a list; one that starts with a vector is an arity of the function
    around it. -/
def rule? (l : Location) : Option Rule :=
  match l.node.activeForms.head? with
  | none => none
  | some first =>
    if first.kind = .vector then
      if t.isInFunction l then some ⟨.parameter, .pattern .first⟩ else none
    else (t.head? l.node).bind Head.rule?

theorem headClauses_eq (n : Node) (h : Head) : t.headClauses n h =
    ((h.rule?.map fun r => (r.clauses t n.activeForms).map (r.kind, ·)).getD []) := by
  have hpattern : ∀ (kind : BindingKind) (slot : NameSlot),
      ((slot.find n.activeForms).map fun p => (kind, Clause.atEnd p)).toList =
        (Rule.clauses t ⟨kind, .pattern slot⟩ n.activeForms).map (kind, ·) := by
    intro kind slot
    rw [Rule.clauses, Naming.slot]
    cases slot.find n.activeForms <;> rfl
  have hvector : ∀ (kind : BindingKind) (s : Style),
      headClauses.vectorClauses n kind (s.clauses t) =
        (Rule.clauses t ⟨kind, .vector s⟩ n.activeForms).map (kind, ·) := by
    intro kind s
    have hfind : NameSlot.bindings.find n.activeForms = n.bindingVector? := rfl
    rw [headClauses.vectorClauses, Rule.clauses, Naming.slot, hfind]
    cases n.bindingVector? <;> rfl
  cases h with
  | lambda | fnDef | fnDefPrivate | macroDef | macroDefPrivate =>
    exact hpattern .parameter .parameters
  | catchIn => exact hpattern .catchBinding .third
  | letIn | bindingIn => exact hvector .letBinding .pairs
  | loopIn => exact hvector .loopBinding .pairs
  | forIn | doFor => exact hvector .forBinding .comprehension
  | forEach => exact hvector .forBinding .each
  | ifLet => exact hvector .ifLetBinding .firstPair
  | whenLet => exact hvector .whenLetBinding .firstPair
  | _ => rfl

/-- The clauses of a list are those of its rule. -/
theorem clausesAt_eq (l : Location) : t.clausesAt l =
    (((t.rule? l).map fun r => (r.clauses t l.node.activeForms).map (r.kind, ·)).getD []) := by
  rw [clausesAt, rule?]
  cases hfirst : l.node.activeForms.head? with
  | none => rfl
  | some first =>
    dsimp only
    split
    · split
      · have hfind : NameSlot.first.find l.node.activeForms = some first := hfirst
        simp only [Option.map_some, Option.getD_some, Rule.clauses, Naming.slot, hfind]
        rfl
      · rfl
    · cases t.head? l.node with
      | none => rfl
      | some h => exact t.headClauses_eq l.node h

/-- The names that clauses make visible to a cursor. -/
def seen (cursor : Location) (offset : Nat) (cs : List Clause) : List String :=
  cs.flatMap fun c =>
    if offset < c.visibleFrom || cursor.isWithin c.pattern then []
    else ((t.boundNames c.pattern).filter (·.span.stop ≤ offset)).map t.text

end Tree

/-- The binding of a name by a rule, behind so many functions. -/
def Rule.binding (r : Rule) (depth : Nat) (name : String) : Binding :=
  { name, kind := r.kind, depth := .within depth }

namespace Tree

variable {t : Tree} {cursor : Location} {offset : Nat}

theorem bindingsAt_eq (depth : Nat) (l : Location) : t.bindingsAt cursor offset depth l =
    (((t.rule? l).map fun r =>
      (t.seen cursor offset (r.clauses t l.node.activeForms)).map (r.binding depth)).getD []) := by
  rw [bindingsAt, clausesAt_eq]
  cases t.rule? l with
  | none => rfl
  | some r =>
    rw [Option.map_some, Option.map_some, Option.getD_some, Option.getD_some, List.flatMap_map,
      seen, List.map_flatMap]
    congr 1
    funext c
    dsimp only
    split
    · rfl
    · rw [List.map_map]
      rfl

theorem seen_append (cs ds : List Clause) :
    t.seen cursor offset (cs ++ ds) = t.seen cursor offset cs ++ t.seen cursor offset ds :=
  List.flatMap_append

theorem seen_cons (c : Clause) (cs : List Clause) :
    t.seen cursor offset (c :: cs) = t.seen cursor offset [c] ++ t.seen cursor offset cs :=
  seen_append [c] cs

/-- Clauses that become visible after the cursor only are out of sight. -/
theorem seen_eq_nil {cs : List Clause} (h : ∀ c ∈ cs, offset < c.visibleFrom) :
    t.seen cursor offset cs = [] := by
  rw [seen, List.flatMap_eq_nil_iff]
  intro c hc
  rw [decide_eq_true (h c hc), Bool.true_or, if_pos rfl]

end Tree

/-! ### Slots -/

namespace NameSlot

variable (s : NameSlot)

theorem mem_of_find {fs : List Node} {p : Node} (h : s.find fs = some p) : p ∈ fs := by
  cases s with
  | first => exact List.mem_of_mem_head? h
  | parameters =>
    exact List.drop_subset _ _ (List.takeWhile_subset _ (List.mem_of_find?_eq_some h))
  | bindings => exact List.mem_of_getElem? (Option.filter_eq_some_iff.1 h).1
  | third => exact List.mem_of_getElem? h

/-- What a slot finds among the first forms, it finds among all. -/
theorem find_append (fs gs : List Node) :
    s.find (fs ++ gs) = s.find fs ∨
      s.find fs = none ∧ ∀ p, s.find (fs ++ gs) = some p → p ∈ gs := by
  have hget : ∀ i, (fs ++ gs)[i]? = fs[i]? ∨
      fs[i]? = none ∧ (fs ++ gs)[i]? = gs[i - fs.length]? := by
    intro i
    by_cases hi : i < fs.length
    · exact .inl (List.getElem?_append_left hi)
    · exact .inr ⟨List.getElem?_eq_none (by omega), List.getElem?_append_right (by omega)⟩
  cases s with
  | first =>
    cases fs with
    | nil => exact .inr ⟨rfl, fun p hp => List.mem_of_mem_head? hp⟩
    | cons f fs => exact .inl rfl
  | third =>
    rcases hget 2 with h | ⟨hnone, h⟩
    · exact .inl h
    · exact .inr ⟨hnone, fun p hp => List.mem_of_getElem? (h.symm.trans hp)⟩
  | bindings =>
    rcases hget 1 with h | ⟨hnone, h⟩
    · exact .inl (congrArg (Option.filter _) h)
    · refine .inr ⟨congrArg (Option.filter _) hnone, fun p hp => ?_⟩
      exact List.mem_of_getElem? (h.symm.trans (Option.filter_eq_some_iff.1 hp).1)
  | parameters =>
    cases fs with
    | nil => exact .inr ⟨rfl, fun p hp => NameSlot.mem_of_find .parameters hp⟩
    | cons f fs =>
      have hfind : ∀ hs, NameSlot.parameters.find (f :: hs) =
          (hs.takeWhile (!·.kind.isCall)).find? (·.kind == .vector) := fun _ => rfl
      -- a call among the first forms ends the search, else it goes on behind them
      rw [List.cons_append, hfind, hfind, List.takeWhile_append]
      split
      · next hlength =>
        rw [(List.takeWhile_prefix _).eq_of_length hlength, List.find?_append]
        cases fs.find? (·.kind == .vector) with
        | some q => exact .inl rfl
        | none =>
          refine .inr ⟨rfl, fun p hp => ?_⟩
          exact List.takeWhile_subset _ (List.mem_of_find?_eq_some hp)
      · exact .inl rfl

/-- A slot looks at kinds only. -/
theorem find_map {f : Node → Node} {fs : List Node} (hf : ∀ n ∈ fs, (f n).kind = n.kind) :
    s.find (fs.map f) = (s.find fs).map f := by
  cases s with
  | first => exact List.head?_map
  | third => exact List.getElem?_map
  | bindings =>
    have hget : (fs.map f)[1]? = fs[1]?.map f := List.getElem?_map
    rw [find, find, hget]
    cases hsecond : fs[1]? with
    | none => rfl
    | some n =>
      rw [Option.map_some, Option.filter_some, Option.filter_some,
        hf n (List.mem_of_getElem? hsecond)]
      split <;> rfl
  | parameters =>
    have hgo : ∀ ns : List Node, (∀ n ∈ ns, (f n).kind = n.kind) →
        ((ns.map f).takeWhile (!·.kind.isCall)).find? (·.kind == .vector) =
          ((ns.takeWhile (!·.kind.isCall)).find? (·.kind == .vector)).map f := by
      intro ns hns
      induction ns with
      | nil => rfl
      | cons n ns ih =>
        have hkind := hns n List.mem_cons_self
        rw [List.map_cons, List.takeWhile_cons, List.takeWhile_cons, hkind]
        split
        · rw [List.find?_cons, List.find?_cons, hkind]
          split
          · rfl
          · exact ih fun m hm => hns m (List.mem_cons_of_mem _ hm)
        · rfl
    rw [find, find, ← List.map_drop]
    exact hgo _ fun n hn => hf n (List.drop_subset _ _ hn)

end NameSlot

/-! ### Unfinished clauses -/

/-- The name without a value at the end of names and values in turn. -/
def Clause.unpaired : List Node → List Clause
  | [] => []
  | [p] => [.atEnd p]
  | _ :: _ :: ns => unpaired ns

/-- The clause at the end of a comprehension that lacks its expression. -/
def Clause.unfinishedFor : List Node → List Clause
  | [] => []
  | [p] => if p.kind = .keyword then [] else [.atEnd p]
  | [p, v] => if p.kind = .keyword then [] else [⟨p, v.span.stop⟩]
  | p :: _ :: e :: ns => if p.kind = .keyword then unfinishedFor (e :: ns) else unfinishedFor ns

/-- The clauses that one more form at the end would change. -/
def Style.unfinished : Style → List Node → List Clause
  | pairs, fs => Clause.unpaired fs
  | firstPair, fs => if fs.length = 1 then Clause.unpaired fs else []
  | each, fs => Clause.ofEach fs
  | comprehension, fs => Clause.unfinishedFor fs

/-- The nodes end after the offset, and vectors among them begin after it. -/
def Late (offset : Nat) (ns : List Node) : Prop :=
  ∀ n ∈ ns, offset < n.span.stop ∧ (n.kind = .vector → ∀ m ∈ n.preorder, offset < m.span.stop)

theorem Late.cons {offset : Nat} {n : Node} {ns : List Node} (h : Late offset (n :: ns)) :
    offset < n.span.stop ∧ Late offset ns :=
  ⟨(h n List.mem_cons_self).1, fun m hm => h m (List.mem_cons_of_mem _ hm)⟩

theorem Clause.lt_of_mem_ofPairs {offset : Nat} {ns : List Node}
    (h : ∀ n ∈ ns, offset < n.span.stop) : ∀ c ∈ ofPairs ns, offset < c.visibleFrom := by
  intro c hc
  fun_induction ofPairs ns with
  | case1 => exact absurd hc List.not_mem_nil
  | case2 p =>
    rw [List.mem_singleton.1 hc]
    exact h p List.mem_cons_self
  | case3 p v ns ih =>
    rcases List.mem_cons.1 hc with rfl | hc
    · exact h v (by simp)
    · exact ih (fun n hn => h n (by simp [hn])) hc

theorem Clause.lt_of_mem_ofEach {offset : Nat} {ns : List Node}
    (h : ∀ n ∈ ns, offset < n.span.stop) : ∀ c ∈ ofEach ns, offset < c.visibleFrom := by
  intro c hc
  rw [ofEach] at hc
  split at hc
  · exact absurd hc List.not_mem_nil
  · next coll hcoll =>
    obtain ⟨p, -, rfl⟩ := List.mem_map.1 hc
    exact h coll (List.mem_of_getLast? hcoll)

namespace Tree

variable {t : Tree} {cursor : Location} {offset : Nat}

theorem lt_of_mem_modifierClauses {k v : Node}
    (h : v.kind = .vector → ∀ m ∈ v.preorder, offset < m.span.stop) :
    ∀ c ∈ t.modifierClauses k v, offset < c.visibleFrom := by
  intro c hc
  rw [modifierClauses] at hc
  split at hc
  · exact absurd hc List.not_mem_nil
  next hv =>
  have hinside := h (not_not.1 hv)
  split at hc
  · refine Clause.lt_of_mem_ofPairs (fun n hn => hinside n ?_) c hc
    exact Node.child_mem_preorder (v.activeForms_subset_children hn)
  split at hc
  · obtain ⟨acc, -, rfl⟩ := Option.map_eq_some_iff.1 (Option.mem_toList.1 hc)
    exact hinside v v.mem_preorder_self
  · exact absurd hc List.not_mem_nil

theorem lt_of_mem_forClauses {ns : List Node} (h : Late offset ns) :
    ∀ c ∈ t.forClauses ns, offset < c.visibleFrom := by
  intro c hc
  fun_induction forClauses t ns with
  | case1 => exact absurd hc List.not_mem_nil
  | case2 => exact absurd hc List.not_mem_nil
  | case3 p =>
    rw [List.mem_singleton.1 hc]
    exact h.cons.1
  | case4 p v => exact lt_of_mem_modifierClauses (h v (by simp)).2 c hc
  | case5 p v =>
    rw [List.mem_singleton.1 hc]
    exact (h v (by simp)).1
  | case6 p v e ns hp ih =>
    rcases List.mem_append.1 hc with hc | hc
    · exact lt_of_mem_modifierClauses (h v (by simp)).2 c hc
    · exact ih h.cons.2.cons.2 hc
  | case7 p v e ns hp ih =>
    rcases List.mem_cons.1 hc with rfl | hc
    · exact (h e (by simp)).1
    · exact ih h.cons.2.cons.2.cons.2 hc

/-- A clause that lacks all but its first form is out of sight, too. -/
theorem lt_of_mem_forClauses_cons {p : Node} {ns : List Node} (hne : ns ≠ [])
    (h : Late offset ns) : ∀ c ∈ t.forClauses (p :: ns), offset < c.visibleFrom := by
  intro c hc
  obtain ⟨v, ns, rfl⟩ := List.exists_cons_of_ne_nil hne
  have hmodifier := lt_of_mem_modifierClauses (t := t) (k := p) (h v List.mem_cons_self).2
  cases ns with
  | nil =>
    rw [forClauses] at hc
    split at hc
    · exact hmodifier c hc
    · rw [List.mem_singleton.1 hc]
      exact h.cons.1
  | cons e ns =>
    rw [forClauses] at hc
    split at hc
    · rcases List.mem_append.1 hc with hc | hc
      · exact hmodifier c hc
      · exact lt_of_mem_forClauses h.cons.2 c hc
    · rcases List.mem_cons.1 hc with rfl | hc
      · exact h.cons.2.cons.1
      · exact lt_of_mem_forClauses h.cons.2.cons.2 c hc

end Tree

/-- Clauses of forms after the cursor are out of sight. -/
theorem Style.lt_of_mem_clauses {t : Tree} {offset : Nat} {ns : List Node} (s : Style)
    (h : Late offset ns) : ∀ c ∈ s.clauses t ns, offset < c.visibleFrom := by
  have hstop : ∀ n ∈ ns, offset < n.span.stop := fun n hn => (h n hn).1
  cases s with
  | pairs => exact Clause.lt_of_mem_ofPairs hstop
  | firstPair => exact fun c hc => Clause.lt_of_mem_ofPairs hstop c (List.take_subset _ _ hc)
  | each => exact Clause.lt_of_mem_ofEach hstop
  | comprehension => exact Tree.lt_of_mem_forClauses h

theorem Style.isAmong_of_mem_clauses {t : Tree} {c : Clause} {ns : List Node} (s : Style)
    (h : c ∈ s.clauses t ns) : c.IsAmong ns := by
  cases s with
  | pairs => exact Clause.isAmong_of_mem_ofPairs h
  | firstPair => exact Clause.isAmong_of_mem_ofPairs (List.take_subset _ _ h)
  | each => exact Clause.isAmong_of_mem_ofEach h
  | comprehension => exact Tree.isAmong_of_mem_forClauses h

/-- Of the text, clauses depend on what the forms read as only. -/
theorem Style.clauses_congr {t t' : Tree} {ns : List Node} (s : Style)
    (h : ∀ n ∈ ns, t'.text n = t.text n) : s.clauses t' ns = s.clauses t ns := by
  have hmodifier : ∀ k ∈ ns, ∀ v, t'.modifierClauses k v = t.modifierClauses k v := by
    intro k hk v
    rw [Tree.modifierClauses, Tree.modifierClauses, h k hk]
  cases s with
  | pairs | firstPair | each => rfl
  | comprehension =>
    rw [clauses, clauses]
    clear h
    fun_induction Tree.forClauses t ns with
    | case1 => rw [Tree.forClauses]
    | case2 p hp | case3 p hp => rw [Tree.forClauses]; simp [hp]
    | case4 p v hp => rw [Tree.forClauses, if_pos hp, hmodifier p (by simp)]
    | case5 p v hp => rw [Tree.forClauses, if_neg hp]
    | case6 p v e ns hp ih =>
      rw [Tree.forClauses, if_pos hp, hmodifier p (by simp),
        ih fun k hk => hmodifier k (by simp [List.mem_cons.1 hk])]
    | case7 p v e ns hp ih =>
      rw [Tree.forClauses, if_neg hp, ih fun k hk => hmodifier k (by simp [hk])]

theorem NameSlot.kind_of_find {fs : List Node} {v : Node} (h : bindings.find fs = some v) :
    v.kind = .vector :=
  eq_of_beq (Option.filter_eq_some_iff.1 h).2

/-- What a rule finds after the cursor is out of sight. -/
theorem Rule.seen_clauses_eq_nil {t : Tree} {cursor : Location} {offset : Nat} {fs : List Node}
    (r : Rule) (h : ∀ p, r.naming.slot.find fs = some p → Late offset [p]) :
    t.seen cursor offset (r.clauses t fs) = [] := by
  rw [Rule.clauses]
  cases hfind : r.naming.slot.find fs with
  | none => rfl
  | some p =>
    have hp := h p hfind p (List.mem_singleton_self p)
    refine Tree.seen_eq_nil fun c hc => ?_
    rw [Option.map_some, Option.getD_some] at hc
    cases hnaming : r.naming with
    | pattern slot =>
      rw [hnaming] at hc
      rw [List.mem_singleton.1 hc]
      exact hp.1
    | vector s =>
      rw [hnaming] at hc hfind
      obtain ⟨n, hn, hstop⟩ := (s.isAmong_of_mem_clauses hc).exists_stop
      rw [hstop]
      exact hp.2 (NameSlot.kind_of_find hfind) n (p.preorderAll_activeForms_subset hn)

/-- The clauses `finished` of the forms `fs` are seen whatever forms come after the
    cursor; of the other clauses, none is seen when there are such forms. -/
def Style.Finishes (t : Tree) (s : Style) (fs : List Node) (finished : List Clause) : Prop :=
  s.clauses t fs = finished ++ s.unfinished fs ∧
    ∀ (cursor : Location) {offset : Nat} {later : List Node}, later ≠ [] → Late offset later →
      t.seen cursor offset (s.clauses t (fs ++ later)) = t.seen cursor offset finished

namespace Style

variable (t : Tree)

/-- Without forms before the cursor, there is nothing to see. -/
theorem finishes_nil {s : Style} (hs : s.clauses t [] = []) (hunfinished : s.unfinished [] = []) :
    s.Finishes t [] [] := by
  refine ⟨by rw [hs, hunfinished, List.append_nil], fun cursor {offset later} _ hlater => ?_⟩
  exact Tree.seen_eq_nil (s.lt_of_mem_clauses hlater)

theorem exists_finishes_pairs (fs : List Node) : ∃ finished, pairs.Finishes t fs finished := by
  have hclauses : ∀ ns, pairs.clauses t ns = Clause.ofPairs ns := fun _ => rfl
  have hunfinished : ∀ ns, pairs.unfinished ns = Clause.unpaired ns := fun _ => rfl
  fun_induction Clause.unpaired fs with
  | case1 => exact ⟨[], finishes_nil t rfl rfl⟩
  | case2 p =>
    refine ⟨[], rfl, fun cursor {offset later} hne hlater => ?_⟩
    obtain ⟨v, ns, rfl⟩ := List.exists_cons_of_ne_nil hne
    -- the value comes after the cursor
    have hlate : ∀ n ∈ v :: ns, offset < n.span.stop := fun n hn => (hlater n hn).1
    refine Tree.seen_eq_nil fun c hc => ?_
    rcases List.mem_cons.1 hc with rfl | hc
    · exact hlate v List.mem_cons_self
    · exact Clause.lt_of_mem_ofPairs (fun n hn => hlate n (List.mem_cons_of_mem _ hn)) c hc
  | case3 p v ns ih =>
    obtain ⟨finished, heq, hseen⟩ := ih
    refine ⟨⟨p, v.span.stop⟩ :: finished, ?_, fun cursor {offset later} hne hlater => ?_⟩
    · exact congrArg (_ :: ·) heq
    · have happ : pairs.clauses t (p :: v :: ns ++ later) =
          ⟨p, v.span.stop⟩ :: pairs.clauses t (ns ++ later) := rfl
      rw [happ, Tree.seen_cons, hseen cursor hne hlater, ← Tree.seen_cons]

theorem exists_finishes_firstPair (fs : List Node) :
    ∃ finished, firstPair.Finishes t fs finished := by
  match fs with
  | [] => exact ⟨[], finishes_nil t rfl rfl⟩
  | [p] =>
    refine ⟨[], rfl, fun cursor {offset later} hne hlater => ?_⟩
    obtain ⟨v, ns, rfl⟩ := List.exists_cons_of_ne_nil hne
    refine Tree.seen_eq_nil fun c hc => ?_
    rw [List.mem_singleton.1 hc]
    exact hlater.cons.1
  | p :: v :: ns =>
    refine ⟨[⟨p, v.span.stop⟩], ?_, fun cursor {offset later} _ _ => rfl⟩
    have hlength : ¬ (p :: v :: ns).length = 1 := by simp
    rw [unfinished, if_neg hlength, List.append_nil]
    rfl

theorem exists_finishes_each (fs : List Node) : ∃ finished, each.Finishes t fs finished := by
  refine ⟨[], rfl, fun cursor {offset later} hne hlater => ?_⟩
  -- the collection comes after the cursor
  have hlast : (fs ++ later).getLast? = some (later.getLast hne) := by
    rw [List.getLast?_append, List.getLast?_eq_some_getLast hne, Option.some_or]
  refine Tree.seen_eq_nil fun c hc => ?_
  rw [clauses, Clause.ofEach, hlast] at hc
  obtain ⟨p, -, rfl⟩ := List.mem_map.1 hc
  exact (hlater _ (List.getLast_mem hne)).1

theorem exists_finishes_comprehension (fs : List Node) :
    ∃ finished, comprehension.Finishes t fs finished := by
  have hclauses : ∀ ns, comprehension.clauses t ns = t.forClauses ns := fun _ => rfl
  have hunfinished : ∀ ns, comprehension.unfinished ns = Clause.unfinishedFor ns := fun _ => rfl
  fun_induction Clause.unfinishedFor fs with
  | case1 => exact ⟨[], finishes_nil t (by rw [clauses, Tree.forClauses]) rfl⟩
  | case2 p hp =>
    refine ⟨[], ?_, fun cursor {offset later} hne hlater => ?_⟩
    · rw [hclauses, hunfinished, Tree.forClauses, Clause.unfinishedFor, if_pos hp]
      rfl
    · exact Tree.seen_eq_nil (Tree.lt_of_mem_forClauses_cons hne hlater)
  | case3 p hp =>
    refine ⟨[], ?_, fun cursor {offset later} hne hlater => ?_⟩
    · rw [hclauses, hunfinished, Tree.forClauses, Clause.unfinishedFor, if_neg hp]
      rfl
    · exact Tree.seen_eq_nil (Tree.lt_of_mem_forClauses_cons hne hlater)
  | case4 p v hp =>
    -- a modifier is finished with its form
    refine ⟨t.modifierClauses p v, ?_, fun cursor {offset later} hne hlater => ?_⟩
    · rw [hclauses, hunfinished, Tree.forClauses, Clause.unfinishedFor, if_pos hp, if_pos hp,
        List.append_nil]
    · obtain ⟨e, ns, rfl⟩ := List.exists_cons_of_ne_nil hne
      rw [hclauses, List.cons_append, List.singleton_append, Tree.forClauses, if_pos hp,
        Tree.seen_append, Tree.seen_eq_nil (Tree.lt_of_mem_forClauses hlater), List.append_nil]
  | case5 p v hp =>
    refine ⟨[], ?_, fun cursor {offset later} hne hlater => ?_⟩
    · rw [hclauses, hunfinished, Tree.forClauses, Clause.unfinishedFor, if_neg hp, if_neg hp]
      rfl
    · -- the next form becomes the expression
      obtain ⟨e, ns, rfl⟩ := List.exists_cons_of_ne_nil hne
      refine Tree.seen_eq_nil fun c hc => ?_
      rw [hclauses, List.cons_append, List.singleton_append, Tree.forClauses, if_neg hp] at hc
      rcases List.mem_cons.1 hc with rfl | hc
      · exact hlater.cons.1
      · exact Tree.lt_of_mem_forClauses hlater.cons.2 c hc
  | case6 p v e ns hp ih =>
    obtain ⟨finished, heq, hseen⟩ := ih
    rw [hclauses, hunfinished] at heq
    refine ⟨t.modifierClauses p v ++ finished, ?_, fun cursor {offset later} hne hlater => ?_⟩
    · rw [hclauses, hunfinished, Tree.forClauses, Clause.unfinishedFor, if_pos hp, if_pos hp, heq,
        List.append_assoc]
    · have hrest := hseen cursor hne hlater
      rw [hclauses, List.cons_append] at hrest
      rw [hclauses, List.cons_append, List.cons_append, List.cons_append, Tree.forClauses,
        if_pos hp, Tree.seen_append, Tree.seen_append, hrest]
  | case7 p v e ns hp ih =>
    obtain ⟨finished, heq, hseen⟩ := ih
    rw [hclauses, hunfinished] at heq
    refine ⟨⟨p, e.span.stop⟩ :: finished, ?_, fun cursor {offset later} hne hlater => ?_⟩
    · rw [hclauses, hunfinished, Tree.forClauses, Clause.unfinishedFor, if_neg hp, if_neg hp, heq,
        List.cons_append]
    · have hrest := hseen cursor hne hlater
      rw [hclauses] at hrest
      rw [hclauses, List.cons_append, List.cons_append, List.cons_append, Tree.forClauses,
        if_neg hp, Tree.seen_cons, hrest, ← Tree.seen_cons]

/-- As soon as a form comes after the cursor, unfinished clauses are out of sight. -/
theorem exists_finishes (s : Style) (fs : List Node) : ∃ finished, s.Finishes t fs finished := by
  cases s with
  | pairs => exact exists_finishes_pairs t fs
  | firstPair => exact exists_finishes_firstPair t fs
  | each => exact exists_finishes_each t fs
  | comprehension => exact exists_finishes_comprehension t fs

end Style

/-! ### What is unfinished at a cursor -/

namespace Tree

variable (t : Tree)

/-- The vector of the modifier `:let` of a comprehension, of the keyword `k` and the
    form `v`. -/
def letVector (k v : Node) : List Node :=
  if v.kind = .vector ∧ t.text k = ":let" then [v] else []

/-- The vectors of names and values inside a comprehension. -/
def letVectors : List Node → List Node
  | [] | [_] => []
  | [p, v] => if p.kind = .keyword then t.letVector p v else []
  | p :: v :: e :: ns =>
    if p.kind = .keyword then t.letVector p v ++ letVectors (e :: ns) else letVectors ns

end Tree

/-- The vectors whose forms make the clauses of a vector, with their styles. -/
def Style.vectors (t : Tree) : Style → Node → List (Style × Node)
  | comprehension, v => (.comprehension, v) :: (t.letVectors v.activeForms).map (.pairs, ·)
  | s, v => [(s, v)]

/-- The vectors whose forms make the clauses of the form in the slot. -/
def Naming.vectorsOf (t : Tree) : Naming → Node → List (Style × Node)
  | pattern _, _ => []
  | vector s, v => s.vectors t v

/-- The vectors whose forms make the clauses of a rule. -/
def Rule.vectors (t : Tree) (r : Rule) (fs : List Node) : List (Style × Node) :=
  ((r.naming.slot.find fs).map (r.naming.vectorsOf t)).getD []

/-- Whether the node is the innermost one around a location, apart from quoted
    forms. -/
def Location.isDirectlyIn (l : Location) (n : Node) : Bool :=
  (l.above.find? (·.kind != .quoted)).any (·.id == n.id)

namespace Tree

variable (t : Tree) (cursor : Location) (offset : Nat)

/-- The names that a cursor directly inside a vector sees only because no active form
    comes after it. -/
def unfinishedIn (s : Style) (v : Node) : List String :=
  if cursor.isDirectlyIn v && v.activeForms.all (·.span.stop ≤ offset) then
    t.seen cursor offset (s.unfinished v.activeForms)
  else []

/-- The same for some vectors. -/
def unfinishedAmong (vs : List (Style × Node)) : List String :=
  vs.flatMap fun x => t.unfinishedIn cursor offset x.1 x.2

/-- The same as bindings of the list at a location. -/
def unfinishedAt (l : Location) : List Binding :=
  ((t.rule? l).map fun r =>
    (t.unfinishedAmong cursor offset (r.vectors t l.node.activeForms)).map (r.binding 0)).getD []

/-- The same for the lists at some locations that are not inert. -/
def unfinishedAlong (ls : List Location) : List Binding :=
  (ls.filter t.isLive).flatMap (t.unfinishedAt cursor offset)

/-- The bindings that a cursor sees, among those of the `maxDepth` nodes around it,
    only because no form comes after it in a binding vector. -/
def unfinished (maxDepth : Nat) : List Binding :=
  t.unfinishedAlong cursor offset (cursor.ancestors.take maxDepth)

end Tree

end Typeahead
