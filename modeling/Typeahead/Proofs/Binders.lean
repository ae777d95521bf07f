import Typeahead.Proofs.Patterns

/-!
# Binding forms bind their names

The forms that introduce names, as data: functions with one parameter vector or
with several arities, lists with a binding vector, comprehensions, and handlers of
exceptions (`Binder`). What such a form binds are the symbols of its patterns
(`Binder.names`), and nothing of its values.

* `Binder.exists_clauses`: the clauses of a binding form have its patterns;
* `Binder.exists_clauses_arity`: so has the clause of one of several arities;
* `Tree.quiet_of_readAs`: a list that does not begin like a binding form
  introduces no names.
-/

namespace Typeahead

/-! ### The syntax of binding forms -/

namespace Form

/-- Whether a form is a keyword, a number or a string. -/
def isConstant : Form → Bool
  | keyword _ | int _ | str _ => true
  | _ => false

/-- Whether a form may stand in front of parameters: a name, a docstring or a map
    of attributes. -/
def isPreface : Form → Bool
  | symbol _ | str _ | map _ => true
  | _ => false

theorem isReadableAll_iff {fs : List Form} :
    isReadableAll fs = true ↔ ∀ f ∈ fs, f.isReadable = true := by
  induction fs with
  | nil => simp [isReadableAll]
  | cons f fs ih => simp [isReadableAll, ih]

end Form

/-- A form that can be read and that no marker deactivates. -/
structure Value where
  form : Form
  isReadable : form.isReadable = true := by decide
  isMarked : form.isMarked = false := by decide

/-- A symbol, a vector or a map that binds symbols. -/
structure Pattern extends Value where
  isPattern : form.isPattern = true := by decide
  isConstant : form.isConstant = false := by decide

/-- A name, a docstring or a map of attributes in front of parameters. -/
structure Preface extends Value where
  isPreface : form.isPreface = true := by decide

namespace Value

theorem isReadableAll (items : List Value) :
    Form.isReadableAll (items.map Value.form) = true := by
  rw [Form.isReadableAll_iff]
  intro f hf
  obtain ⟨v, -, rfl⟩ := List.mem_map.1 hf
  exact v.isReadable

theorem isMarked_of_mem {items : List Value} : ∀ f ∈ items.map Value.form, f.isMarked = false := by
  intro f hf
  obtain ⟨v, -, rfl⟩ := List.mem_map.1 hf
  exact v.isMarked

/-- A list of forms. -/
def list (items : List Value) : Value where
  form := .list (items.map Value.form)
  isReadable := isReadableAll items
  isMarked := rfl

/-- A vector of forms. -/
def vector (items : List Value) : Value where
  form := .vector (items.map Value.form)
  isReadable := isReadableAll items
  isMarked := rfl

/-- The symbol of a head. -/
def ofHead (h : Head) : Value where
  form := .symbol h.name
  isReadable := by rw [Form.isReadable]; cases h <;> decide
  isMarked := rfl

end Value

/-- The vector of the given patterns. -/
def Pattern.vector (items : List Pattern) : Pattern where
  toValue := .vector (items.map (·.toValue))
  isPattern := by
    rw [Value.vector, Form.isPattern, Form.isPatternAll_iff, List.map_map]
    intro f hf
    obtain ⟨p, -, rfl⟩ := List.mem_map.1 hf
    exact p.isPattern
  isConstant := rfl

/-- Names and values in turn. -/
def pairValues (pairs : List (Pattern × Value)) : List Value :=
  pairs.flatMap fun (p, v) => [p.toValue, v]

/-- A step of a comprehension. -/
inductive ForStep
  /-- A pattern, a verb such as `:in`, and an expression. -/
  | each (pattern : Pattern) (verb expr : Value)
  /-- `:let` and a vector of names and values. -/
  | letIn (pairs : List (Pattern × Value))
  /-- `:when` and a condition. -/
  | whenTrue (condition : Value)
  /-- `:while` and a condition. -/
  | whileTrue (condition : Value)
  /-- `:reduce` and a vector of an accumulator and its initial value. -/
  | reduce (acc : Pattern) (init : Value)

namespace ForStep

/-- The forms of a step. -/
def values : ForStep → List Value
  | each pattern verb expr => [pattern.toValue, verb, expr]
  | letIn pairs => [{ form := .keyword "let" }, .vector (pairValues pairs)]
  | whenTrue condition => [{ form := .keyword "when" }, condition]
  | whileTrue condition => [{ form := .keyword "while" }, condition]
  | reduce acc init => [{ form := .keyword "reduce" }, .vector [acc.toValue, init]]

/-- The patterns of a step. -/
def patterns : ForStep → List Pattern
  | each pattern _ _ => [pattern]
  | letIn pairs => pairs.map (·.1)
  | whenTrue _ | whileTrue _ => []
  | reduce acc _ => [acc]

end ForStep

/-- A form that introduces names into its body. -/
inductive Binder
  /-- A function or a macro with a parameter vector. -/
  | function (head : {h : Head // h.isScopeRoot = true}) (preface : List Preface)
    (params : List Pattern)
  /-- One arity of a function or a macro, between others. -/
  | arity (head : {h : Head // h.isScopeRoot = true}) (preface : List Preface)
    (before after : List (List Value)) (params : List Pattern)
  /-- Names and values in turn. -/
  | alternating (head : {h : Head // h ∈ [Head.letIn, .bindingIn, .loopIn]})
    (pairs : List (Pattern × Value))
  | comprehension (head : {h : Head // h ∈ [Head.forIn, .doFor]}) (steps : List ForStep)
  /-- Names that go through a collection. -/
  | forEach (names : List Pattern) (collection : Value)
  /-- A name and a value, and more forms, which bind nothing. -/
  | firstPair (head : {h : Head // h ∈ [Head.ifLet, .whenLet]}) (pattern : Pattern) (value : Value)
    (more : List Value)
  /-- The handler of an exception of a type. -/
  | catchIn (type : Value) (name : Pattern)

namespace Binder

/-- The head of the form. -/
def head : Binder → Head
  | function head _ _ => head
  | arity head _ _ _ _ => head
  | alternating head _ => head
  | comprehension head _ => head
  | forEach _ _ => .forEach
  | firstPair head _ _ _ => head
  | catchIn _ _ => .catchIn

/-- The kind of the names that the form introduces. -/
def kind (b : Binder) : BindingKind :=
  match b.head with
  | .letIn | .bindingIn => .letBinding
  | .loopIn => .loopBinding
  | .forIn | .doFor | .forEach => .forBinding
  | .ifLet => .ifLetBinding
  | .whenLet => .whenLetBinding
  | .catchIn => .catchBinding
  | _ => .parameter

/-- Whether the form is one of several arities. -/
def isArity : Binder → Bool
  | arity .. => true
  | _ => false

/-- The forms after the head and in front of the body; those of an arity stand in
    a list of their own, without a head. -/
def opening : Binder → List Value
  | function _ preface params => preface.map (·.toValue) ++ [(Pattern.vector params).toValue]
  | arity _ _ _ _ params => [(Pattern.vector params).toValue]
  | alternating _ pairs => [.vector (pairValues pairs)]
  | comprehension _ steps => [.vector (steps.flatMap ForStep.values)]
  | forEach names collection => [.vector (names.map (·.toValue) ++ [collection])]
  | firstPair _ pattern value more => [.vector (pattern.toValue :: value :: more)]
  | catchIn type name => [type, name.toValue]

/-- The form with the given body. -/
def form (b : Binder) (body : List Value) : Value :=
  match b with
  | arity head preface before after _ =>
    .list (.ofHead head :: (preface.map (·.toValue) ++ before.map .list ++
      .list (b.opening ++ body) :: after.map .list))
  | _ => .list (.ofHead b.head :: (b.opening ++ body))

/-- The patterns of the form; a parameter vector is one of them. -/
def patterns : Binder → List Pattern
  | function _ _ params | arity _ _ _ _ params => [.vector params]
  | alternating _ pairs => pairs.map (·.1)
  | comprehension _ steps => steps.flatMap ForStep.patterns
  | forEach names _ => names
  | firstPair _ pattern _ _ => [pattern]
  | catchIn _ name => [name]

/-- The symbols of the patterns, in their order. -/
def names (b : Binder) : List String := b.patterns.flatMap (·.form.patternNames)

end Binder

/-! ### What the nodes of a binding form are -/

theorem Head.ofName?_name (h : Head) : Head.ofName? h.name = some h := by
  cases h <;> decide

namespace Node

variable {src : List Char} {n : Node} {items : List Value}

theorem of_list (h : (Value.list items).form.outline = [n.outline src]) :
    n.kind = .list ∧ (∀ c ∈ n.children, c.kind ≠ .formComment) ∧
      ReadAs src n.activeForms (items.map Value.form) := by
  have hnode : n.outline src =
      .collection .list ['('] ')' ((items.map Value.form).flatMap Form.outline) := by
    rw [← Form.outlineAll_eq_flatMap]
    exact (List.singleton_inj.1 h).symm
  exact of_outline_eq_collection Value.isMarked_of_mem hnode

theorem of_vector (h : (Value.vector items).form.outline = [n.outline src]) :
    n.kind = .vector ∧ ReadAs src n.activeForms (items.map Value.form) := by
  have hnode : n.outline src =
      .collection .vector ['['] ']' ((items.map Value.form).flatMap Form.outline) := by
    rw [← Form.outlineAll_eq_flatMap]
    exact (List.singleton_inj.1 h).symm
  obtain ⟨hkind, -, hread⟩ := of_outline_eq_collection Value.isMarked_of_mem hnode
  exact ⟨hkind, hread⟩

/-- The kind of a node is that of what it reads. -/
theorem ReadAs.kind_mem {ns : List Node} {fs : List Form} (h : ReadAs src ns fs) (hn : n ∈ ns) :
    ∃ f ∈ fs, f.outline.map Outline.kind = [n.kind] := by
  have hmem : [n.outline src] ∈ fs.map Form.outline := by
    rw [← h]
    exact List.mem_map_of_mem hn
  obtain ⟨f, hf, ho⟩ := List.mem_map.1 hmem
  exact ⟨f, hf, by rw [ho, List.map_singleton, kind_outline]⟩

/-- A constant or a name in front of the parameters is neither a vector nor a
    call. -/
theorem ReadAs.kind_of_preface {ns : List Node} {preface : List Preface}
    (h : ReadAs src ns ((preface.map (·.toValue)).map Value.form)) (hn : n ∈ ns) :
    n.kind ≠ .vector ∧ n.kind.isCall = false := by
  obtain ⟨f, hf, hkind⟩ := h.kind_mem hn
  rw [List.map_map] at hf
  obtain ⟨p, -, rfl⟩ := List.mem_map.1 hf
  have hpreface := p.isPreface
  simp only [Function.comp_apply] at hkind
  generalize p.form = f at hkind hpreface
  cases f with
  | symbol _ | str _ | map _ =>
    rw [← List.singleton_inj.1 hkind]
    exact ⟨Kind.noConfusion, rfl⟩
  | _ => cases hpreface

theorem parameterVector?_eq {hd v : Node} {ps rest : List Node}
    (hactive : n.activeForms = hd :: (ps ++ v :: rest)) (hv : v.kind = .vector)
    (hps : ∀ p ∈ ps, p.kind ≠ .vector ∧ p.kind.isCall = false) : n.parameterVector? = some v := by
  have hcalls : ∀ p ∈ ps, (!p.kind.isCall) = true := fun p hp => by rw [(hps p hp).2]; rfl
  have hvectors : ps.find? (·.kind == .vector) = none := by
    rw [List.find?_eq_none]
    exact fun p hp => by simpa using (hps p hp).1
  rw [parameterVector?, hactive, List.drop_one, List.tail_cons,
    List.takeWhile_append_of_pos hcalls, List.takeWhile_cons, List.find?_append, hvectors]
  simp [hv, Kind.isCall]

/-- A function whose first form after the names is an arity has no parameter
    vector. -/
theorem parameterVector?_eq_none {hd a : Node} {ps rest : List Node}
    (hactive : n.activeForms = hd :: (ps ++ a :: rest)) (ha : a.kind.isCall = true)
    (hps : ∀ p ∈ ps, p.kind ≠ .vector ∧ p.kind.isCall = false) : n.parameterVector? = none := by
  have hcalls : ∀ p ∈ ps, (!p.kind.isCall) = true := fun p hp => by rw [(hps p hp).2]; rfl
  rw [parameterVector?, hactive, List.drop_one, List.tail_cons,
    List.takeWhile_append_of_pos hcalls, List.takeWhile_cons, ha, List.find?_eq_none]
  intro p hp
  have hp : p ∈ ps := by simpa using hp
  simpa using (hps p hp).1

end Node

namespace Tree

variable {t : Tree} {src : List Char} {n : Node} {rest : List Node}

theorem vectorClauses_eq {hd v : Node} (hactive : n.activeForms = hd :: v :: rest)
    (hv : v.kind = .vector) (kind : BindingKind) (clauses : List Node → List Clause) :
    headClauses.vectorClauses n kind clauses = (clauses v.activeForms).map (kind, ·) := by
  have hvector : n.bindingVector? = some v := by
    rw [Node.bindingVector?, hactive]
    simp [hv]
  rw [headClauses.vectorClauses, hvector]

/-- The clauses of a list with a head are those of the head. -/
theorem clausesAt_eq_headClauses (hsrc : t.source = src) {hd : Node} {h : Head}
    (hactive : n.activeForms = hd :: rest)
    (hhead : (Value.ofHead h).form.outline = [hd.outline src]) (above : List Node) :
    t.head? n = some h ∧ t.clausesAt ⟨n, above⟩ = t.headClauses n h := by
  have hleaf : hd.outline src = .leaf .symbol h.name.toList := (List.singleton_inj.1 hhead).symm
  have hkind := (Node.of_outline_eq_leaf hleaf).1
  have hname : t.head? n = some h := by
    rw [head?, hactive]
    simp only [List.head?_cons, hkind, if_true]
    rw [text_of_outline_eq hsrc hleaf, String.ofList_toList, Head.ofName?_name]
  refine ⟨hname, ?_⟩
  rw [clausesAt, hactive]
  simp only [List.head?_cons, hkind, reduceCtorEq, if_false, hname, Option.map_some,
    Option.getD_some]

/-! ### The clauses of binding vectors -/

variable {ns : List Node}

theorem readAs_ofPairs {pairs : List (Pattern × Value)}
    (h : Node.ReadAs src ns ((pairValues pairs).map Value.form)) :
    Node.ReadAs src ((Clause.ofPairs ns).map (·.pattern)) ((pairs.map (·.1)).map (·.form)) := by
  induction pairs generalizing ns with
  | nil =>
    rw [Node.ReadAs.eq_nil h]
    exact .nil src
  | cons pair pairs ih =>
    have hcons : Node.ReadAs src ns
      (pair.1.form :: pair.2.form :: (pairValues pairs).map Value.form) := h
    obtain ⟨p, ms, rfl, hp, hms⟩ := hcons.exists_cons
    obtain ⟨v, ks, rfl, -, hks⟩ := hms.exists_cons
    exact .cons hp (ih hks)

/-- Of a name, a value and more, the first clause has the name. -/
theorem readAs_firstPair {pattern : Pattern} {value : Value} {more : List Value}
    (h : Node.ReadAs src ns ((pattern.toValue :: value :: more).map Value.form)) :
    Node.ReadAs src (((Clause.ofPairs ns).take 1).map (·.pattern)) ([pattern].map (·.form)) := by
  obtain ⟨p, ms, rfl, hp, hms⟩ := h.exists_cons
  obtain ⟨v, ms, rfl, -, -⟩ := hms.exists_cons
  exact .cons hp (.nil src)

theorem readAs_ofEach {names : List Pattern} {collection : Value}
    (h : Node.ReadAs src ns ((names.map (·.toValue) ++ [collection]).map Value.form)) :
    Node.ReadAs src ((Clause.ofEach ns).map (·.pattern)) (names.map (·.form)) := by
  rw [List.map_append, List.map_map] at h
  obtain ⟨as, bs, rfl, has, hbs⟩ := h.exists_append
  obtain ⟨c, ms, rfl, -, hms⟩ := hbs.exists_cons
  obtain rfl := hms.eq_nil
  have hpatterns : (Clause.ofEach (as ++ [c])).map (·.pattern) = as := by
    simp [Clause.ofEach, Function.comp_def]
  rw [hpatterns]
  exact has

theorem forClauses_keyword {k v : Node} (hk : k.kind = .keyword) (ns : List Node) :
    t.forClauses (k :: v :: ns) = t.modifierClauses k v ++ t.forClauses ns := by
  cases ns with
  | nil => simp [forClauses, hk]
  | cons e ns => simp [forClauses, hk]

theorem forClauses_each {p v e : Node} (hp : p.kind ≠ .keyword) (ns : List Node) :
    t.forClauses (p :: v :: e :: ns) = ⟨p, e.span.stop⟩ :: t.forClauses ns := by
  simp [forClauses, hp]

/-- A pattern is no keyword. -/
theorem kind_of_pattern {p : Node} {pattern : Pattern}
    (h : pattern.form.outline = [p.outline src]) : p.kind ≠ .keyword := by
  have hkind : pattern.form.outline.map Outline.kind = [p.kind] := by
    rw [h, List.map_singleton, Node.kind_outline]
  have hpattern := pattern.isPattern
  have hconstant := pattern.isConstant
  generalize pattern.form = f at hkind hpattern hconstant
  cases f with
  | symbol _ | vector _ | map _ =>
    rw [← List.singleton_inj.1 hkind]
    exact Kind.noConfusion
  | keyword _ | int _ | str _ => cases hconstant
  | _ => cases hpattern

/-- A keyword of a comprehension, and its text. -/
theorem of_keyword (hsrc : t.source = src) {k : Node} {name : String}
    (h : (Form.keyword name).outline = [k.outline src]) :
    k.kind = .keyword ∧ t.text k = String.ofList (':' :: name.toList) := by
  have hleaf : k.outline src = .leaf .keyword (':' :: name.toList) := (List.singleton_inj.1 h).symm
  exact ⟨(Node.of_outline_eq_leaf hleaf).1, text_of_outline_eq hsrc hleaf⟩

/-- A keyword other than `:let` and `:reduce` introduces nothing. -/
theorem modifierClauses_eq_nil {k : Node} (hlet : t.text k ≠ ":let") (hreduce : t.text k ≠ ":reduce")
    (v : Node) : t.modifierClauses k v = [] := by
  rw [modifierClauses, if_neg hlet, if_neg hreduce, ite_self]

/-- A modifier of a comprehension, a keyword and a value, has its clauses in front of those of the
    rest. -/
theorem exists_modifier (hsrc : t.source = src) {name : String} {keyword value : Value}
    (hkeyword : keyword.form = .keyword name)
    (h : Node.ReadAs src ns ([keyword, value].map Value.form)) :
    ∃ k v, t.text k = String.ofList (':' :: name.toList) ∧
      value.form.outline = [v.outline src] ∧
      ∀ rest, t.forClauses (ns ++ rest) = t.modifierClauses k v ++ t.forClauses rest := by
  obtain ⟨k, ms, rfl, hk, hms⟩ := h.exists_cons
  obtain ⟨v, ms, rfl, hv, hms⟩ := hms.exists_cons
  obtain rfl := hms.eq_nil
  rw [hkeyword] at hk
  obtain ⟨hkind, htext⟩ := of_keyword hsrc hk
  exact ⟨k, v, htext, hv, fun rest => forClauses_keyword hkind rest⟩

theorem readAs_forClauses (hsrc : t.source = src) {steps : List ForStep}
    (h : Node.ReadAs src ns ((steps.flatMap ForStep.values).map Value.form)) :
    Node.ReadAs src ((t.forClauses ns).map (·.pattern))
      ((steps.flatMap ForStep.patterns).map (·.form)) := by
  induction steps generalizing ns with
  | nil =>
    rw [Node.ReadAs.eq_nil h]
    exact .nil src
  | cons step steps ih =>
    rw [List.flatMap_cons, List.map_append] at h
    obtain ⟨as, bs, rfl, has, hbs⟩ := h.exists_append
    rw [List.flatMap_cons, List.map_append]
    cases step with
    | each pattern verb expr =>
      obtain ⟨p, as, rfl, hp, has⟩ := has.exists_cons
      obtain ⟨v, as, rfl, -, has⟩ := has.exists_cons
      obtain ⟨e, as, rfl, -, has⟩ := has.exists_cons
      obtain rfl := has.eq_nil
      rw [List.cons_append, List.cons_append, List.cons_append, List.nil_append,
        forClauses_each (kind_of_pattern hp)]
      exact .cons hp (ih hbs)
    | letIn pairs =>
      obtain ⟨k, v, htext, hv, hclauses⟩ := exists_modifier hsrc rfl has
      obtain ⟨hvector, hitems⟩ := Node.of_vector hv
      have hmodifier : t.modifierClauses k v = Clause.ofPairs v.activeForms := by
        rw [modifierClauses, if_neg (by simp [hvector]), if_pos (by rw [htext]; decide)]
      rw [hclauses, hmodifier, List.map_append]
      exact .append (readAs_ofPairs hitems) (ih hbs)
    | whenTrue condition | whileTrue condition =>
      obtain ⟨k, v, htext, -, hclauses⟩ := exists_modifier hsrc rfl has
      rw [hclauses, modifierClauses_eq_nil (by rw [htext]; decide) (by rw [htext]; decide)]
      exact ih hbs
    | reduce acc init =>
      obtain ⟨k, v, htext, hv, hclauses⟩ := exists_modifier hsrc rfl has
      obtain ⟨hvector, hitems⟩ := Node.of_vector hv
      obtain ⟨a, ms, hactive, ha, -⟩ := hitems.exists_cons
      have hmodifier : t.modifierClauses k v = [⟨a, v.span.stop⟩] := by
        rw [modifierClauses, if_neg (by simp [hvector]), if_neg (by rw [htext]; decide),
          if_pos (by rw [htext]; decide), hactive]
        rfl
      rw [hclauses, hmodifier]
      exact .cons ha (ih hbs)

/-! ### The clauses of binding forms -/

/-- The clauses of the list at `l` introduce names of the given kind, by nodes that
    read the given patterns, and are among the nodes `os`. -/
def HasClauses (t : Tree) (src : List Char) (l : Location) (kind : BindingKind) (os : List Node)
    (patterns : List Pattern) : Prop :=
  ∃ cs : List Clause, t.clausesAt l = cs.map (kind, ·) ∧ (∀ c ∈ cs, c.IsAmong os) ∧
    Node.ReadAs src (cs.map (·.pattern)) (patterns.map (·.form))

/-- A list with a binding vector has the clauses that its head makes of the forms of the vector. -/
theorem hasClauses_vector {l : Location} {hd : Node} {os bs : List Node} {items : List Value}
    {patterns : List Pattern} {kind : BindingKind} (clauses : List Node → List Clause)
    (hactive : n.activeForms = hd :: (os ++ bs))
    (hos : Node.ReadAs src os ([Value.vector items].map Value.form))
    (hclauses : t.clausesAt l = headClauses.vectorClauses n kind clauses)
    (hamong : ∀ ns, ∀ c ∈ clauses ns, c.IsAmong ns)
    (hread : ∀ ns, Node.ReadAs src ns (items.map Value.form) →
      Node.ReadAs src ((clauses ns).map (·.pattern)) (patterns.map (·.form))) :
    t.HasClauses src l kind os patterns := by
  obtain ⟨v, ms, rfl, hv, hms⟩ := hos.exists_cons
  obtain rfl := hms.eq_nil
  obtain ⟨hvector, hitems⟩ := Node.of_vector hv
  refine ⟨clauses v.activeForms, ?_,
    fun c hc => (hamong _ c hc).of_activeForms List.mem_cons_self, hread _ hitems⟩
  rw [hclauses]
  exact vectorClauses_eq hactive hvector kind clauses

end Tree

namespace Binder

variable {t : Tree} {src : List Char} {n hd : Node} {os bs : List Node}

theorem headClauses_function (t : Tree) (n : Node) {h : Head} (hroot : h.isScopeRoot = true) :
    t.headClauses n h = (n.parameterVector?.map fun ps => (.parameter, .atEnd ps)).toList := by
  cases h <;> first | rfl | cases hroot

theorem kind_of_isScopeRoot {b : Binder} (hroot : b.head.isScopeRoot = true) :
    b.kind = .parameter := by
  rw [kind]
  generalize b.head = h at hroot
  cases h <;> first | rfl | cases hroot

open Typeahead.Tree in
/-- The clauses of a list that begins as a binding form have the patterns of the
    form. -/
theorem exists_clauses (hsrc : t.source = src) (b : Binder) (hb : b.isArity = false)
    (hactive : n.activeForms = hd :: (os ++ bs))
    (hhead : (Value.ofHead b.head).form.outline = [hd.outline src])
    (hos : Node.ReadAs src os (b.opening.map Value.form)) (above : List Node) :
    t.HasClauses src ⟨n, above⟩ b.kind os b.patterns := by
  have hclauses := (clausesAt_eq_headClauses hsrc hactive hhead above).2
  cases b with
  | arity => cases hb
  | function head preface params =>
    obtain ⟨h, hroot⟩ := head
    rw [opening, List.map_append] at hos
    obtain ⟨ps, vs, rfl, hps, hvs⟩ := hos.exists_append
    obtain ⟨v, ms, rfl, hv, hms⟩ := hvs.exists_cons
    obtain rfl := hms.eq_nil
    rw [List.append_assoc] at hactive
    have hparams := Node.parameterVector?_eq hactive (Node.of_vector hv).1 fun p => hps.kind_of_preface
    refine ⟨[.atEnd v], ?_, fun c hc => ?_, .cons hv (.nil src)⟩
    · rw [hclauses, head, headClauses_function t n hroot, hparams,
        kind_of_isScopeRoot (b := function ⟨h, hroot⟩ preface params) hroot]
      rfl
    · rw [List.mem_singleton.1 hc]
      exact Clause.isAmong_of_mem (by simp) (by simp)
  | alternating head pairs =>
    refine hasClauses_vector Clause.ofPairs hactive hos (hclauses.trans ?_)
      (fun _ _ => Clause.isAmong_of_mem_ofPairs) fun _ => readAs_ofPairs
    obtain ⟨h, hmem⟩ := head
    simp only [List.mem_cons, List.not_mem_nil, or_false] at hmem
    rcases hmem with rfl | rfl | rfl <;> rfl
  | comprehension head steps =>
    refine hasClauses_vector t.forClauses hactive hos (hclauses.trans ?_)
      (fun _ _ => isAmong_of_mem_forClauses) fun _ => readAs_forClauses hsrc
    obtain ⟨h, hmem⟩ := head
    simp only [List.mem_cons, List.not_mem_nil, or_false] at hmem
    rcases hmem with rfl | rfl <;> rfl
  | forEach names collection =>
    exact hasClauses_vector Clause.ofEach hactive hos hclauses
      (fun _ _ => Clause.isAmong_of_mem_ofEach) fun _ => readAs_ofEach
  | firstPair head pattern value more =>
    refine hasClauses_vector (fun forms => (Clause.ofPairs forms).take 1) hactive hos
      (hclauses.trans ?_)
      (fun _ _ hc => Clause.isAmong_of_mem_ofPairs (List.take_subset _ _ hc))
      fun _ => readAs_firstPair
    obtain ⟨h, hmem⟩ := head
    simp only [List.mem_cons, List.not_mem_nil, or_false] at hmem
    rcases hmem with rfl | rfl <;> rfl
  | catchIn type name =>
    obtain ⟨x, ms, rfl, -, hms⟩ := hos.exists_cons
    obtain ⟨p, ms, rfl, hp, hms⟩ := hms.exists_cons
    obtain rfl := hms.eq_nil
    refine ⟨[.atEnd p], ?_, fun c hc => ?_, .cons hp (.nil src)⟩
    · rw [hclauses, head, headClauses, hactive]
      rfl
    · rw [List.mem_singleton.1 hc]
      exact Clause.isAmong_of_mem (by simp) (by simp)

/-- An arity inside a function binds its parameters. -/
theorem exists_clauses_arity {h : Head} (hroot : h.isScopeRoot = true) {params : List Pattern}
    (hactive : n.activeForms = os ++ bs)
    (hos : Node.ReadAs src os ([(Pattern.vector params).toValue].map Value.form)) {p : Node}
    (hp : t.head? p = some h) (above : List Node) :
    t.HasClauses src ⟨n, p :: above⟩ .parameter os [.vector params] := by
  obtain ⟨v, ms, rfl, hv, hms⟩ := hos.exists_cons
  obtain rfl := hms.eq_nil
  have hslot : h.parameterSlot?.isSome = true := by
    cases h <;> first | rfl | cases hroot
  refine ⟨[.atEnd v], ?_, fun c hc => ?_, .cons hv (.nil src)⟩
  · have hfunction : t.isInFunction ⟨n, p :: above⟩ = true := by
      simp [Tree.isInFunction, hp, hslot]
    rw [Tree.clausesAt, hactive]
    simp only [List.cons_append, List.nil_append, List.head?_cons, (Node.of_vector hv).1, if_true,
      hfunction]
    rfl
  · rw [List.mem_singleton.1 hc]
    exact Clause.isAmong_of_mem List.mem_cons_self List.mem_cons_self

end Binder

/-! ### Lists that bind nothing -/

/-- Whether lists with this head introduce names. -/
def Head.binds : Head → Bool
  | lambda | fnDef | fnDefPrivate | macroDef | macroDefPrivate | letIn | bindingIn | loopIn | forIn
  | doFor | forEach | ifLet | whenLet | catchIn => true
  | _ => false

/-- Whether a list that begins with the form may introduce names. -/
def Form.opensScope : Form → Bool
  | symbol name => (Head.ofName? name).any Head.binds
  | vector _ => true
  | _ => false

namespace Tree

variable {t : Tree} {src : List Char} {n : Node} {above : List Node}

/-- The list at a location introduces no names, and is no function. -/
def Quiet (t : Tree) (l : Location) : Prop :=
  l.node.kind.isCall = true →
    t.clausesAt l = [] ∧ (t.head? l.node).any (·.isScopeRoot) = false

/-- Lists that introduce no names do not matter on the way out. -/
theorem bindingsAlong_quiet {cursor : Location} {offset depth : Nat} {ls rest : List Location}
    (h : ∀ l ∈ ls, t.Quiet l) :
    t.bindingsAlong cursor offset depth (ls ++ rest) = t.bindingsAlong cursor offset depth rest := by
  induction ls with
  | nil => rfl
  | cons l ls ih =>
    have hrest := ih fun m hm => h m (List.mem_cons_of_mem _ hm)
    have hfunction : t.isLiveFunction l = false := by
      rw [isLiveFunction, isLive]
      cases hcall : l.node.kind.isCall with
      | false => rfl
      | true => rw [(h l List.mem_cons_self hcall).2, Bool.and_false]
    have hnone : (if t.isLive l then t.bindingsAt cursor offset depth l else []) = [] := by
      split
      · next hlive =>
        rw [isLive, Bool.and_eq_true] at hlive
        rw [bindingsAt, (h l List.mem_cons_self hlive.1).1]
        rfl
      · rfl
    rw [List.cons_append, bindingsAlong_cons, hnone, List.countP_singleton, hfunction]
    exact hrest

theorem headClauses_of_not_binds {h : Head} (hh : h.binds = false) (n : Node) :
    t.headClauses n h = [] ∧ h.isScopeRoot = false := by
  cases h <;> first | exact ⟨rfl, rfl⟩ | cases hh

theorem opensScope_of_kind_eq_vector {f : Form} (h : f.outline = [n.outline src])
    (hkind : n.kind = .vector) : f.opensScope = true := by
  have hmap : f.outline.map Outline.kind = [.vector] := by
    rw [h, List.map_singleton, Node.kind_outline, hkind]
  cases f with
  | vector items => rfl
  | _ => cases hmap

theorem binds_of_kind_eq_symbol (hsrc : t.source = src) {f : Form}
    (h : f.outline = [n.outline src]) (hkind : n.kind = .symbol) (hf : f.opensScope = false) :
    (Head.ofName? (t.text n)).any Head.binds = false := by
  have hmap : f.outline.map Outline.kind = [.symbol] := by
    rw [h, List.map_singleton, Node.kind_outline, hkind]
  have hsymbol : ∀ name, [Outline.symbol name] = [n.outline src] → t.text n = name := by
    intro name hname
    rw [text_of_outline_eq hsrc (List.singleton_inj.1 hname).symm, String.ofList_toList]
  cases f with
  | symbol name =>
    rw [hsymbol name h]
    exact hf
  | nil =>
    rw [hsymbol "nil" h]
    decide
  | bool value =>
    rw [hsymbol _ h]
    cases value <;> decide
  | _ => cases hmap

/-- A list that does not begin like a binding form introduces no names. -/
theorem quiet_of_readAs (hsrc : t.source = src) {items : List Form}
    (hitems : Node.ReadAs src n.activeForms items) (hfirst : items.head?.all (!·.opensScope) = true)
    (above : List Node) : t.Quiet ⟨n, above⟩ := by
  intro _
  cases items with
  | nil =>
    have hnil := hitems.eq_nil
    rw [clausesAt, head?]
    simp [hnil]
  | cons f fs =>
    obtain ⟨m, ms, hactive, hm, -⟩ := hitems.exists_cons
    have hf : f.opensScope = false := by simpa using hfirst
    have hvector : m.kind ≠ .vector := by
      intro hkind
      rw [opensScope_of_kind_eq_vector hm hkind] at hf
      cases hf
    rw [clausesAt, head?, hactive]
    simp only [List.head?_cons, hvector, if_false]
    by_cases hsymbol : m.kind = .symbol
    · have hbinds := binds_of_kind_eq_symbol hsrc hm hsymbol hf
      rw [if_pos hsymbol]
      cases hname : Head.ofName? (t.text m) with
      | none => exact ⟨rfl, rfl⟩
      | some h =>
        rw [hname] at hbinds
        exact headClauses_of_not_binds hbinds n
    · rw [if_neg hsymbol]
      exact ⟨rfl, rfl⟩

end Tree

end Typeahead
