import Typeahead.Proofs.Bodies
import Typeahead.Scope.Definitions

/-!
# What is reported of definitions

A file is searched for definitions among the active forms: the list of a definition
is one of the top level that no marker deactivates, its head is its first active
form, and its parameter vector is one of its active forms. The name is its second
form, though, and the parameters in the signature are the forms of the parameter
vector, whether markers deactivate them or not (`Reports`).

* `Tree.getElem?_activeForms_iff`: the form at an index is the active one there if
  and only if no form up to it is deactivated;
* `Tree.callShape_activeForms_iff`: a signature shows the difference of every
  deactivated parameter;
* `Tree.reports_scan_siblingBindings`: what is reported of a list is made of active
  forms if and only if no marker deactivates one of its first two forms, or a form of
  its parameter vector.
-/

namespace Typeahead

/-! ### Positions in a sublist -/

section Sublist

variable {α : Type} {xs ys : List α} {a : α}

theorem le_of_getElem?_sublist (h : ys.Sublist xs) (hnodup : xs.Nodup) {i j : Nat}
    (hi : xs[i]? = some a) (hj : ys[j]? = some a) : j ≤ i := by
  induction h generalizing i j with
  | slnil => cases hj
  | @cons ys xs x hsub ih =>
    obtain ⟨hx, hxs⟩ := List.nodup_cons.1 hnodup
    cases i with
    | zero =>
      cases hi
      exact absurd (hsub.subset (List.mem_of_getElem? hj)) hx
    | succ i => exact Nat.le_succ_of_le (ih hxs hi hj)
  | @cons_cons ys xs x hsub ih =>
    obtain ⟨hx, hxs⟩ := List.nodup_cons.1 hnodup
    cases j with
    | zero => exact Nat.zero_le i
    | succ j =>
      cases i with
      | zero =>
        cases hi
        exact absurd (hsub.subset (List.mem_of_getElem? (i := j) hj)) hx
      | succ i => exact Nat.succ_le_succ (ih hxs hi hj)

/-- A member is at the same place in a sublist if and only if nothing up to it was
    left out. -/
theorem getElem?_sublist_iff (h : ys.Sublist xs) (hnodup : xs.Nodup) {k : Nat}
    (hk : xs[k]? = some a) : ys[k]? = some a ↔ ys.take (k + 1) = xs.take (k + 1) := by
  constructor
  · intro hy
    induction h generalizing k with
    | slnil => rfl
    | @cons ys xs x hsub ih =>
      obtain ⟨hx, hxs⟩ := List.nodup_cons.1 hnodup
      cases k with
      | zero =>
        cases hk
        exact absurd (hsub.subset (List.mem_of_getElem? hy)) hx
      | succ k => exact absurd (le_of_getElem?_sublist hsub hxs hk hy) (Nat.not_succ_le_self k)
    | @cons_cons ys xs x hsub ih =>
      cases k with
      | zero => rfl
      | succ k =>
        rw [List.take_succ_cons, List.take_succ_cons, ih (List.nodup_cons.1 hnodup).2 hk hy]
  · intro htake
    have hlast := congrArg (·[k]?) htake
    simp only [List.getElem?_take_of_succ] at hlast
    rw [hlast, hk]

end Sublist

/-! ### Signatures -/

theorem length_intercalate_cons_lt (name x : String) (xs : List String) :
    (" ".intercalate (name :: xs)).length < (" ".intercalate (name :: x :: xs)).length := by
  have hspace : " ".length = 1 := rfl
  cases xs with
  | nil =>
    rw [String.intercalate_cons_cons, String.intercalate_singleton, String.intercalate_singleton,
      String.length_append, String.length_append]
    omega
  | cons y ys =>
    simp only [String.intercalate_cons_cons, String.length_append]
    omega

/-- Every word that is left out makes a line of words shorter. -/
theorem eq_of_intercalate_sublist {xs ys : List String} (h : ys.Sublist xs) (name : String) :
    (" ".intercalate (name :: ys)).length ≤ (" ".intercalate (name :: xs)).length ∧
      (" ".intercalate (name :: ys) = " ".intercalate (name :: xs) → ys = xs) := by
  induction h generalizing name with
  | slnil => exact ⟨Nat.le_refl _, fun _ => rfl⟩
  | @cons ys xs x _ ih =>
    have hlt := Nat.lt_of_le_of_lt (ih name).1 (length_intercalate_cons_lt name x xs)
    exact ⟨Nat.le_of_lt hlt, fun heq => absurd (congrArg String.length heq) (Nat.ne_of_lt hlt)⟩
  | @cons_cons ys xs x _ ih =>
    rw [String.intercalate_cons_cons, String.intercalate_cons_cons]
    refine ⟨?_, fun heq => ?_⟩
    · simp only [String.length_append]
      exact Nat.add_le_add_left (ih x).1 _
    · rw [(ih x).2 (String.append_right_inj _ |>.1 heq)]

/-! ### Forms and active forms -/

theorem map_fst_judgeForms (before : List Kind) (ns : List Node) :
    (judgeForms before ns).map Prod.fst = ns.filter (·.kind.isForm) := by
  induction ns generalizing before with
  | nil => rfl
  | cons n ns ih =>
    rw [judgeForms, List.filter_cons]
    split
    · rw [List.map_cons, ih]
    · exact ih _

theorem Node.activeForms_sublist_forms (n : Node) : n.activeForms.Sublist n.forms := by
  rw [Node.forms, ← map_fst_judgeForms []]
  exact List.filter_sublist.map Prod.fst

namespace Tree

/-- The forms of a node are different ones. -/
theorem nodup_forms {cs : List Char} {n : Node} (hn : n ∈ (Tree.read cs).nodes) :
    n.forms.Nodup := by
  refine List.Pairwise.filter _ ?_
  by_cases hcs : cs = []
  · subst hcs
    rw [Tree.read, lex] at hn
    rw [List.mem_singleton.1 hn]
    exact List.nodup_nil
  · exact nodup_children hcs hn

/-- The form at an index is the active one there if and only if no form up to it is
    deactivated. -/
theorem getElem?_activeForms_iff {cs : List Char} {n a : Node} (hn : n ∈ (Tree.read cs).nodes)
    {k : Nat} (ha : n.forms[k]? = some a) :
    n.activeForms[k]? = some a ↔ n.activeForms.take (k + 1) = n.forms.take (k + 1) :=
  getElem?_sublist_iff n.activeForms_sublist_forms (nodup_forms hn) ha

variable (t : Tree)

/-- The parameter vector of a list that takes parameters. -/
def parameters? (n : Node) : Option Node :=
  ((t.head? n).bind (·.parameterSlot?)).bind fun _ => n.parameterVector?

/-- The shape of a call of `name` with the given forms as parameters. -/
def callShape (name : String) (params : List Node) : String :=
  "(" ++ " ".intercalate (name :: params.map t.text) ++ ")"

theorem callSignature?_eq (n : Node) (name : String) :
    t.callSignature? n name = (t.parameters? n).map fun ps => t.callShape name ps.forms := by
  rw [callSignature?, parameters?]
  cases t.head? n with
  | none => rfl
  | some h =>
    simp only [Option.bind_eq_bind, Option.bind_some]
    cases h.parameterSlot? with
    | none => rfl
    | some slot => cases n.parameterVector? <;> rfl

/-- The call shapes of all forms of a vector and of the active ones are the same only
    if all are active. -/
theorem callShape_activeForms_iff (name : String) (ps : Node) :
    t.callShape name ps.forms = t.callShape name ps.activeForms ↔ ps.activeForms = ps.forms := by
  constructor
  · intro heq
    have hsub := ps.activeForms_sublist_forms.map t.text
    have hmap := (eq_of_intercalate_sublist hsub name).2
      (String.append_right_inj _ |>.1 (String.append_left_inj _ |>.1 heq)).symm
    refine ps.activeForms_sublist_forms.eq_of_length ?_
    rw [← List.length_map (f := t.text), hmap, List.length_map]
  · intro heq
    rw [heq]

/-! ### What is reported -/

/-- The list `n`, an active one of the top level, is reported as a definition with
    the given name and signature: the name is its second form, and the parameters in
    the signature are the forms of its parameter vector. -/
structure Reports (n : Node) (name : String) (signature : Option String) : Prop where
  mem : n ∈ t.root.activeForms
  isCall : n.kind.isCall = true
  exists_head : ∃ h, t.head? n = some h ∧ h.isDefinition = true
  exists_name : ∃ a, nameSlot? n = some a ∧ t.text a = name
  signature_eq : signature = (t.parameters? n).map fun ps => t.callShape name ps.forms

/-- What is reported of the list `n` is made of active forms: the form that the name
    is taken from is the second active one, and the parameters in the signature are the
    active forms of the parameter vector. -/
structure ReportsActive (n : Node) (name : String) (signature : Option String) : Prop where
  exists_name : ∃ a, nameSlot? n = some a ∧ t.text a = name ∧ n.activeForms[1]? = some a
  signature_eq : signature = (t.parameters? n).map fun ps => t.callShape name ps.activeForms

variable {t}

theorem forms_of_nameSlot? {n a : Node} (h : nameSlot? n = some a) : n.forms[1]? = some a :=
  (Option.filter_eq_some_iff.1 h).1

theorem mem_activeForms_iff {n c : Node} : c ∈ n.activeForms ↔ (c, false) ∈ n.judgedForms := by
  rw [Node.activeForms, List.mem_map]
  constructor
  · rintro ⟨⟨m, off⟩, hmem, rfl⟩
    obtain ⟨hjudged, hoff⟩ := List.mem_filter.1 hmem
    rw [Bool.not_eq_true'] at hoff
    exact hoff ▸ hjudged
  · exact fun h => ⟨(c, false), List.mem_filter.2 ⟨h, rfl⟩, rfl⟩

theorem mem_nodes_of_mem_activeForms_root {n : Node} (hn : n ∈ t.root.activeForms) :
    n ∈ t.nodes :=
  mem_nodes_of_mem_children t.root.mem_preorder_self (t.root.activeForms_subset_children hn)

theorem mem_topLevelForms_iff {h : Head} {n : Node} : (h, n) ∈ t.topLevelForms ↔
    n ∈ t.root.activeForms ∧ n.kind.isCall = true ∧ t.head? n = some h := by
  rw [topLevelForms, List.mem_filterMap, mem_activeForms_iff]
  constructor
  · rintro ⟨⟨m, off⟩, hjudged, heq⟩
    dsimp only at heq
    split at heq
    · next hcall =>
      obtain ⟨h', hhead, hpair⟩ := Option.map_eq_some_iff.1 heq
      obtain ⟨rfl, rfl⟩ := Prod.mk.inj hpair
      rw [Bool.and_eq_true, Bool.not_eq_true'] at hcall
      exact ⟨hcall.2 ▸ hjudged, hcall.1, hhead⟩
    · cases heq
  · rintro ⟨hjudged, hcall, hhead⟩
    refine ⟨(n, false), hjudged, ?_⟩
    dsimp only
    rw [hcall, hhead]
    rfl

/-- The public definitions are what is reported of the lists that define something
    public. -/
theorem mem_publicDefinitions_iff {d : Definition} : d ∈ t.publicDefinitions ↔
    ∃ n h, t.Reports n d.name d.signature ∧ t.head? n = some h ∧
      h.definitionKind? = some d.kind ∧ h.isPublic = true ∧ t.isPrivate n = false := by
  rw [publicDefinitions, List.mem_filterMap]
  constructor
  · rintro ⟨⟨h, n⟩, hmem, hd⟩
    obtain ⟨hactive, hcall, hhead⟩ := mem_topLevelForms_iff.1 hmem
    obtain ⟨kind, hkind, hd⟩ := Option.bind_eq_some_iff.1 hd
    obtain ⟨a, ha, hd⟩ := Option.bind_eq_some_iff.1 hd
    split at hd
    · next hpublic =>
      cases hd
      rw [Bool.and_eq_true, Bool.not_eq_true'] at hpublic
      exact ⟨n, h, ⟨hactive, hcall, ⟨h, hhead, Option.isSome_iff_exists.2 ⟨kind, hkind⟩⟩,
        ⟨a, ha, rfl⟩, t.callSignature?_eq n (t.text a)⟩, hhead, hkind, hpublic⟩
    · cases hd
  · rintro ⟨n, h, hreports, hhead, hkind, hpublic, hprivate⟩
    refine ⟨(h, n), mem_topLevelForms_iff.2 ⟨hreports.mem, hreports.isCall, hhead⟩, ?_⟩
    obtain ⟨a, ha, hname⟩ := hreports.exists_name
    simp only [definitionOf?, hkind, ha, hpublic, hprivate, hname, callSignature?_eq,
      ← hreports.signature_eq, Option.bind_eq_bind, Option.bind_some, Bool.not_false,
      Bool.and_self, if_true]
    rfl

theorem reports_of_mem_siblingBindings {maxForms : Nat} {cursor : Location} {b : Binding}
    (hb : b ∈ t.siblingBindings maxForms cursor) : ∃ n, t.Reports n b.name b.signature := by
  obtain ⟨⟨n, off⟩, hjudged, hb⟩ := List.mem_filterMap.1 hb
  dsimp only at hb
  split at hb
  · next hcall =>
    rw [Bool.and_eq_true, Bool.not_eq_true'] at hcall
    have hactive := mem_activeForms_iff.2 (hcall.2 ▸ List.take_subset _ _ hjudged)
    obtain ⟨h, hhead, hb⟩ := Option.bind_eq_some_iff.1 hb
    obtain ⟨kind, hkind, hb⟩ := Option.bind_eq_some_iff.1 hb
    obtain ⟨a, ha, hb⟩ := Option.bind_eq_some_iff.1 hb
    dsimp only at hb
    split at hb
    · cases hb
    · cases hb
      exact ⟨n, hactive, hcall.1, ⟨h, hhead, Option.isSome_iff_exists.2 ⟨kind, hkind⟩⟩,
        ⟨a, ha, rfl⟩, t.callSignature?_eq n (t.text a)⟩
  · cases hb

theorem exists_of_declaredNs? {ns : String} (h : t.declaredNs? = some ns) :
    ∃ n ∈ t.root.activeForms, t.head? n = some .ns ∧
      ∃ a, nameSlot? n = some a ∧ t.text a = ns := by
  obtain ⟨_, ⟨head, n⟩, _, hforms, hslot, -⟩ := List.findSome?_eq_some_iff.1 h
  have hmem : (head, n) ∈ t.topLevelForms := by simp [hforms]
  dsimp only at hslot
  split at hslot
  · next hns =>
    obtain ⟨hactive, -, hhead⟩ := mem_topLevelForms_iff.1 hmem
    exact ⟨n, hactive, hns ▸ hhead, Option.map_eq_some_iff.1 hslot⟩
  · cases hslot

/-- What is reported of a list is made of active forms if and only if no marker
    deactivates one of its first two forms or a form of its parameter vector. -/
theorem Reports.active_iff {cs : List Char} {n : Node} {name : String} {signature : Option String}
    (h : (Tree.read cs).Reports n name signature) :
    (Tree.read cs).ReportsActive n name signature ↔ n.activeForms.take 2 = n.forms.take 2 ∧
      ∀ ps, (Tree.read cs).parameters? n = some ps → ps.activeForms = ps.forms := by
  obtain ⟨a, ha, hname⟩ := h.exists_name
  have hslot := getElem?_activeForms_iff (mem_nodes_of_mem_activeForms_root h.mem)
    (forms_of_nameSlot? ha)
  constructor
  · intro hactive
    obtain ⟨b, hb, -, hsecond⟩ := hactive.exists_name
    obtain rfl := Option.some.inj (ha.symm.trans hb)
    refine ⟨hslot.1 hsecond, fun ps hps => ?_⟩
    have heq := h.signature_eq.symm.trans hactive.signature_eq
    rw [hps] at heq
    exact (callShape_activeForms_iff _ name ps).1 (Option.some.inj heq)
  · rintro ⟨htake, hparams⟩
    refine ⟨⟨a, ha, hname, hslot.2 htake⟩, h.signature_eq.trans ?_⟩
    cases hps : (Tree.read cs).parameters? n with
    | none => rfl
    | some ps => rw [Option.map_some, Option.map_some, hparams ps hps]

/-- The definitions in the summary of a text are those of its active lists of the top
    level that define something public, and every definition that is found for a cursor
    is that of such a list, public or not. Its name is the second form of the list, and
    the signature has all forms of the parameter vector. These are active forms if and
    only if no marker deactivates one of the first two forms of the list or a form of
    the vector. The namespace of the summary is the second form of an active
    declaration, which is an active one under the same condition. -/
theorem reports_scan_siblingBindings (path text : String) (maxText : Nat) :
    let t := Tree.read text.toList
    let summary := Summary.scan path text maxText
    (∀ d, d ∈ summary.definitions ↔ byteLength text.toList ≤ maxText ∧
      ∃ n h, t.Reports n d.name d.signature ∧ t.head? n = some h ∧
        h.definitionKind? = some d.kind ∧ h.isPublic = true ∧ t.isPrivate n = false) ∧
    (∀ maxForms cursor, ∀ b ∈ t.siblingBindings maxForms cursor,
      ∃ n, t.Reports n b.name b.signature) ∧
    (∀ n name signature, t.Reports n name signature →
      (t.ReportsActive n name signature ↔ n.activeForms.take 2 = n.forms.take 2 ∧
        ∀ ps, t.parameters? n = some ps → ps.activeForms = ps.forms)) ∧
    ∀ ns, summary.nsName = some ns → ∃ n ∈ t.root.activeForms, t.head? n = some .ns ∧
      ∃ a, nameSlot? n = some a ∧ t.text a = ns ∧
        (n.activeForms[1]? = some a ↔ n.activeForms.take 2 = n.forms.take 2) := by
  intro t summary
  refine ⟨fun d => ?_, fun _ _ b hb => reports_of_mem_siblingBindings hb,
    fun _ _ _ h => h.active_iff, fun ns hns => ?_⟩
  · by_cases hlong : maxText < byteLength text.toList
    · have hsummary : summary = .empty path := if_pos hlong
      rw [hsummary]
      exact ⟨fun h => absurd h List.not_mem_nil, fun h => absurd h.1 (Nat.not_le_of_lt hlong)⟩
    · have hsummary : summary = ⟨path, t.declaredNs?, t.publicDefinitions⟩ := if_neg hlong
      rw [hsummary, and_iff_right (Nat.le_of_not_lt hlong)]
      exact mem_publicDefinitions_iff
  · by_cases hlong : maxText < byteLength text.toList
    · have hsummary : summary = .empty path := if_pos hlong
      rw [hsummary] at hns
      cases hns
    · have hsummary : summary = ⟨path, t.declaredNs?, t.publicDefinitions⟩ := if_neg hlong
      rw [hsummary] at hns
      obtain ⟨n, hn, hhead, a, ha, htext⟩ := exists_of_declaredNs? hns
      exact ⟨n, hn, hhead, a, ha, htext, getElem?_activeForms_iff
        (mem_nodes_of_mem_activeForms_root hn) (forms_of_nameSlot? ha)⟩

/-- Markers at the top level and in the body leave the report as it is. -/
theorem reports_scan_siblingBindings_unmarked :
    let text := "#_(defn f [y]) (defn f ; a comment\n [x & xs] (g #_y x))"
    let t := Tree.read text.toList
    ⟨"f", .function, some "(f x & xs)"⟩ ∈ (Summary.scan "a.phel" text 100).definitions ∧
      ∃ n, t.Reports n "f" (some "(f x & xs)") ∧ t.ReportsActive n "f" (some "(f x & xs)") := by
  intro text t
  have hmem : ⟨"f", .function, some "(f x & xs)"⟩ ∈
      (Summary.scan "a.phel" text 100).definitions := by
    decide +kernel
  have hlength : ∀ n ∈ t.root.activeForms, n.activeForms.length = n.forms.length ∧
      (t.parameters? n).all (fun ps => ps.activeForms.length == ps.forms.length) = true := by
    decide +kernel
  have hall : ∀ n : Node, n.activeForms.length = n.forms.length → n.activeForms = n.forms :=
    fun n => n.activeForms_sublist_forms.eq_of_length
  obtain ⟨hdefs, -, hactive, -⟩ := reports_scan_siblingBindings "a.phel" text 100
  obtain ⟨-, n, -, hreports, -⟩ := (hdefs _).1 hmem
  obtain ⟨hforms, hparams⟩ := hlength n hreports.mem
  refine ⟨hmem, n, hreports, (hactive n _ _ hreports).2 ⟨by rw [hall n hforms], fun ps hps => ?_⟩⟩
  rw [hps] at hparams
  exact hall ps (eq_of_beq hparams)

/-- The names and the parameter that the markers deactivate are reported. -/
theorem scan_deactivated_names :
    let text := "(ns #_ old new) (defn #_ f g [#_ y x])"
    let t := Tree.read text.toList
    Summary.scan "a.phel" text 100 =
      ⟨"a.phel", some "old", [⟨"f", .function, some "(f y x)"⟩]⟩ ∧
    t.root.activeForms.map (fun n => n.activeForms.map t.text) =
      [["ns", "new"], ["defn", "g", "[#_ y x]"]] ∧
    (t.root.activeForms.flatMap (·.activeForms)).flatMap (fun n => n.activeForms.map t.text) =
      ["x"] := by
  decide +kernel

end Tree

end Typeahead
