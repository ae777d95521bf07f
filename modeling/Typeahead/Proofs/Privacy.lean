import Typeahead.Proofs.Masking
import Typeahead.Proofs.Placeholder
import Typeahead.Proofs.Reports

/-!
# Private definitions

A definition can be kept in its file by an attribute map with `true` for the key
`:private` (`MakesPrivate`), which stands somewhere between its name and its value or
parameters (`attributeForms`). A summary is made without looking for it there, though:
a list is exported unless its third form is a map in whose text the key occurs. So the
attributes keep a definition in its file if they directly follow its name and no marker
moves them, and are overlooked after a docstring.

* `Tree.publicDefinitions_eq`: what is exported, list by list;
* `Tree.MakesPrivate.key_infix`: a map that makes a definition private shows its key;
* `Tree.definitions_scan_private`: which definitions stay in their file.
-/

namespace Typeahead.Tree

variable (t : Tree)

/-- What the summary of a file tells of a form of its top level. -/
def exported? (n : Node) : Option Definition :=
  if n.kind.isCall then (t.head? n).bind fun h => t.definitionOf? h n else none

/-- The forms between the name of a definition and its value, or else its parameter
    vector or first arity. -/
def attributeForms (h : Head) (n : Node) : List Node :=
  let rest := n.activeForms.drop 2
  if h = .varDef then rest.dropLast
  else rest.takeWhile fun m => m.kind != .vector && !m.kind.isCall

/-- The texts of keys and values that follow each other in turn. -/
def entries : List Node → List (String × String)
  | k :: v :: forms => (t.text k, t.text v) :: entries forms
  | _ => []

/-- The node is a map with `true` for the key `:private`. -/
def MakesPrivate (m : Node) : Prop :=
  m.kind = .map ∧ (":private", "true") ∈ t.entries m.activeForms

instance (m : Node) : Decidable (t.MakesPrivate m) :=
  inferInstanceAs (Decidable (_ ∧ _))

variable {t}

/-- What is exported comes from the active forms of the top level, each on its own. -/
theorem publicDefinitions_eq : t.publicDefinitions = t.root.activeForms.filterMap t.exported? := by
  rw [publicDefinitions, topLevelForms, Node.activeForms, List.filterMap_filterMap,
    List.filterMap_map, List.filterMap_filter]
  congr 1
  funext form
  obtain ⟨n, off⟩ := form
  cases off
  · by_cases hcall : n.kind.isCall
    · cases hhead : t.head? n <;> simp [exported?, hcall, hhead]
    · simp [exported?, hcall]
  · simp

/-- The definitions in the summary of a text that is not too long. -/
theorem definitions_scan (path text : String) (maxText : Nat) :
    (Summary.scan path text maxText).definitions =
      if byteLength text.toList ≤ maxText then
        (Tree.read text.toList).root.activeForms.filterMap (Tree.read text.toList).exported?
      else [] := by
  rw [Summary.scan]
  by_cases hlong : maxText < byteLength text.toList
  · rw [if_pos hlong, if_neg (Nat.not_le_of_lt hlong)]
    rfl
  · rw [if_neg hlong, if_pos (Nat.le_of_not_lt hlong), ← publicDefinitions_eq]

theorem isPrivate_iff {n : Node} : t.isPrivate n = true ↔
    ∃ a, n.forms[2]? = some a ∧ a.kind = .map ∧ ":private".toList <:+: t.chars a := by
  rw [isPrivate, Option.any_eq_true]
  simp only [Bool.and_eq_true, beq_iff_eq, containsText_iff]

theorem isSome_definitionKind? {h : Head} (hpublic : h.isPublic = true) :
    h.definitionKind?.isSome = true := by
  revert hpublic
  cases h <;> decide

/-- A list that defines something public is exported unless it has no name or its third
    form is taken for attributes that make it private. -/
theorem exported?_eq_none_iff {n : Node} {h : Head} (hcall : n.kind.isCall = true)
    (hhead : t.head? n = some h) (hpublic : h.isPublic = true) :
    t.exported? n = none ↔ nameSlot? n = none ∨
      ∃ a, n.forms[2]? = some a ∧ a.kind = .map ∧ ":private".toList <:+: t.chars a := by
  obtain ⟨kind, hkind⟩ := Option.isSome_iff_exists.1 (isSome_definitionKind? hpublic)
  rw [← isPrivate_iff, exported?, if_pos hcall, hhead, Option.bind_some, definitionOf?, hkind]
  cases nameSlot? n with
  | none => simp
  | some a => cases hprivate : t.isPrivate n <;> simp [hpublic]

/-! ### Attributes -/

variable {cs : List Char}

/-- The text of a node is part of the text of the node around it. -/
theorem chars_infix_of_mem_children {n m : Node} (hn : n ∈ (Tree.read cs).nodes)
    (hm : m ∈ n.children) : (Tree.read cs).chars m <:+: (Tree.read cs).chars n := by
  obtain ⟨l, hl, rfl⟩ := exists_location_of_mem_nodes hn
  obtain ⟨before, after, hsplit⟩ := List.append_of_mem hm
  rw [chars_eq_flatMap hl (List.ne_nil_of_mem hm), hsplit, List.flatMap_append, List.flatMap_cons]
  exact ⟨before.flatMap (Tree.read cs).chars, after.flatMap (Tree.read cs).chars, by
    rw [List.append_assoc]⟩

theorem exists_key_of_mem_entries {key value : String} {forms : List Node}
    (h : (key, value) ∈ t.entries forms) : ∃ k ∈ forms, t.text k = key := by
  fun_induction entries t forms with
  | case1 k v forms ih =>
    rcases List.mem_cons.1 h with heq | h
    · exact ⟨k, List.mem_cons_self, (Prod.mk.inj heq).1.symm⟩
    · obtain ⟨k', hk', htext⟩ := ih h
      exact ⟨k', List.mem_cons_of_mem _ (List.mem_cons_of_mem _ hk'), htext⟩
  | case2 => exact absurd h List.not_mem_nil

/-- A map that makes a definition private shows the key for it in its text. -/
theorem MakesPrivate.key_infix {m : Node} (h : (Tree.read cs).MakesPrivate m)
    (hm : m ∈ (Tree.read cs).nodes) : ":private".toList <:+: (Tree.read cs).chars m := by
  obtain ⟨k, hk, htext⟩ := exists_key_of_mem_entries h.2
  have hchars : (Tree.read cs).chars k = ":private".toList := by
    rw [← htext, text, String.toList_ofList]
  rw [← hchars]
  exact chars_infix_of_mem_children hm (m.activeForms_subset_children hk)

/-- Attributes that directly follow the name of a definition are its third active
    form. -/
theorem activeForms_of_head?_attributeForms {h : Head} {n m : Node}
    (hm : (attributeForms h n).head? = some m) : n.activeForms[2]? = some m := by
  have hfirst : (n.activeForms.drop 2).head? = some m := by
    rw [attributeForms] at hm
    cases hrest : n.activeForms.drop 2 with
    | nil => simp [hrest] at hm
    | cons a rest =>
      simp only [hrest] at hm
      split at hm
      · cases rest with
        | nil => cases hm
        | cons b rest => exact hm
      · rw [List.takeWhile_cons] at hm
        split at hm
        · exact hm
        · cases hm
  rwa [List.head?_drop] at hfirst

/-- What the summary of a text exports it exports of the active forms of the top level,
    if the text is not too long. Of a list that defines something public nothing is
    exported if and only if its second form is not a name, or its third form is a map in
    whose text `:private` occurs. So attributes that make it private keep it in its file
    if they directly follow the name and no marker deactivates a form up to them. -/
theorem definitions_scan_private (path text : String) (maxText : Nat) :
    let t := Tree.read text.toList
    (Summary.scan path text maxText).definitions =
      (if byteLength text.toList ≤ maxText then t.root.activeForms.filterMap t.exported? else []) ∧
    ∀ n ∈ t.root.activeForms, ∀ h, n.kind.isCall = true → t.head? n = some h →
      h.isPublic = true →
      (t.exported? n = none ↔ nameSlot? n = none ∨
        ∃ a, n.forms[2]? = some a ∧ a.kind = .map ∧ ":private".toList <:+: t.chars a) ∧
      ∀ m, (attributeForms h n).head? = some m → t.MakesPrivate m →
        n.activeForms.take 3 = n.forms.take 3 → t.exported? n = none := by
  intro t
  refine ⟨definitions_scan path text maxText, fun n hn h hcall hhead hpublic => ?_⟩
  have hiff := exported?_eq_none_iff hcall hhead hpublic
  refine ⟨hiff, fun m hfirst hprivate hunmarked => hiff.2 (.inr ⟨m, ?_, hprivate.1, ?_⟩)⟩
  · have hthird := activeForms_of_head?_attributeForms hfirst
    have hsame := congrArg (·[2]?) hunmarked
    simp only [List.getElem?_take_of_succ] at hsame
    rw [← hsame, hthird]
  · have hnode := mem_nodes_of_mem_activeForms_root hn
    have hmem := List.mem_of_getElem? (activeForms_of_head?_attributeForms hfirst)
    exact hprivate.key_infix (mem_nodes_of_mem_children hnode (n.activeForms_subset_children hmem))

/-- Comments, further entries and a marker inside the map change nothing. -/
theorem definitions_scan_private_value :
    let text := "(def v ; kept here\n \x7b:doc \"d\" #_ x :private true\x7d 1) (def w 2)"
    let t := Tree.read text.toList
    (∃ n ∈ t.root.activeForms, ∃ m, t.head? n = some .varDef ∧
      (attributeForms .varDef n).head? = some m ∧ t.MakesPrivate m ∧ t.exported? n = none) ∧
    (Summary.scan "a.phel" text 100).definitions = [⟨"w", .value, none⟩] := by
  intro text t
  have hforms : ∃ n ∈ t.root.activeForms, n.kind.isCall = true ∧ t.head? n = some .varDef ∧
      (attributeForms .varDef n).head?.any (fun m => t.MakesPrivate m) = true ∧
      n.activeForms.length = n.forms.length := by
    decide +kernel
  obtain ⟨n, hn, hcall, hhead, hfirst, hlength⟩ := hforms
  obtain ⟨m, hfirst, hprivate⟩ := (Option.any_eq_true _ _).1 hfirst
  have hprivate := of_decide_eq_true hprivate
  have hunmarked : n.activeForms = n.forms := n.activeForms_sublist_forms.eq_of_length hlength
  obtain ⟨-, hkept⟩ := definitions_scan_private "a.phel" text 100
  have hnone := (hkept n hn .varDef hcall hhead rfl).2 m hfirst hprivate (by rw [hunmarked])
  exact ⟨⟨n, hn, m, hhead, hfirst, hprivate, hnone⟩, by decide +kernel⟩

/-- After a docstring the attributes are overlooked, and what they make private is
    exported. -/
theorem scan_overlooks_private :
    let text := "(defn f \"doc\" \x7b:private true\x7d [x] x)"
    let t := Tree.read text.toList
    (Summary.scan "a.phel" text 100).definitions = [⟨"f", .function, some "(f x)"⟩] ∧
    ∃ n ∈ t.root.activeForms, t.head? n = some .fnDef ∧
      ∃ m ∈ attributeForms .fnDef n, t.MakesPrivate m := by
  decide +kernel

end Typeahead.Tree
