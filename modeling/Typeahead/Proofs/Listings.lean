import Typeahead.Config.Basic
import Typeahead.Files.Walk

/-!
# Listings of a project and their limit

A project lists at most as many paths as it is asked for, and they are the first ones of every
longer listing (`Project.RespectsLimit`). Documents that a host holds are listed so. A walk through
a directory takes the path of a source file before it compares with the limit, so the limit 0 has
the effect of the limit 1.

* `listSources_eq`: what a walk lists, from what it has found so far;
* `Project.respectsLimit_iff`: documents respect every limit, and a directory every limit but 0,
  which it respects only if it has no source file.
-/

namespace Typeahead

/-! ### What a walk lists -/

/-- A walk adds the source files that it comes upon to what it has found, until there are as many as
    the limit says, but one at least. -/
theorem listSources_eq {limit : Nat} {found : List String} (h : found.length < max limit 1)
    (items : List WalkItem) :
    listSources limit found items =
      found ++ (items.filterMap WalkItem.source?).take (max limit 1 - found.length) := by
  induction items generalizing found with
  | nil => rw [listSources, List.filterMap_nil, List.take_nil, List.append_nil]
  | cons item items ih =>
    rw [listSources]
    split
    · next hsource => rw [ih h, List.filterMap_cons_none hsource]
    · next path hsource =>
      rw [List.filterMap_cons_some hsource]
      have hroom : max limit 1 - found.length = max limit 1 - (found.length + 1) + 1 := by omega
      rw [hroom, List.take_succ_cons]
      split
      · next hfull =>
        have hnone : max limit 1 - (found.length + 1) = 0 := by omega
        rw [hnone, List.take_zero]
      · next hmore =>
        have hlength : (found ++ [path]).length = found.length + 1 := List.length_append
        rw [ih (by omega), hlength, List.append_assoc, List.singleton_append]

theorem sourcePaths_eq (limit : Nat) (items : List WalkItem) :
    sourcePaths limit items = (items.filterMap WalkItem.source?).take (max limit 1) := by
  rw [sourcePaths, listSources_eq (Nat.lt_of_lt_of_le Nat.one_pos (Nat.le_max_right limit 1)),
    List.nil_append, List.length_nil, Nat.sub_zero]

/-! ### Limits -/

namespace Project

/-- The project lists at most `limit` paths if it is asked for so many, and they are the first ones
    of what it lists for any larger limit. -/
def RespectsLimit (p : Project) (limit : Nat) : Prop :=
  ∃ paths, p.paths limit = .ok paths ∧ paths.length ≤ limit ∧
    ∀ larger, limit < larger → ∃ more, p.paths larger = .ok more ∧ paths = more.take limit

/-- A project whose listings are beginnings of one list respects the limits that the lengths of the
    beginnings do. -/
theorem respectsLimit_of_take {p : Project} {all : List String} {size : Nat → Nat}
    (hpaths : ∀ limit, p.paths limit = .ok (all.take (size limit))) (hsize : ∀ n, n ≤ size n)
    (limit : Nat) : p.RespectsLimit limit ↔ (all.take (size limit)).length ≤ limit := by
  constructor
  · rintro ⟨paths, hlist, hlength, -⟩
    rw [hpaths] at hlist
    cases hlist
    exact hlength
  · intro hlength
    refine ⟨_, hpaths limit, hlength, fun larger hlarger => ⟨_, hpaths larger, ?_⟩⟩
    have hle : limit ≤ size larger := Nat.le_trans (Nat.le_of_lt hlarger) (hsize larger)
    rw [List.take_take, Nat.min_eq_left hle]
    -- the listing has no more paths than the limit, so nothing is cut off by it
    rw [← List.take_of_length_le hlength, List.take_take, Nat.min_eq_left (hsize limit)]

/-- Documents respect every limit. A walk respects every limit but 0, and 0 only if it finds no
    source file, as for this limit it lists the first one. -/
theorem respectsLimit_iff (files : List Document) (items : List WalkItem)
    (read : String → Except FileError (List UInt8)) (limit : Nat) :
    (Documents.toProject { files }).RespectsLimit limit ∧
      ((ofWalk (.ok items) read).RespectsLimit limit ↔
        limit ≠ 0 ∨ ∀ item ∈ items, item.source? = none) ∧
      (ofWalk (.ok items) read).paths 0 = (ofWalk (.ok items) read).paths 1 := by
  have hdocuments : ∀ n, (Documents.toProject { files }).paths n =
      .ok ((files.map (·.path)).take n) := fun n => by
    rw [← List.map_take]
    rfl
  have hwalk : ∀ n, (ofWalk (.ok items) read).paths n =
      .ok ((items.filterMap WalkItem.source?).take (max n 1)) := fun n => by
    rw [← sourcePaths_eq]
    rfl
  refine ⟨?_, ?_, ?_⟩
  · rw [respectsLimit_of_take hdocuments Nat.le_refl]
    exact List.length_take_le limit _
  · rw [respectsLimit_of_take hwalk fun n => Nat.le_max_left n 1, List.length_take]
    rw [← List.filterMap_eq_nil_iff, ← List.length_eq_zero_iff]
    omega
  · rw [hwalk, hwalk]
    rfl

/-- A directory with one source file lists it for the limit 0, which the settings may have. -/
theorem unrespected_limit :
    let d : Disk := ⟨.directory [("a.phel", .file [] 0)], []⟩
    ({ maxProjectFiles := 0 } : Config).invalid? = none ∧
      (d.project "/").paths 0 = .ok ["/a.phel"] ∧ ¬(d.project "/").RespectsLimit 0 := by
  intro d
  have hwalk : d.walk "/" = .ok [.directory "/", .file "/a.phel"] := by
    have hplace : d.resolve "/" = .ok [] := rfl
    have hentries : inNameOrder [("a.phel", [WalkItem.file "/a.phel"])] = [.file "/a.phel"] := by
      rw [inNameOrder, List.mergeSort_singleton]
      rfl
    rw [← hentries, Disk.walk, hplace]
    rfl
  have hpaths : (d.project "/").paths 0 = .ok ["/a.phel"] := by
    have hsources : sourcePaths 0 [.directory "/", .file "/a.phel"] = ["/a.phel"] := by
      decide +kernel
    rw [Disk.project, hwalk, ← hsources]
    rfl
  refine ⟨by decide +kernel, hpaths, ?_⟩
  rintro ⟨paths, hlist, hlength, -⟩
  rw [hpaths] at hlist
  cases hlist
  exact absurd hlength (by decide)

end Project

end Typeahead
