import Typeahead.Engine.Cache

/-!
# Looks at a project

A *look* at a project asks a cache for the summaries of its files, as the project is at
the time: between two looks files may have been edited, removed, added, or become
unavailable. The cache remembers the summaries that it made, each with the digest of the
text, so that what it remembers after some looks are scans of files that these looks have
found (`Cache.Remembers`). A remembered summary is given for a file if the path and the
digest are the same. This is right if nothing but the path and the digest matters for
what the looks find (`Coherent`), as it is for looks with one limit for the length of
texts, if the digest tells the texts of the files apart.

* `Cache.Remembers.look`: what one look keeps, and what it gives if it is coherent with
  those before;
* `Cache.Remembers.afterLooks`: what any number of looks keeps;
* `Cache.look_afterLooks`: after any looks with the same limit, a look gives the summaries
  of the files as they are.
-/

namespace Typeahead

/-- What a summary tells. The path counts by its parts, so that its spelling does not
    matter. -/
def Summary.content (s : Summary) : List PathPart × Option String × List Definition :=
  (pathParts s.path, s.nsName, s.definitions)

theorem samePath_iff {p q : String} : samePath p q = true ↔ pathParts p = pathParts q :=
  beq_iff_eq

/-- Scans of the same text under two spellings of a path tell the same. -/
theorem Summary.content_scan {p q : String} (h : samePath p q = true) (text : String)
    (maxText : Nat) : (scan p text maxText).content = (scan q text maxText).content := by
  rw [scan, scan]
  split <;> exact Prod.ext (samePath_iff.1 h) rfl

theorem Summary.path_scan (path text : String) (maxText : Nat) :
    (scan path text maxText).path = path := by
  rw [scan]
  split <;> rfl

/-! ### Looks -/

/-- A look at the files of a project, as it is at the time: how many files are listed, how
    long a text may be, and which file is left out. -/
structure Look where
  project : Project
  maxFiles : Nat
  maxText : Nat
  excluded : Option String

namespace Look

variable (l : Look)

/-- Whether the path is not that of the file left out. -/
def takes (path : String) : Bool := !l.excluded.any (samePath · path)

/-- The file at a path, if its text is available. -/
def file? (path : String) : Option Document :=
  match l.project.read path with
  | .ok text => some ⟨path, text⟩
  | .error _ => none

/-- Whether reading the file at a path breaks the project down. -/
def breaksAt (path : String) : Bool :=
  match l.project.read path with
  | .error .breakdown => true
  | _ => false

/-- The paths that are looked at. -/
def paths : List String :=
  match l.project.paths l.maxFiles with
  | .ok paths => paths.filter l.takes
  | .error _ => []

/-- The files that are found, in the order of the list. -/
def files : List Document := l.paths.filterMap l.file?

/-- The summaries of the files as they are. -/
def summaries : List Summary := l.files.map fun d => .scan d.path d.text l.maxText

/-- Whether the project breaks down. -/
def isBroken : Bool :=
  match l.project.paths l.maxFiles with
  | .error .breakdown => true
  | _ => l.paths.any l.breaksAt

end Look

/-- What a cache gives for a look. -/
def Cache.look (c : Cache) (l : Look) : Option (List Summary) × Cache :=
  c.projectSummaries l.project l.maxFiles l.maxText l.excluded

/-- The cache after some looks. -/
def Cache.afterLooks (c : Cache) (looks : List Look) : Cache :=
  looks.foldl (fun c l => (c.look l).2) c

/-- For the files that the looks find nothing matters but the path and the digest. -/
def Coherent (digest : String → String) (looks : List Look) : Prop :=
  ∀ l ∈ looks, ∀ d ∈ l.files, ∀ l' ∈ looks, ∀ d' ∈ l'.files, samePath d'.path d.path = true →
    digest d'.text = digest d.text →
    (Summary.scan d'.path d'.text l'.maxText).content =
      (Summary.scan d.path d.text l.maxText).content

theorem Coherent.mono {digest : String → String} {looks looks' : List Look}
    (h : Coherent digest looks) (hsub : looks' ⊆ looks) : Coherent digest looks' :=
  fun l hl d hd l' hl' => h l (hsub hl) d hd l' (hsub hl')

/-- The digest tells the texts of the files apart. -/
def TellsApart (digest : String → String) (files : List Document) : Prop :=
  ∀ d ∈ files, ∀ d' ∈ files, digest d'.text = digest d.text → d'.text = d.text

instance (digest : String → String) (files : List Document) : Decidable (TellsApart digest files) :=
  inferInstanceAs (Decidable (∀ _ ∈ _, _))

/-- Looks with one limit are coherent if the digest tells apart what they find. -/
theorem TellsApart.coherent {digest : String → String} {looks : List Look} {maxText : Nat}
    (h : TellsApart digest (looks.flatMap Look.files)) (hlimit : ∀ l ∈ looks, l.maxText = maxText) :
    Coherent digest looks := by
  intro l hl d hd l' hl' d' hd' hpath hdigest
  have htext := h d (List.mem_flatMap.2 ⟨l, hl, hd⟩) d' (List.mem_flatMap.2 ⟨l', hl', hd'⟩) hdigest
  rw [hlimit l hl, hlimit l' hl', htext]
  exact Summary.content_scan hpath _ _

namespace Cache

/-! ### What a look leaves alone -/

/-- The caches have the same memos and counters, and tell texts apart in the same way. -/
structure SameMemos (c c' : Cache) : Prop where
  symbols_eq : c'.symbols = c.symbols
  signatures_eq : c'.signatures = c.signatures
  usage_eq : c'.usage = c.usage
  digest_eq : c'.digest = c.digest

variable {c c' : Cache}

theorem SameMemos.refl (c : Cache) : SameMemos c c := ⟨rfl, rfl, rfl, rfl⟩

theorem SameMemos.trans {c'' : Cache} (h : SameMemos c c') (h' : SameMemos c' c'') :
    SameMemos c c'' :=
  ⟨h'.symbols_eq.trans h.symbols_eq, h'.signatures_eq.trans h.signatures_eq,
    h'.usage_eq.trans h.usage_eq, h'.digest_eq.trans h.digest_eq⟩

theorem sameMemos_summary (c : Cache) (path text : String) (maxText : Nat) :
    SameMemos c (c.summary path text maxText).2 := by
  rw [summary]
  split <;> exact ⟨rfl, rfl, rfl, rfl⟩

theorem sameMemos_summariesOf (p : Project) (maxText : Nat) (excluded : Option String) (c : Cache)
    (paths : List String) : SameMemos c (summariesOf p maxText excluded c paths).2 := by
  induction paths generalizing c with
  | nil => exact .refl c
  | cons path paths ih =>
    rw [summariesOf]
    split
    · exact ih c
    split
    · exact (sameMemos_summary ..).trans (ih _)
    · exact ih c
    · exact .refl c

theorem sameMemos_look (c : Cache) (l : Look) : SameMemos c (c.look l).2 := by
  rw [look, projectSummaries]
  split
  · exact sameMemos_summariesOf ..
  · exact .refl c
  · exact .refl c

/-! ### What is remembered -/

/-- The summaries that the cache remembers are scans of files that the looks have found,
    under the digests of their texts. -/
def Remembers (c : Cache) (looks : List Look) : Prop :=
  ∀ s ∈ c.summaries, ∃ l ∈ looks, ∃ d ∈ l.files,
    s = ⟨c.digest d.text, .scan d.path d.text l.maxText⟩

variable {looks : List Look} {l : Look}

theorem Remembers.mono {looks' : List Look} (h : c.Remembers looks) (hsub : looks ⊆ looks') :
    c.Remembers looks' := by
  intro s hs
  obtain ⟨l, hl, hd⟩ := h s hs
  exact ⟨l, hsub hl, hd⟩

theorem remembers_of_nil (h : c.summaries = []) (looks : List Look) : c.Remembers looks := by
  intro s hs
  rw [h] at hs
  exact absurd hs List.not_mem_nil

/-- The summary of a file that a look finds is remembered, and tells what a scan of the
    file does. -/
theorem Remembers.summary (h : c.Remembers looks) (hcoherent : Coherent c.digest looks)
    (hl : l ∈ looks) {d : Document} (hd : d ∈ l.files) :
    (c.summary d.path d.text l.maxText).2.Remembers looks ∧
      (c.summary d.path d.text l.maxText).1.content =
        (Summary.scan d.path d.text l.maxText).content := by
  rw [Cache.summary]
  split
  · next s hfind =>
    obtain ⟨l', hl', d', hd', rfl⟩ := h s (List.mem_of_find?_eq_some hfind)
    have hfound := List.find?_some hfind
    rw [Bool.and_eq_true, Summary.path_scan, beq_iff_eq] at hfound
    exact ⟨h, hcoherent l hl d hd l' hl' d' hd' hfound.1 hfound.2⟩
  · refine ⟨fun s hs => ?_, rfl⟩
    rcases List.mem_append.1 hs with hs | hs
    · exact h s (List.mem_filter.1 hs).1
    · exact ⟨l, hl, d, hd, List.mem_singleton.1 hs⟩

/-- Going through paths keeps what is remembered, and gives what the files at the paths
    tell, unless one of them breaks the project down. -/
theorem Remembers.summariesOf (h : c.Remembers looks) (hcoherent : Coherent c.digest looks)
    (hl : l ∈ looks) {paths : List String} (hpaths : paths.filter l.takes ⊆ l.paths) :
    (summariesOf l.project l.maxText l.excluded c paths).2.Remembers looks ∧
      (summariesOf l.project l.maxText l.excluded c paths).1.map (·.map Summary.content) =
        if (paths.filter l.takes).any l.breaksAt then none
        else some (((paths.filter l.takes).filterMap l.file?).map fun d =>
          (Summary.scan d.path d.text l.maxText).content) := by
  induction paths generalizing c with
  | nil => exact ⟨h, rfl⟩
  | cons path paths ih =>
    rw [Cache.summariesOf]
    split
    · next hexcluded =>
      have htakes : ¬ l.takes path = true := by rw [Look.takes, hexcluded]; decide
      rw [List.filter_cons_of_neg htakes] at hpaths ⊢
      exact ih h hcoherent hpaths
    next hexcluded =>
    have htakes : l.takes path = true := by
      rw [Look.takes, Bool.not_eq_true', Bool.eq_false_iff]
      exact hexcluded
    rw [List.filter_cons_of_pos htakes] at hpaths ⊢
    obtain ⟨hpath, hpaths⟩ := List.cons_subset.1 hpaths
    split
    · next text hread =>
      have hfile : l.file? path = some ⟨path, text⟩ := by rw [Look.file?, hread]
      have hbreaks : l.breaksAt path = false := by rw [Look.breaksAt, hread]
      have hd : ⟨path, text⟩ ∈ l.files := List.mem_filterMap.2 ⟨path, hpath, hfile⟩
      obtain ⟨hremembers, hcontent⟩ := h.summary hcoherent hl hd
      rw [← (sameMemos_summary c path text l.maxText).digest_eq] at hcoherent
      obtain ⟨hrest, hgiven⟩ := ih hremembers hcoherent hpaths
      refine ⟨hrest, ?_⟩
      have hcons : ∀ (s : Summary) (given : Option (List Summary)),
          (given.map (s :: ·)).map (·.map Summary.content) =
            (given.map (·.map Summary.content)).map (s.content :: ·) := by
        intro s given
        cases given <;> rfl
      rw [List.any_cons, hbreaks, Bool.false_or, List.filterMap_cons_some hfile, List.map_cons]
      exact (hcons _ _).trans (by rw [hgiven, hcontent]; split <;> rfl)
    · next hread =>
      have hfile : l.file? path = none := by rw [Look.file?, hread]
      have hbreaks : l.breaksAt path = false := by rw [Look.breaksAt, hread]
      rw [List.any_cons, hbreaks, Bool.false_or, List.filterMap_cons_none hfile]
      exact ih h hcoherent hpaths
    · next hread =>
      have hbreaks : l.breaksAt path = true := by rw [Look.breaksAt, hread]
      rw [List.any_cons, hbreaks, Bool.true_or, if_pos rfl]
      exact ⟨h, rfl⟩

/-- A look is remembered together with those before, and gives what the files that it
    finds tell, unless the project breaks down. -/
theorem Remembers.look (h : c.Remembers looks) (hcoherent : Coherent c.digest (l :: looks)) :
    (c.look l).2.Remembers (l :: looks) ∧
      (c.look l).1.map (·.map Summary.content) =
        if l.isBroken then none else some (l.summaries.map Summary.content) := by
  have h := h.mono (List.subset_cons_self l looks)
  rw [Cache.look, projectSummaries, Look.isBroken, Look.summaries, Look.files, List.map_map]
  cases hlist : l.project.paths l.maxFiles with
  | error outage =>
    have hpaths : l.paths = [] := by rw [Look.paths, hlist]
    rw [hpaths]
    cases outage <;> exact ⟨h, rfl⟩
  | ok paths =>
    have hpaths : l.paths = paths.filter l.takes := by rw [Look.paths, hlist]
    rw [hpaths]
    exact h.summariesOf hcoherent List.mem_cons_self (hpaths ▸ List.Subset.refl _)

/-- Any number of coherent looks is remembered. -/
theorem Remembers.afterLooks (h : c.Remembers looks) {further : List Look}
    (hcoherent : Coherent c.digest (further ++ looks)) :
    (c.afterLooks further).Remembers (further ++ looks) ∧ SameMemos c (c.afterLooks further) := by
  induction further generalizing c looks with
  | nil => exact ⟨h, .refl c⟩
  | cons l further ih =>
    have hmoved : further ++ l :: looks ⊆ l :: further ++ looks := List.perm_middle.subset
    have hsub := List.Subset.trans (List.subset_append_right further _) hmoved
    have hnow := (h.look (hcoherent.mono hsub)).1
    have hsame := sameMemos_look c l
    have hrest := ih hnow (hsame.digest_eq ▸ hcoherent.mono hmoved)
    exact ⟨hrest.1.mono hmoved, hsame.trans hrest.2⟩

/-- After any looks at projects in whatever states, a look gives the summaries of the files
    that are listed now, without the one left out and those that are unavailable, as a scan of
    their present texts gives them; provided that all looks have the same limit for the length
    of texts, and the digest tells the texts of the files apart. -/
theorem look_afterLooks (hc : c.summaries = []) (looks : List Look) (l : Look)
    (hlimit : ∀ l' ∈ looks, l'.maxText = l.maxText)
    (hdigest : TellsApart c.digest ((l :: looks).flatMap Look.files))
    (hbroken : l.isBroken = false) :
    ∃ ss, ((c.afterLooks looks).look l).1 = some ss ∧
      ss.map Summary.content =
        (l.files.map fun d => Summary.scan d.path d.text l.maxText).map Summary.content := by
  have hcoherent : Coherent c.digest (l :: looks) :=
    hdigest.coherent (List.forall_mem_cons.2 ⟨rfl, hlimit⟩)
  have hbefore : Coherent c.digest (looks ++ []) :=
    hcoherent.mono (by rw [List.append_nil]; exact List.subset_cons_self l looks)
  obtain ⟨hremembers, hsame⟩ := (remembers_of_nil hc []).afterLooks hbefore
  rw [List.append_nil] at hremembers
  have hgiven := (hremembers.look (hsame.digest_eq ▸ hcoherent)).2
  rw [hbroken] at hgiven
  exact Option.map_eq_some_iff.1 hgiven

/-- A project of two files and three later states of it. The first file is changed. Then the
    second one is gone, and the files cannot be listed. Then the second one is there again, and
    the first one has its old text, under another spelling of its path. -/
def editedDocuments : List Documents :=
  let d : Documents := { files := [⟨"src/a.phel", "(defn one [] 1)"⟩, ⟨"b.phel", "(ns b)"⟩] }
  let edited := d.set "src/a.phel" "(defn two [x] 22)"
  [d, edited, { edited.remove "b.phel" with isListable := false },
    (edited.remove "src/a.phel").set "src//a.phel" "(defn one [] 1)"]

/-- A look at documents that lists five files, takes texts of up to a hundred bytes and leaves
    out a file that is not among them. -/
def lookAt (d : Documents) : Look := ⟨d.toProject, 5, 100, some "c.phel"⟩

/-- The file that has changed and changed back is not found in its former state, and the
    summary made under the other spelling of its path tells what a new one would. -/
theorem look_afterLooks_edited :
    let cache := Cache.new 10 .oldestFirst (fun text => toString text.length)
    let looks := editedDocuments.map lookAt
    let l := lookAt { files := [⟨"b.phel", "(ns b)"⟩, ⟨"src/a.phel", "(defn one [] 1)"⟩] }
    ∃ ss, ((cache.afterLooks looks).look l).1 = some ss ∧
      ss.map (fun s => s.definitions.map Definition.name) = [[], ["one"]] := by
  intro cache looks l
  have hdigest : TellsApart cache.digest ((l :: looks).flatMap Look.files) := by decide +kernel
  obtain ⟨ss, hss, hcontent⟩ := look_afterLooks (c := cache) rfl looks l (by decide) hdigest
    (by decide +kernel)
  have hnames := congrArg (List.map fun content => content.2.2.map Definition.name) hcontent
  rw [List.map_map] at hnames
  exact ⟨ss, hss, hnames.trans (by decide +kernel)⟩

end Cache

end Typeahead
