import Typeahead.Proofs.Answers
import Typeahead.Proofs.Histories

/-!
# Requests that share a cache

Requests over a project whose files do not change can still find different files: a list or a text
may be unavailable for a while, a request leaves out the file that it comes from, and engines
differ in their limits. Summaries are remembered under the path of a file and call shapes under
the name of a function, without what they were found under. Where each file is too long for all
requests or for none, no more than a call shape gets from one request to another, and none does
if the requests that ask for it find the same files (`Request.answer_after_alike`). The histories
at which this fails otherwise follow the theorems.
-/

namespace Typeahead

/-! ### Projects whose files do not change -/

namespace Project

/-- A file has one text, however its path is spelled. -/
def OneText (p : Project) : Prop :=
  ∀ path path' text text', samePath path path' = true → p.read path = .ok text →
    p.read path' = .ok text' → text = text'

/-- The texts that the project `q` gives are those of `p`. -/
def ReadsAs (q p : Project) : Prop :=
  ∀ path text, q.read path = .ok text → p.read path = .ok text

theorem ReadsAs.refl (p : Project) : p.ReadsAs p := fun _ _ h => h

end Project

theorem Look.read_of_mem_files {l : Look} {d : Document} (h : d ∈ l.files) :
    l.project.read d.path = .ok d.text := by
  obtain ⟨path, -, hfile⟩ := List.mem_filterMap.1 h
  rw [Look.file?] at hfile
  split at hfile
  · next hread =>
    cases hfile
    exact hread
  · cases hfile

/-- Looks at one project that leave out the same file find the same files if they are given the
    same list. -/
theorem Look.files_eq_of_paths {l l' : Look} (hproject : l'.project = l.project)
    (hexcluded : l'.excluded = l.excluded)
    (hpaths : l'.project.paths l'.maxFiles = l.project.paths l.maxFiles) : l'.files = l.files := by
  have htakes : l'.takes = l.takes := by
    funext path
    rw [takes, takes, hexcluded]
  have hfile : l'.file? = l.file? := by
    funext path
    rw [file?, file?, hproject]
  rw [files, files, paths, paths, hpaths, htakes, hfile]

theorem Summary.scan_eq_of_limit {text : String} {m m' : Nat}
    (h : m' < byteLength text.toList ↔ m < byteLength text.toList) (path : String) :
    scan path text m' = scan path text m := by
  simp only [scan, h]

/-- Looks at the files of a project that do not change are coherent if each file is too long for
    all looks or for none. -/
theorem Project.OneText.coherent {p : Project} (hp : p.OneText) (digest : String → String)
    {looks : List Look} (hread : ∀ l ∈ looks, l.project.ReadsAs p)
    (hlimit : ∀ l ∈ looks, ∀ d ∈ l.files, ∀ l' ∈ looks,
      (l'.maxText < byteLength d.text.toList ↔ l.maxText < byteLength d.text.toList)) :
    Coherent digest looks := by
  intro l hl d hd l' hl' d' hd' hpath _
  have htext : d'.text = d.text :=
    hp _ _ _ _ hpath (hread l' hl' _ _ (Look.read_of_mem_files hd'))
      (hread l hl _ _ (Look.read_of_mem_files hd))
  rw [htext, Summary.scan_eq_of_limit (hlimit l hl d hd l' hl')]
  exact Summary.content_scan hpath _ _

namespace Documents

variable {d : Documents}

theorem exists_find?_eq_of_read {path text : String} (h : d.read path = .ok text) :
    ∃ f, (d.files.find? fun f => samePath f.path path) = some f ∧ f.text = text := by
  rw [read] at h
  split at h
  · cases h
  split at h
  · cases h
  split at h
  · next f hf =>
    cases h
    exact ⟨f, hf, rfl⟩
  · cases h

theorem oneText_toProject (d : Documents) : d.toProject.OneText := by
  intro path path' text text' hpath hread hread'
  have hfind : (d.files.find? fun f => samePath f.path path) =
      d.files.find? fun f => samePath f.path path' := by
    congr 1
    funext f
    rw [samePath, samePath, samePath_iff.1 hpath]
  obtain ⟨f, hf, rfl⟩ := exists_find?_eq_of_read hread
  obtain ⟨f', hf', rfl⟩ := exists_find?_eq_of_read hread'
  rw [hfind, hf'] at hf
  cases hf
  rfl

/-- Whatever is unavailable of documents, the texts that they give are those of the documents
    when all of them are available. -/
theorem readsAs_toProject {d' : Documents} (hfiles : d'.files = d.files) (hbroken : d.broken = none)
    (hunreadable : d.unreadable = []) : d'.toProject.ReadsAs d.toProject := by
  intro path text h
  obtain ⟨f, hf, rfl⟩ := exists_find?_eq_of_read h
  rw [hfiles] at hf
  simp [toProject, read, hbroken, hunreadable, hf]

end Documents

/-! ### Requests that share a cache -/

namespace Request

variable {r r' : Request}

theorem eq_look_of_mem_looks {l : Look} (h : l ∈ r.looks) : l = r.look := by
  rw [looks] at h
  split at h
  · rw [Engine.looks] at h
    split at h
    · exact List.mem_singleton.1 h
    · exact absurd h List.not_mem_nil
  · exact absurd h List.not_mem_nil

/-- The files that are found are too long for both requests, or for none. -/
def LimitsAlike (r r' : Request) : Prop :=
  ∀ d ∈ r.look.files,
    (r'.look.maxText < byteLength d.text.toList ↔ r.look.maxText < byteLength d.text.toList)

instance (r r' : Request) : Decidable (r.LimitsAlike r') :=
  inferInstanceAs (Decidable (∀ d ∈ r.look.files, _))

theorem coherent_looks {p : Project} (hp : p.OneText) (digest : String → String)
    {requests : List Request} (hread : ∀ r ∈ requests, r.look.project.ReadsAs p)
    (hlimit : ∀ r ∈ requests, ∀ r' ∈ requests, r.LimitsAlike r') :
    Coherent digest (requests.flatMap looks) := by
  have hlooks : ∀ l ∈ requests.flatMap looks, ∃ r ∈ requests, l = r.look := by
    intro l hl
    obtain ⟨r, hr, hl⟩ := List.mem_flatMap.1 hl
    exact ⟨r, hr, eq_look_of_mem_looks hl⟩
  refine hp.coherent digest (fun l hl => ?_) fun l hl d hd l' hl' => ?_
  · obtain ⟨r, hr, rfl⟩ := hlooks l hl
    exact hread r hr
  · obtain ⟨r, hr, rfl⟩ := hlooks l hl
    obtain ⟨r', hr', rfl⟩ := hlooks l' hl'
    exact hlimit r hr r' hr' d hd

/-- Requests that find the same files find the same call shapes. -/
theorem shape_eq_of_files (hfiles : r'.look.files = r.look.files) (hlimit : r.LimitsAlike r')
    (function : String) : r'.shape function = r.shape function := by
  have hsummaries : r'.look.summaries = r.look.summaries := by
    rw [Look.summaries, Look.summaries, hfiles]
    exact List.map_congr_left fun d hd => Summary.scan_eq_of_limit (hlimit d hd) d.path
  rw [shape, shape, hsummaries]

variable {c fresh : Cache} {history : List Request}

/-- Requests that find the same texts, too long for all of them or for none, leave no trace in
    later answers but call shapes. They leave none at all if those that ask for the same call
    shape find the same files. -/
theorem answer_after_alike {p : Project} (hp : p.OneText) (hc : c.IsFresh) (hfresh : fresh.IsFresh)
    (husage : fresh.usage = c.usage) (hread : ∀ r' ∈ r :: history, r'.look.project.ReadsAs p)
    (hlimit : ∀ r₁ ∈ r :: history, ∀ r₂ ∈ r :: history, r₁.LimitsAlike r₂) :
    (r.answer (c.after history) = r.answer fresh ∨
        r.AnswersFrom history (c.after history) fresh) ∧
      ((∀ r' ∈ history, r'.asked? = r.asked? → r'.look.files = r.look.files) →
        r.answer (c.after history) = r.answer fresh) := by
  have hself : Coherent fresh.digest r.looks := by
    refine (coherent_looks hp fresh.digest hread hlimit).mono ?_
    rw [List.flatMap_cons]
    exact List.subset_append_left _ _
  have hafter := answer_after hc hfresh husage history r (coherent_looks hp _ hread hlimit) hself
  refine ⟨hafter, fun hfiles => ?_⟩
  rcases hafter with hsame | ⟨function, hasked, -, r', hr', hasked', hne, -⟩
  · exact hsame
  · have hlimit := hlimit r List.mem_cons_self r' (List.mem_cons_of_mem _ hr')
    have hfiles := hfiles r' hr' (hasked'.trans hasked.symm)
    exact absurd (shape_eq_of_files hfiles hlimit function) hne

/-- The candidates that the request offers with a given cache, if it looks at the project. -/
def offered (r : Request) (c : Cache) : List Candidate :=
  match r.cursor, (c.look r.look).1 with
  | .ok (t, cursor), some ss =>
    let context := Context.ofCursor t r.engine.config cursor
    Offer.atCursor t r.engine.config cursor context ss
      (r.engine.slotSignature (c.look r.look).2 t cursor context.slot ss).1
  | _, _ => []

/-- The answer to a request that looks at a steady project is made of what it offers. -/
theorem exists_answer_eq (hlooks : r.looks ≠ []) (hsteady : ∀ p ∈ r.engine.project, p.Steady)
    (c : Cache) : ∃ c' context, r.answer c = .ok (r.engine.answer c' context (r.offered c)) := by
  have hfound := r.engine.isSome_summaries hsteady c r.currentFile
  obtain ⟨ss, hss⟩ := Option.isSome_iff_exists.1 hfound
  rw [Engine.summaries_eq_look] at hss
  cases hcursor : r.cursor with
  | error error =>
    rw [looks, hcursor] at hlooks
    exact absurd rfl hlooks
  | ok found =>
    obtain ⟨t, cursor⟩ := found
    simp only [looks, hcursor, Engine.looks] at hlooks
    split at hlooks
    · next hslot =>
      rw [Bool.and_eq_true, Bool.not_eq_true'] at hslot
      have hanswer : r.answer c = .ok (r.engine.complete c t cursor r.currentFile).1 := by
        rw [answer, completeSource_eq, hcursor]
        rfl
      rw [hanswer, Engine.complete_eq, hslot.1, hslot.2, offered, hcursor, look, hss]
      exact ⟨_, _, rfl⟩
    · exact absurd rfl hlooks

/-- Without a limit, a remark that is offered with only one of two caches tells the answers
    apart. -/
theorem answer_ne_of_offered {c' : Cache} (hlooks : r.looks ≠ [])
    (hsteady : ∀ p ∈ r.engine.project, p.Steady) (hlimit : r.engine.criteria.maxResults = none)
    (hoffered : ∃ d ∈ r.offered c', d.isRemark = true ∧ d.key ∉ (r.offered c).map Candidate.key) :
    r.answer c ≠ r.answer c' := by
  obtain ⟨d, hd, hremark, hnew⟩ := hoffered
  obtain ⟨c₁, context, hanswer⟩ := exists_answer_eq hlooks hsteady c
  obtain ⟨c₂, context', hanswer'⟩ := exists_answer_eq hlooks hsteady c'
  rw [hanswer, hanswer']
  intro heq
  have hfits : ∀ typed, d.fits typed = true := by
    intro typed
    rw [Candidate.isRemark, decide_eq_true_eq] at hremark
    rw [Candidate.fits, hremark]
  have hmem := r.engine.key_mem_answer c₂ context' _ hlimit hd (hfits _)
  rw [← Except.ok.inj heq] at hmem
  exact hnew (r.engine.keys_answer_subset _ _ _ hmem)

/-- One engine serves any requests over a project whose files do not change; lists and texts may
    have been unavailable to some of them, and each may have left out its own file. A further
    request is answered as with a fresh cache that has the same counters, unless it asks for the
    call shape of a function for which an earlier request has found another one. If the requests
    that asked for the same call shape have found the same files, it is answered so in any
    case. -/
theorem answer_after_outages (e : Engine) {p : Project} (hp : p.OneText) (hc : c.IsFresh)
    (hfresh : fresh.IsFresh) (husage : fresh.usage = c.usage) (history : List Request)
    (hhistory : ∀ r' ∈ history, ∃ q : Project, q.ReadsAs p ∧
      r'.engine = { e with project := some q })
    (r : Request) (hr : r.engine = { e with project := some p }) :
    (r.answer (c.after history) = r.answer fresh ∨
        r.AnswersFrom history (c.after history) fresh) ∧
      ((∀ r' ∈ history, r'.asked? = r.asked? → r'.look.files = r.look.files) →
        r.answer (c.after history) = r.answer fresh) := by
  have hengine : ∀ r' ∈ r :: history, ∃ q : Project, q.ReadsAs p ∧
      r'.engine = { e with project := some q } :=
    List.forall_mem_cons.2 ⟨⟨p, .refl p, hr⟩, hhistory⟩
  have hlook : ∀ r' ∈ r :: history,
      r'.look.project.ReadsAs p ∧ r'.look.maxText = e.config.maxFileText := by
    intro r' hr'
    obtain ⟨q, hq, hengine⟩ := hengine r' hr'
    rw [look, Engine.look, hengine]
    exact ⟨hq, rfl⟩
  refine answer_after_alike hp hc hfresh husage (fun r' hr' => (hlook r' hr').1) ?_
  intro r₁ hr₁ r₂ hr₂ d _
  rw [(hlook r₁ hr₁).2, (hlook r₂ hr₂).2]

/-- The documents of the requests below. -/
def helperDocuments : Documents :=
  { files := [⟨"lib.phel", "(def a 1) (defn helper [x y] x)"⟩] }

/-- The request at the end of a text, to an engine over given documents. -/
def atEnd (config : Config) (d : Documents) (source : String) (currentFile : Option String) :
    Request :=
  ⟨{ Engine.new config with project := some d.toProject }, source.toList, byteLength source.toList,
    currentFile⟩

/-- Outages of other calls, and other calls from the file itself, do no harm. -/
theorem answer_after_outages_elsewhere :
    let ask := atEnd { maxDefinitionsPerFile := 1 }
    let history := [ask { helperDocuments with isListable := false } "(filter zz" none,
      ask { helperDocuments with unreadable := ["lib.phel"] } "(help" none,
      ask helperDocuments "(a zz" (some "lib.phel"), ask helperDocuments "(helper zz" none]
    let r := ask helperDocuments "(helper zz" none
    r.asked? = some "helper" ∧ r.answer (Cache.standard.after history) = r.answer .standard := by
  intro ask history r
  let e : Engine := .new { maxDefinitionsPerFile := 1 }
  have hengine : ∀ unreadable isListable source currentFile,
      ∃ q : Project, q.ReadsAs helperDocuments.toProject ∧
        (ask { helperDocuments with unreadable, isListable } source currentFile).engine =
          { e with project := some q } := by
    intro unreadable isListable source currentFile
    refine ⟨_, ?_, rfl⟩
    exact Documents.readsAs_toProject rfl rfl rfl
  have hasked : r.asked? = some "helper" := by decide +kernel
  refine ⟨hasked, (answer_after_outages e helperDocuments.oneText_toProject ⟨rfl, rfl, rfl⟩
    ⟨rfl, rfl, rfl⟩ rfl history ?_ r rfl).2 ?_⟩
  · simp only [history, List.forall_mem_cons]
    exact ⟨hengine _ _ _ _, hengine _ _ _ _, hengine _ _ _ _, hengine _ _ _ _,
      fun _ h => absurd h List.not_mem_nil⟩
  · rw [hasked]
    decide +kernel

/-- A request while the list of the files is unavailable, or from the file that has the
    function, hides the parameters of the function from later requests. -/
theorem answer_after_outage_ne :
    let ask := atEnd { maxDefinitionsPerFile := 1 }
    let r := ask helperDocuments "(helper zz" none
    let unlisted := ask { helperDocuments with isListable := false } "(helper zz" none
    let within := ask helperDocuments "(helper zz" (some "lib.phel")
    r.answer (Cache.standard.after [unlisted]) ≠ r.answer .standard ∧
      r.answer (Cache.standard.after [within]) ≠ r.answer .standard := by
  intro ask r unlisted within
  have hlooks : r.looks ≠ [] := by decide +kernel
  have hsteady : ∀ p ∈ r.engine.project, p.Steady := by
    intro p hp
    cases hp
    exact Documents.steady_toProject rfl
  exact ⟨answer_ne_of_offered hlooks hsteady rfl (by decide +kernel),
    answer_ne_of_offered hlooks hsteady rfl (by decide +kernel)⟩

/-- Any number of engines over one project share a cache, and no request leaves out a file. If
    every file is too long for all engines or for none, an engine answers as with a fresh cache
    that has the same counters, unless it asks for the call shape of a function for which an
    earlier request has found another one. If the engines list the same files, it answers so in
    any case, whatever their other settings are. -/
theorem answer_after_engines {p : Project} (hp : p.OneText) (hc : c.IsFresh)
    (hfresh : fresh.IsFresh) (husage : fresh.usage = c.usage) (history : List Request) (r : Request)
    (hengine : ∀ r' ∈ r :: history, r'.engine.project = some p ∧ r'.currentFile = none)
    (hlimit : ∀ r₁ ∈ r :: history, ∀ r₂ ∈ r :: history, r₁.LimitsAlike r₂) :
    (r.answer (c.after history) = r.answer fresh ∨
        r.AnswersFrom history (c.after history) fresh) ∧
      ((∀ r' ∈ history, p.paths r'.engine.config.maxProjectFiles =
          p.paths r.engine.config.maxProjectFiles) →
        r.answer (c.after history) = r.answer fresh) := by
  have hlook : ∀ r' ∈ r :: history, r'.look.project = p ∧ r'.look.excluded = none := by
    intro r' hr'
    obtain ⟨hproject, hfile⟩ := hengine r' hr'
    rw [look, Engine.look, hproject, hfile]
    exact ⟨rfl, rfl⟩
  have hread : ∀ r' ∈ r :: history, r'.look.project.ReadsAs p := by
    intro r' hr'
    rw [(hlook r' hr').1]
    exact .refl p
  obtain ⟨hafter, hsame⟩ := answer_after_alike hp hc hfresh husage hread hlimit
  refine ⟨hafter, fun hpaths => hsame fun r' hr' _ => ?_⟩
  obtain ⟨hproject, hexcluded⟩ := hlook r List.mem_cons_self
  obtain ⟨hproject', hexcluded'⟩ := hlook r' (List.mem_cons_of_mem _ hr')
  refine Look.files_eq_of_paths (hproject'.trans hproject.symm) (hexcluded'.trans hexcluded.symm) ?_
  rw [hproject, hproject']
  exact hpaths r' hr'

/-- Engines that differ in every limit but list the same file and scan all of it. -/
theorem answer_after_engines_unlike :
    let ask := fun config source => atEnd config helperDocuments source none
    let history := [ask { maxDefinitionsPerFile := 1, maxProjectFiles := 3 } "(helper zz",
      ask { maxFileText := 100, maxResults := some 2 } "(helper zz", ask {} "(hel"]
    let r := ask { maxDefinitionsPerFile := 1, maxFileText := 40 } "(helper zz"
    r.asked? = some "helper" ∧ r.answer (Cache.standard.after history) = r.answer .standard := by
  intro ask history r
  have hengine : ∀ r' ∈ r :: history,
      r'.engine.project = some helperDocuments.toProject ∧ r'.currentFile = none := by
    simp [r, history, ask, atEnd]
  have hlimit : ∀ r₁ ∈ r :: history, ∀ r₂ ∈ r :: history, r₁.LimitsAlike r₂ := by decide +kernel
  refine ⟨by decide +kernel, (answer_after_engines helperDocuments.oneText_toProject
    ⟨rfl, rfl, rfl⟩ ⟨rfl, rfl, rfl⟩ rfl history r hengine hlimit).2 ?_⟩
  simp only [history, List.forall_mem_cons]
  exact ⟨rfl, rfl, rfl, fun _ h => absurd h List.not_mem_nil⟩

/-- An engine for which a file is too long leaves its empty summary to all others, and one that
    lists fewer files its ignorance of the call shapes in the rest. -/
theorem answer_after_engine_ne :
    let ask := fun config d => atEnd config d "(helper zz" none
    let d : Documents := { files := ⟨"a.phel", "(def b 1)"⟩ :: helperDocuments.files }
    let r := ask {} helperDocuments
    let r' := ask { maxDefinitionsPerFile := 1 } d
    r.answer (Cache.standard.after [ask { maxFileText := 5 } helperDocuments]) ≠
        r.answer .standard ∧
      r'.answer (Cache.standard.after [ask { maxProjectFiles := 1 } d]) ≠ r'.answer .standard := by
  intro ask d r r'
  have hsteady : ∀ config d, Documents.broken d = none →
      ∀ p ∈ (ask config d).engine.project, p.Steady := by
    intro config d hd p hp
    cases hp
    exact Documents.steady_toProject hd
  exact ⟨answer_ne_of_offered (by decide +kernel) (hsteady _ _ rfl) rfl (by decide +kernel),
    answer_ne_of_offered (by decide +kernel) (hsteady _ _ rfl) rfl (by decide +kernel)⟩

end Request

end Typeahead
