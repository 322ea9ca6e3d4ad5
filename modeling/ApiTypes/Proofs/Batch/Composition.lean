import ApiTypes.Proofs.Batch.Collisions
import ApiTypes.Proofs.Batch.Growth

/-! Runs as compositions. Where no output of a run is one of its files, and every file taken alone
gives a text, none, or a diagnostic, a run visits all files of all sources in order, and each of
them tells what it tells alone. So the output, the report and the files that are left are put
together from those of single files, and another content in one file changes nothing of what
comes of the others. -/

namespace ApiTypes.Batch

open Files

variable {settings : Settings} {tree t : Tree} {path p : Path} {q : List String}

/-! ### Visits with the same account -/

theorem map_eq_of_account {β : Type} {f : Visit → β} {vs vs' : List Visit}
    (hf : ∀ v v' : Visit, v.account = v'.account → f v = f v')
    (h : vs.map Visit.account = vs'.map Visit.account) : vs.map f = vs'.map f := by
  induction vs generalizing vs' with
  | nil =>
    rw [List.map_nil, eq_comm, List.map_eq_nil_iff] at h
    rw [h]
  | cons v rest ih =>
    cases vs' with
    | nil => cases h
    | cons v' rest' =>
      obtain ⟨hv, hrest⟩ := List.cons.inj h
      rw [List.map_cons, List.map_cons, hf v v' hv, ih hrest]

theorem filterMap_eq_of_map_eq {α α' β : Type} {f : α → Option β} {g : α' → Option β}
    {l : List α} {l' : List α'} (h : l.map f = l'.map g) : l.filterMap f = l'.filterMap g := by
  have hid : (l.map f).filterMap id = (l'.map g).filterMap id := by rw [h]
  rwa [List.filterMap_map, List.filterMap_map] at hid

variable {v v' : Visit}

theorem result_of_account (h : v.account = v'.account) : v.result = v'.result :=
  congrArg (fun a => a.2.1) h

theorem log_of_account (h : v.account = v'.account) : v.log = v'.log :=
  congrArg (fun a => a.2.2.1) h

theorem schema?_of_account (h : v.account = v'.account) : v.schema? = v'.schema? :=
  congrArg (fun a => a.2.2.2) h

theorem text?_of_account (h : v.account = v'.account) : v.text? = v'.text? := by
  rw [Visit.text?, Visit.text?, result_of_account h]

theorem diagnostic?_of_account (h : v.account = v'.account) : v.diagnostic? = v'.diagnostic? := by
  rw [Visit.diagnostic?, Visit.diagnostic?, result_of_account h]

theorem halt?_of_account (h : v.account = v'.account) : v.halt? = v'.halt? := by
  rw [Visit.halt?, Visit.halt?, result_of_account h, show v.path = v'.path from congrArg Prod.fst h]

theorem printed_of_account (h : v.account = v'.account) :
    v.printed settings = v'.printed settings := by
  rw [Visit.printed, Visit.printed, text?_of_account h]

theorem outputs_of_account (h : v.account = v'.account) (hhome : v.found.home = v'.found.home) :
    v.outputs settings = v'.outputs settings := by
  rw [Visit.outputs, Visit.outputs, text?_of_account h, schema?_of_account h, hhome,
    show v.path = v'.path from congrArg Prod.fst h]

/-! ### Files that stay -/

/-- A file behind which a run goes on is there. -/
theorem file_of_halt? (h : (visitIn settings t path).halt? = none) :
    ∃ place content, t.locate path = .ok place ∧ t.find? place = some (.file content) := by
  refine file_of_read? fun hnone => ?_
  rw [visitIn_of_error (f := .file (.notFound path)) (by rw [documentIn, hnone]; rfl)] at h
  cases h

/-- A file that is no output stays as it is, even in the place of the directory of dumps. -/
theorem find?_left_of_file {content : ByteArray} (hfile : t.find? q = some (.file content))
    (h : ∀ o ∈ (visitIn settings t path).outputs settings, q ≠ o.1) :
    (visitIn settings t path).left.find? q = t.find? q := by
  by_cases hq : q = dumpRoot t.home
  · subst hq
    by_cases hkept : (visitIn settings t path).left.find? (dumpRoot t.home) =
        t.find? (dumpRoot t.home)
    · exact hkept
    · have hd := find?_left_dumpRoot.resolve_left hkept
      have hgrown : Grown t (visitIn settings t path).left := grown_left
      obtain ⟨content', hfile'⟩ := hgrown.file _ content hfile
      rw [hd] at hfile'
      cases hfile'
  · exact find?_left hq h

/-! ### Compositions -/

/-- What is asked of the files of a run: taken alone, none of them ends it, and no output of one
goes to the place of another. -/
structure Separate (settings : Settings) (tree : Tree) (files : List Path) : Prop where
  goes : ∀ p ∈ files, (visitIn settings tree p).halt? = none
  apart : ∀ p ∈ files, ∀ o ∈ (visitIn settings tree p).outputs settings, ∀ p' ∈ files,
    o.1 ≠ p'.placeFrom tree.home

/-- A tree that a run has come to from another one, with the files as they were. -/
structure Steady (tree : Tree) (files : List Path) (t : Tree) : Prop where
  grown : Grown tree t
  kept : ∀ p ∈ files, t.find? (p.placeFrom tree.home) = tree.find? (p.placeFrom tree.home)

/-- A course that tells of its files what they tell alone, and leaves their outputs. -/
structure Composed (settings : Settings) (tree : Tree) (files : List Path) (t : Tree)
    (part : List Path) (c : Course) : Prop where
  goes : c.halt? = none
  accounts : c.visits.map Visit.account =
    (part.map (visitIn settings tree)).map Visit.account
  steady : Steady tree files c.tree
  left : ∀ q, q ≠ dumpRoot tree.home →
    c.tree.find? q =
      entryAfter ((part.map (visitIn settings tree)).flatMap (Visit.outputs settings)) q (t.find? q)

variable {files part part' : List Path}

theorem Composed.nil (h : Steady tree files t) :
    Composed settings tree files t [] { tree := t } where
  goes := rfl
  accounts := rfl
  steady := h
  left := fun _ _ => rfl

theorem Composed.andThen {c : Course} {next : Tree → Course}
    (h : Composed settings tree files t part c)
    (h' : Composed settings tree files c.tree part' (next c.tree)) :
    Composed settings tree files t (part ++ part') (c.andThen next) := by
  rw [Course.andThen_of_none h.goes]
  refine ⟨h'.goes, ?_, h'.steady, fun q hq => ?_⟩
  · rw [List.map_append, List.map_append, List.map_append, h.accounts, h'.accounts]
  · rw [List.map_append, List.flatMap_append, entryAfter_append, ← h.left q hq]
    exact h'.left q hq

/-- A file tells in a run what it tells alone. -/
theorem Composed.ofFile (hs : Separate settings tree files) (ht : Steady tree files t)
    (hp : p ∈ files) : Composed settings tree files t [p] (.ofFile settings p t) := by
  obtain ⟨place, content, hplace, hfile⟩ := file_of_halt? (hs.goes p hp)
  have hhome := ht.grown.home
  have hkept : t.find? place = tree.find? place := by
    rw [Tree.locate_eq hplace]
    exact ht.kept p hp
  have haccount : (visitIn settings t p).account = (visitIn settings tree p).account :=
    ht.grown.account_visitIn hplace hkept
  have hgoes : (visitIn settings t p).halt? = none :=
    (halt?_of_account haccount).trans (hs.goes p hp)
  have houtputs : (visitIn settings t p).outputs settings =
      (visitIn settings tree p).outputs settings := outputs_of_account haccount hhome
  refine ⟨hgoes, by simp [Course.ofFile, haccount], ⟨ht.grown.trans grown_left, fun p' hp' => ?_⟩,
    fun q hq => ?_⟩
  · obtain ⟨place', content', hplace', hfile'⟩ := file_of_halt? (hs.goes p' hp')
    rw [Tree.locate_eq hplace', ← ht.kept p' hp'] at hfile'
    rw [← ht.kept p' hp']
    refine find?_left_of_file hfile' fun o ho => ?_
    rw [houtputs] at ho
    exact (hs.apart p hp o ho p' hp').symm
  · rw [List.map_singleton, List.flatMap_singleton, ← houtputs]
    exact find?_left_eq (hhome ▸ hq) hgoes

theorem Composed.ofFiles (hs : Separate settings tree files) (ht : Steady tree files t)
    (hp : ∀ p ∈ part, p ∈ files) :
    Composed settings tree files t part (.through (.ofFile settings) part t) := by
  induction part generalizing t with
  | nil => exact .nil ht
  | cons p rest ih =>
    have hfirst := Composed.ofFile hs ht (hp p List.mem_cons_self)
    exact hfirst.andThen (ih hfirst.steady fun p' hp' => hp p' (List.mem_cons_of_mem p hp'))

/-- The sources of a run are those that it finds at the beginning, and so are their files. -/
theorem Composed.ofSources (hs : Separate settings tree files) (ht : Steady tree files t)
    {sources : List Path} (hthere : ∀ source ∈ sources, tree.exists? source = .ok true)
    (hp : ∀ source ∈ sources, ∀ p ∈ filesOf tree source, p ∈ files) :
    Composed settings tree files t (sources.flatMap (filesOf tree))
      (.ofSources settings sources t) := by
  induction sources generalizing t with
  | nil => exact .nil ht
  | cons source rest ih =>
    have hsource := hthere source List.mem_cons_self
    have hfirst : Composed settings tree files t (filesOf tree source)
        (.ofSource settings source t) := by
      rw [Course.ofSource, ht.grown.exists? hsource]
      dsimp only
      rw [ht.grown.filesOf hsource]
      exact .ofFiles hs ht (hp source List.mem_cons_self)
    exact hfirst.andThen (ih hfirst.steady
      (fun source' h => hthere source' (List.mem_cons_of_mem source h))
      fun source' h => hp source' (List.mem_cons_of_mem source h))

/-- The files of the sources of a run. -/
def filesOfRun (options : CommandLine.Options) (tree : Tree) : List Path :=
  (options.sources.map Path.ofString).flatMap (filesOf tree)

theorem Grown.filesOfRun {t' : Tree} {options : CommandLine.Options} (h : Grown t t')
    (hthere : ∀ source ∈ options.sources, t.exists? (Path.ofString source) = .ok true) :
    Batch.filesOfRun options t' = Batch.filesOfRun options t := by
  rw [Batch.filesOfRun, Batch.filesOfRun, List.flatMap_map, List.flatMap_map]
  refine congrArg List.flatten (List.map_congr_left fun source hsource => ?_)
  exact h.filesOf (hthere source hsource)

theorem composed_courseOf {options : CommandLine.Options}
    (hthere : ∀ source ∈ options.sources, tree.exists? (Path.ofString source) = .ok true)
    (hs : Separate settings tree (filesOfRun options tree)) :
    Composed settings tree (filesOfRun options tree) tree (filesOfRun options tree)
      (courseOf settings options tree) := by
  refine .ofSources hs ⟨.refl tree, fun _ _ => rfl⟩ ?_ fun source hsource p hp => ?_
  · intro source hsource
    obtain ⟨argument, hargument, rfl⟩ := List.mem_map.mp hsource
    exact hthere argument hargument
  · exact List.mem_flatMap.mpr ⟨source, hsource, hp⟩

/-! ### What a run says of its files -/

section Says

variable {c : Course} (h : Composed settings tree files t part c)

include h

theorem Composed.raised : c.raised =
    (part.map (visitIn settings tree)).filterMap Visit.diagnostic? :=
  filterMap_eq_of_map_eq (map_eq_of_account (fun _ _ => diagnostic?_of_account) h.accounts)

theorem Composed.log : c.log = String.join ((part.map (visitIn settings tree)).map Visit.log) := by
  rw [Course.log, map_eq_of_account (fun _ _ => log_of_account) h.accounts]

theorem Composed.printed : c.printed settings =
    if settings.write then ""
    else String.join
      (((part.map (visitIn settings tree)).filterMap Visit.text?).map (· ++ "\n")) := by
  rw [Course.printed, map_eq_of_account (fun _ _ => printed_of_account) h.accounts]
  generalize part.map (visitIn settings tree) = vs
  induction vs with
  | nil => simp
  | cons v rest ih =>
    rw [List.map_cons, String.join_cons, ih, Visit.printed, List.filterMap_cons]
    cases v.text? with
    | none => simp
    | some text => by_cases hw : settings.write = true <;> simp [hw]

end Says

/-! ### The files of a source -/

theorem inOrder_cons_iff {x y : String} {a b : List String} :
    Tree.inOrder (x :: a) (y :: b) = true ↔ x < y ∨ x = y ∧ Tree.inOrder a b = true := by
  rw [Tree.inOrder, Bool.or_eq_true, Bool.and_eq_true, decide_eq_true_eq, decide_eq_true_eq]

theorem inOrder_trans {a b c : List String} (h : Tree.inOrder a b = true)
    (h' : Tree.inOrder b c = true) :
    Tree.inOrder a c = true := by
  induction a generalizing b c with
  | nil => rfl
  | cons x a ih =>
    cases b with
    | nil => cases h
    | cons y b =>
      cases c with
      | nil => cases h'
      | cons z c =>
        rw [inOrder_cons_iff] at *
        rcases h with hxy | ⟨rfl, h⟩
        · rcases h' with hyz | ⟨rfl, -⟩
          · exact .inl (String.lt_trans hxy hyz)
          · exact .inl hxy
        · rcases h' with hyz | ⟨rfl, h'⟩
          · exact .inl hyz
          · exact .inr ⟨rfl, ih h h'⟩

theorem inOrder_total (a b : List String) : (Tree.inOrder a b || Tree.inOrder b a) = true := by
  induction a generalizing b with
  | nil => rfl
  | cons x a ih =>
    cases b with
    | nil => rfl
    | cons y b =>
      rw [Bool.or_eq_true, inOrder_cons_iff, inOrder_cons_iff]
      by_cases hxy : x < y
      · exact .inl (.inl hxy)
      · by_cases hyx : y < x
        · exact .inr (.inl hyx)
        · have heq : x = y := String.le_antisymm hyx hxy
          subst heq
          exact ((Bool.or_eq_true _ _).mp (ih b)).imp (fun h => .inr ⟨rfl, h⟩)
            fun h => .inr ⟨rfl, h⟩

theorem pairwise_mergeSort (l : List (List String)) :
    (l.mergeSort Tree.inOrder).Pairwise fun a b => Tree.inOrder a b = true := by
  refine List.pairwise_mergeSort ?_ inOrder_total l
  exact fun _ _ _ => inOrder_trans

/-- A directory holds its schema files at any depth, in order. -/
theorem filesOf_directory {source : Path} (h : tree.isDirectory source = true) :
    ∃ place, ∃ rests : List (List String), tree.locate source = .ok place ∧
      filesOf tree source = rests.map source.append ∧
      (rests.Pairwise fun a b => Tree.inOrder a b = true) ∧
      ∀ rest, rest ∈ rests ↔ (nameAt rest).endsWith schemaExtension = true ∧
        ∃ content, (place ++ rest, .file content) ∈ tree.entries := by
  cases hp : tree.locate source with
  | error e => simp [Tree.isDirectory, Tree.entryAt?, hp, Except.toOption] at h
  | ok place =>
    rw [filesOf, if_pos h, Tree.filesBelow, hp]
    refine ⟨place, _, rfl, rfl, pairwise_mergeSort _, fun rest => ?_⟩
    rw [List.mem_mergeSort, List.mem_filterMap]
    constructor
    · rintro ⟨⟨full, entry⟩, hmem, hsome⟩
      cases entry with
      | directory => cases hsome
      | file content =>
        obtain ⟨hbelow, hends⟩ := Option.filter_eq_some_iff.mp hsome
        rw [below?_eq_some_iff] at hbelow
        subst hbelow
        exact ⟨hends, content, hmem⟩
    · rintro ⟨hends, content, hmem⟩
      exact ⟨_, hmem, Option.filter_eq_some_iff.mpr ⟨below?_eq_some_iff.mpr rfl, hends⟩⟩

/-! ### Another content in one file -/

/-- An entry at `q`, with another content if it is the file at a place. -/
def changedAt (place : List String) (content : ByteArray) (q : List String) : Entry → Entry
  | .directory => .directory
  | .file old => .file (if q = place then content else old)

/-- A tree with another content in the file at a place. -/
def withContent (t : Tree) (place : List String) (content : ByteArray) : Tree :=
  { t with entries := t.entries.map fun e => (e.1, changedAt place content e.1 e.2) }

variable {place : List String} {content : ByteArray}

theorem find?_withContent (q : List String) :
    (withContent t place content).find? q = (t.find? q).map (changedAt place content q) := by
  have hlisted : (withContent t place content).listed? q =
      (t.listed? q).map (changedAt place content q) := by
    rw [Tree.listed?, Tree.listed?, withContent]
    dsimp only
    rw [List.find?_map]
    simp only [Function.comp_def]
    cases he : t.entries.find? (fun e => e.1 = q) with
    | none => rfl
    | some e => rw [Option.map_some, Option.map_some, Option.map_some, Tree.key_of_find? he]; rfl
  have hfind : ∀ t : Tree, t.find? q =
      if q.isPrefixOf t.home then some .directory else t.listed? q := fun _ => rfl
  rw [hfind, hfind, hlisted, show (withContent t place content).home = t.home from rfl]
  split <;> rfl

theorem find?_withContent_of_ne (h : q ≠ place) :
    (withContent t place content).find? q = t.find? q := by
  rw [find?_withContent]
  cases t.find? q with
  | none => rfl
  | some entry => cases entry <;> simp [changedAt, h]

theorem grown_withContent : Grown t (withContent t place content) where
  home := rfl
  directory := fun q hq => by rw [find?_withContent, hq]; rfl
  file := fun q c hq => ⟨_, by rw [find?_withContent, hq]; rfl⟩
  fresh := fun q hq hne => absurd (by rw [find?_withContent, hq]; rfl) hne
  schemas := by
    rw [schemaPlaces, schemaPlaces, withContent]
    dsimp only
    rw [List.filterMap_map]
    refine congrArg t.entries.filterMap (funext fun e => ?_)
    obtain ⟨key, entry⟩ := e
    cases entry <;> rfl

theorem documentOf_eq_ok {content? : Option ByteArray} {doc : Document}
    (h : documentOf p content? = .ok doc) (p' : Path) : documentOf p' content? = .ok doc := by
  cases content? with
  | none => cases h
  | some content =>
    rw [documentOf] at h ⊢
    cases ht : String.fromUTF8? content with
    | none => rw [ht] at h; cases h
    | some text =>
      rw [ht] at h
      dsimp only at h ⊢
      cases hr : Document.Reader.document (String.ofList (normalizeLines text.toList)) with
      | ok doc' => rw [hr] at h; exact h
      | error e =>
        rw [hr] at h
        dsimp only at h
        split at h <;> cases h

/-- Two paths to one place lead to the same document. -/
theorem documentIn_eq_ok {place : List String} {p' : Path} {doc : Document}
    (hp : t.locate p = .ok place) (hp' : t.locate p' = .ok place)
    (h : documentIn t p = .ok doc) : documentIn t p' = .ok doc := by
  have hread : t.read? p' = t.read? p := by rw [read?_eq hp, read?_eq hp']
  rw [documentIn, hread]
  exact documentOf_eq_ok h p'

/-- No generation succeeds in a file that fails with a diagnostic. -/
theorem generation_of_diagnostic? {d : Diagnostic} {s : Schema Document} {text : String}
    (hd : (visitIn settings t p).diagnostic? = some d)
    (hs : (visitIn settings t p).schema? = some s) :
    (s.generateLoaded settings.engine settings.packaging).result ≠ .ok text := by
  intro hr
  rw [visitIn_of_schema hs, schemaJob_of_ok hr, Visit.diagnostic?] at hd
  dsimp only at hd
  cases hp : (perform (generationActs settings s ++ targetActs settings p text) t).1 with
  | ok _ => rw [hp] at hd; cases hd
  | error f =>
    have hfiles := isOfFiles_of_perform hp
    rw [hp] at hd
    cases f with
    | file | unnameable => cases hd
    | error | undecodable | beyondLimit | noEngine => cases hfiles

/-- A file that is no schema has no outputs, and the run goes on behind it. -/
theorem visit_of_plain {doc : Document} (h : documentIn t p = .ok doc)
    (hplain : Schema.isSchema doc = false) :
    (visitIn settings t p).schema? = none ∧ (visitIn settings t p).text? = none ∧
      (visitIn settings t p).halt? = none := by
  have hnone : (visitIn settings t p).schema? = none := by
    rw [schema?_of_ok h, hplain, if_neg Bool.false_ne_true]
  refine ⟨hnone, (visit_of_noSchema hnone).1, ?_⟩
  rw [visitIn_of_ok h, jobOf, hplain, if_neg Bool.false_ne_true]
  rfl

section Changed

variable {d : Diagnostic} {doc : Document} {p' : Path}

/-- Another content, which is no schema, in a file that fails with a diagnostic: the file gives
no text before and after, and all other files tell what they tell before. -/
theorem account_withContent (hs : Separate settings tree files) (hp : p ∈ files) (hp' : p' ∈ files)
    (hd : (visitIn settings tree p).diagnostic? = some d)
    (hdoc : documentIn (withContent tree (p.placeFrom tree.home) content) p = .ok doc)
    (hplain : Schema.isSchema doc = false) :
    let v := visitIn settings tree p'
    let v' := visitIn settings (withContent tree (p.placeFrom tree.home) content) p'
    v'.account = v.account ∨
      v.text? = none ∧ v.schema? = (visitIn settings tree p).schema? ∧
        v'.schema? = none ∧ v'.text? = none ∧ v'.halt? = none := by
  intro v v'
  obtain ⟨place, old, hplace, hfile⟩ := file_of_halt? (hs.goes p hp)
  obtain ⟨place', old', hplace', hfile'⟩ := file_of_halt? (hs.goes p' hp')
  have hgrown : Grown tree (withContent tree (p.placeFrom tree.home) content) := grown_withContent
  by_cases heq : place' = p.placeFrom tree.home
  · -- Both paths lead to the file with the new content.
    rw [← Tree.locate_eq hplace] at heq
    subst heq
    refine .inr ⟨?_, ?_, visit_of_plain
      (documentIn_eq_ok (hgrown.locate hplace) (hgrown.locate hplace') hdoc) hplain⟩
    · cases ht : v.text? with
      | none => rfl
      | some text =>
        obtain ⟨s, hschema, hresult, -⟩ := text?_eq_some_iff.mp ht
        obtain ⟨doc', hdoc', hisSchema, hload⟩ := schema?_eq_some_iff.mp hschema
        exact absurd hresult (generation_of_diagnostic? hd (schema?_eq_some_iff.mpr
          ⟨doc', documentIn_eq_ok hplace' hplace hdoc', hisSchema, hload⟩))
    · refine Option.ext fun s => ?_
      rw [schema?_eq_some_iff, schema?_eq_some_iff]
      constructor
      · exact fun ⟨doc', h, h'⟩ => ⟨doc', documentIn_eq_ok hplace' hplace h, h'⟩
      · exact fun ⟨doc', h, h'⟩ => ⟨doc', documentIn_eq_ok hplace hplace' h, h'⟩
  · exact .inl (hgrown.account_visitIn hplace' (find?_withContent_of_ne heq))

end Changed

theorem entryAfter_flatMap_congr {part : List Path} {f g : Path → List (List String × String)}
    (h : ∀ p ∈ part, ∀ entry, entryAfter (f p) q entry = entryAfter (g p) q entry)
    (entry : Option Entry) :
    entryAfter (part.flatMap f) q entry = entryAfter (part.flatMap g) q entry := by
  induction part generalizing entry with
  | nil => rfl
  | cons p rest ih =>
    rw [List.flatMap_cons, List.flatMap_cons, entryAfter_append, entryAfter_append,
      h p List.mem_cons_self, ih fun p' hp' => h p' (List.mem_cons_of_mem p hp')]

/-- The files of a run stay separate when one that fails gets another content. -/
theorem separate_withContent (hs : Separate settings tree files) (hp : p ∈ files) {d : Diagnostic}
    (hd : (visitIn settings tree p).diagnostic? = some d) {doc : Document}
    (hdoc : documentIn (withContent tree (p.placeFrom tree.home) content) p = .ok doc)
    (hplain : Schema.isSchema doc = false) :
    Separate settings (withContent tree (p.placeFrom tree.home) content) files where
  goes := by
    intro p' hp'
    rcases account_withContent hs hp hp' hd hdoc hplain with haccount | ⟨-, -, -, -, hgoes⟩
    · exact (halt?_of_account haccount).trans (hs.goes p' hp')
    · exact hgoes
  apart := by
    intro p' hp' o ho p'' hp''
    rcases account_withContent hs hp hp' hd hdoc hplain with haccount | ⟨-, -, hschema, htext, -⟩
    · rw [outputs_of_account haccount rfl] at ho
      exact hs.apart p' hp' o ho p'' hp''
    · rw [mem_outputs_iff, hschema, htext] at ho
      simp at ho

/-- Two courses over the same files, one of which fails and then gets another content, print the
same and leave the same outputs but for the dump of that file. -/
theorem Composed.withContent {c c' : Course} (hs : Separate settings tree files) (hp : p ∈ files)
    {d : Diagnostic} (hd : (visitIn settings tree p).diagnostic? = some d) {doc : Document}
    (hdoc : documentIn (withContent tree (p.placeFrom tree.home) content) p = .ok doc)
    (hplain : Schema.isSchema doc = false)
    (h : Composed settings tree files tree files c)
    (h' : Composed settings (withContent tree (p.placeFrom tree.home) content) files
      (withContent tree (p.placeFrom tree.home) content) files c') :
    c'.printed settings = c.printed settings ∧
      ∀ q, q ≠ p.placeFrom tree.home → q ≠ dumpRoot tree.home →
        (∀ s, (visitIn settings tree p).schema? = some s → q ≠ (dumpPath s).placeFrom tree.home) →
        c'.tree.find? q = c.tree.find? q := by
  have haccounts := fun {p' : Path} (hp' : p' ∈ files) =>
    account_withContent hs hp hp' hd hdoc hplain
  constructor
  · rw [h.printed, h'.printed]
    congr 3
    refine filterMap_eq_of_map_eq ?_
    rw [List.map_map, List.map_map]
    refine List.map_congr_left fun p' hp' => ?_
    rcases haccounts hp' with haccount | ⟨htext, -, -, htext', -⟩
    · exact text?_of_account haccount
    · exact htext'.trans htext.symm
  · intro q hplace hroot hdump
    rw [h.left q hroot, h'.left q hroot, find?_withContent_of_ne hplace, List.flatMap_map,
      List.flatMap_map]
    refine entryAfter_flatMap_congr (fun p' hp' entry => ?_) _
    rcases haccounts hp' with haccount | ⟨htext, hschema, hschema', htext', -⟩
    · rw [outputs_of_account haccount rfl]
    · -- The file has no outputs any more, and its dump before is not at this place.
      rw [entryAfter_of_forall_ne fun o ho => ?_, entryAfter_of_forall_ne fun o ho => ?_]
      · rw [mem_outputs_iff, htext, hschema] at ho
        rcases ho with ⟨-, s, hs, rfl⟩ | ⟨-, text, htext, -⟩
        · exact hdump s hs
        · cases htext
      · rw [mem_outputs_iff, hschema', htext'] at ho
        simp at ho

/-! ### A schema, a file that is none, and one that is no JSON -/

/-- A schema in a file, and a directory with a file that is no schema and one that is no JSON. -/
def mixed : Tree :=
  { entries := [(["a.json"], .file (bareText "a/b").toUTF8), (["d"], .directory),
      (["d", "c.json"], .file "[]".toUTF8), (["d", "b.json"], .file "".toUTF8)] }

/-- The settings of a run that writes its modules and dumps nothing. -/
def plainWriting : Settings := { engine := .deno, write := true }

def mixedOptions : CommandLine.Options := { sources := ["a.json", "d"], write := true }

theorem target_mixed : (targetOf { parts := ["a.json"] }).placeFrom mixed.home = ["a.ts"] := by
  decide

theorem exists_mixed (source : String) (h : source ∈ mixedOptions.sources) :
    mixed.exists? (Path.ofString source) = .ok true := by
  rw [mixed]
  generalize (bareText "a/b").toUTF8 = content
  simp only [mixedOptions, List.mem_cons, List.not_mem_nil, or_false] at h
  rcases h with rfl | rfl
  · rfl
  · rfl

theorem filesOf_mixed_directory :
    filesOf mixed (Path.ofString "d") =
      [{ parts := ["d", "b.json"] }, { parts := ["d", "c.json"] }] := by
  have hplace : mixed.locate (Path.ofString "d") = .ok ["d"] := rfl
  have hfound : ((schemaPlaces mixed).filterMap fun place =>
      (Tree.below? ["d"] place).filter fun rest => (nameAt rest).endsWith schemaExtension) =
        [["c.json"], ["b.json"]] := by decide +kernel
  have hbehind : Tree.inOrder ["c.json"] ["b.json"] = false := by decide
  have hsorted : [["c.json"], ["b.json"]].mergeSort Tree.inOrder = [["b.json"], ["c.json"]] := by
    simp [List.mergeSort, List.MergeSort.Internal.splitInTwo, hbehind]
  rw [filesOf, if_pos (by decide), filesBelow_eq, hplace]
  dsimp only
  rw [hfound, hsorted]
  rfl

theorem filesOfRun_mixed :
    filesOfRun mixedOptions mixed =
      [{ parts := ["a.json"] }, { parts := ["d", "b.json"] }, { parts := ["d", "c.json"] }] := by
  have hfile : filesOf mixed (Path.ofString "a.json") = [{ parts := ["a.json"] }] := by
    decide
  simp [filesOfRun, mixedOptions, hfile, filesOf_mixed_directory]

theorem text?_mixed :
    (visitIn plainWriting mixed { parts := ["a.json"] }).text? = some (bareModule "a/b") := by
  obtain ⟨doc, hdoc, hschema, hload⟩ := read_twin (.inl ⟨rfl, rfl⟩)
  have hread : mixed.read? { parts := ["a.json"] } = some (bareText "a/b").toUTF8 := by
    rw [mixed]
    generalize (bareText "a/b").toUTF8 = content
    rfl
  refine text?_eq_some_iff.mpr ⟨bareSchema "a/b", schema?_eq_some_iff.mpr
    ⟨doc, documentIn_of_text hread hdoc, hschema, hload⟩, generateLoaded_bareSchema.1, ?_⟩
  have hloaded : logOf plainWriting [(bareSchema "a/b").loaded] = "" :=
    logOf_eq_empty rfl (by simp [Schema.loaded, Event.level])
  have hevents : logOf plainWriting ((bareSchema "a/b").generateLoaded plainWriting.engine
      plainWriting.packaging).events = "" := logOf_eq_empty rfl (quiet_bareSchema (.inl rfl))
  rw [generationActs, dumpActs, hloaded, hevents, mixed]
  generalize (bareText "a/b").toUTF8 = content
  generalize bareModule "a/b" = text
  rfl

/-- The two files of the directory give no text, and the run goes on behind them. -/
theorem visits_mixed {name : String} (h : name = "b.json" ∨ name = "c.json") :
    (visitIn plainWriting mixed { parts := ["d", name] }).halt? = none ∧
      (visitIn plainWriting mixed { parts := ["d", name] }).text? = none ∧
      (visitIn plainWriting mixed { parts := ["d", name] }).diagnostic?.isSome =
        (name = "b.json" : Bool) := by
  rw [mixed]
  generalize (bareText "a/b").toUTF8 = content
  rcases h with rfl | rfl
  · exact ⟨rfl, rfl, rfl⟩
  · exact ⟨rfl, rfl, rfl⟩

theorem separate_mixed : Separate plainWriting mixed (filesOfRun mixedOptions mixed) := by
  rw [filesOfRun_mixed]
  have hb := visits_mixed (.inl rfl)
  have hc := visits_mixed (.inr rfl)
  refine ⟨?_, fun p hp o ho => ?_⟩
  · simp [halt?_of_text? text?_mixed, hb.1, hc.1]
  · -- The one output is the target of the schema.
    rcases mem_outputs_iff.mp ho with ⟨hdump, -⟩ | ⟨-, text, htext, rfl⟩
    · cases hdump
    · simp only [List.mem_cons, List.not_mem_nil, or_false] at hp
      rcases hp with rfl | rfl | rfl
      · simp only [List.mem_cons, List.not_mem_nil, or_false, forall_eq_or_imp, forall_eq,
          path_visitIn, found_visitIn, target_mixed]
        exact ⟨by decide, by decide, by decide⟩
      · rw [hb.2.1] at htext
        cases htext
      · rw [hc.2.1] at htext
        cases htext

/-! ### The composition -/

/-- A run over sources that exist, none of whose files ends it and none of whose outputs is one of
its files, is the composition of its files. It visits all of them in the order of the sources,
those of a directory in order, and each tells what it tells alone. What is printed are the texts,
with a newline each, unless they are written; the log and then the report of the diagnostics make
the error output, and there is a report, and the exit code is one, exactly if there is a
diagnostic. Of the tree only the outputs change, and the directory of dumps. With another
content, which is no schema, in a file that fails, all of this stays as it is. -/
theorem run_composes {arguments : List String} {env : Environment}
    {options : CommandLine.Options} {settings : Settings} {tree : Tree}
    (h : Accepted arguments env options settings)
    (hthere : ∀ source ∈ options.sources, tree.exists? (Path.ofString source) = .ok true)
    (hs : Separate settings tree (filesOfRun options tree)) :
    let files := filesOfRun options tree
    let alone := files.map (visitIn settings tree)
    let failing := alone.filterMap Visit.diagnostic?
    let w := (run arguments env tree).2
    (courseOf settings options tree).visits.map Visit.account = alone.map Visit.account ∧
    (∀ source : Path,
      (tree.isDirectory source = false → filesOf tree source = [source]) ∧
      (tree.isDirectory source = true → ∃ place, ∃ rests : List (List String),
        tree.locate source = .ok place ∧ filesOf tree source = rests.map source.append ∧
        (rests.Pairwise fun a b => Tree.inOrder a b = true) ∧ ∀ rest, rest ∈ rests ↔
          (nameAt rest).endsWith schemaExtension = true ∧
            ∃ content, (place ++ rest, .file content) ∈ tree.entries)) ∧
    (run arguments env tree).1 = .exit (if failing.isEmpty then 0 else 1) ∧
    (w.out = if settings.write then ""
      else String.join ((alone.filterMap Visit.text?).map (· ++ "\n"))) ∧
    (w.err = String.join (alone.map Visit.log) ++
      if failing.isEmpty then "" else Diagnostic.summarize failing env.colors.color ++ "\n") ∧
    (∀ q, q ≠ dumpRoot tree.home →
      w.tree.find? q = entryAfter (alone.flatMap (Visit.outputs settings)) q (tree.find? q)) ∧
    ∀ p ∈ files, (visitIn settings tree p).diagnostic?.isSome = true → ∀ content doc,
      documentIn (withContent tree (p.placeFrom tree.home) content) p = .ok doc →
      Schema.isSchema doc = false →
      let w' := (run arguments env (withContent tree (p.placeFrom tree.home) content)).2
      w'.out = w.out ∧
        ∀ q, q ≠ p.placeFrom tree.home → q ≠ dumpRoot tree.home →
          (∀ s, (visitIn settings tree p).schema? = some s →
            q ≠ (dumpPath s).placeFrom tree.home) →
          w'.tree.find? q = w.tree.find? q := by
  intro files alone failing w
  have hc : Composed settings tree files tree files (courseOf settings options tree) :=
    composed_courseOf hthere hs
  have hraised : (courseOf settings options tree).raised = failing := hc.raised
  refine ⟨hc.accounts, fun source => ⟨fun hd => ?_, filesOf_directory⟩, ?_, ?_, ?_,
    fun q hq => ?_, fun p hp hd content doc hdoc hplain => ?_⟩
  · rw [filesOf, hd, if_neg Bool.false_ne_true]
  · rw [ending_run h, Course.ending, hc.goes, hraised]
  · exact (out_run h tree).trans hc.printed
  · refine (err_run h tree).trans ?_
    rw [hc.log, Course.closing, hc.goes, hraised]
    rfl
  · exact (congrArg (·.find? q) (tree_run h tree)).trans (hc.left q hq)
  · obtain ⟨d, hd⟩ := Option.isSome_iff_exists.mp hd
    have hgrown : Grown tree (withContent tree (p.placeFrom tree.home) content) := grown_withContent
    have hfiles : filesOfRun options (withContent tree (p.placeFrom tree.home) content) = files :=
      hgrown.filesOfRun hthere
    have hc' : Composed settings (withContent tree (p.placeFrom tree.home) content) files
        (withContent tree (p.placeFrom tree.home) content) files
        (courseOf settings options (withContent tree (p.placeFrom tree.home) content)) := by
      rw [← hfiles]
      refine composed_courseOf (fun source hsource => hgrown.exists? (hthere source hsource)) ?_
      rw [hfiles]
      exact separate_withContent hs hp hd hdoc hplain
    obtain ⟨hprinted, hleft⟩ := Composed.withContent hs hp hd hdoc hplain hc hc'
    refine ⟨(out_run h _).trans (hprinted.trans (out_run h tree).symm),
      fun q hplace hroot hdump => ?_⟩
    rw [tree_run h, hleft q hplace hroot hdump, ← tree_run h]

/-- Three files of two sources: the module of the first is written, and the second is reported. -/
theorem run_composes_mixed :
    Accepted ["--write", "a.json", "d"] {} mixedOptions plainWriting ∧
      (∀ source ∈ mixedOptions.sources, mixed.exists? (Path.ofString source) = .ok true) ∧
      Separate plainWriting mixed (filesOfRun mixedOptions mixed) ∧
      (run ["--write", "a.json", "d"] {} mixed).1 = .exit 1 ∧
      (run ["--write", "a.json", "d"] {} mixed).2.out = "" ∧
      (run ["--write", "a.json", "d"] {} mixed).2.tree.find? ["a.ts"] =
        some (.file (bareModule "a/b" ++ "\n").toUTF8) := by
  have haccepted : Accepted ["--write", "a.json", "d"] {} mixedOptions plainWriting :=
    ⟨rfl, rfl⟩
  have hb := visits_mixed (.inl rfl)
  have hc := visits_mixed (.inr rfl)
  obtain ⟨-, -, hending, hout, -, hleft, -⟩ :=
    run_composes haccepted exists_mixed separate_mixed
  rw [filesOfRun_mixed] at hending hleft
  refine ⟨haccepted, exists_mixed, separate_mixed, hending.trans ?_, hout, ?_⟩
  · obtain ⟨d, hd⟩ := Option.isSome_iff_exists.mp (hb.2.2.trans rfl)
    simp [hd]
  · rw [hleft _ (by decide)]
    have hdump : plainWriting.dump = false := rfl
    have hwrite : plainWriting.write = true := rfl
    simp [Visit.outputs, text?_mixed, hb.2.1, hc.2.1, hdump, hwrite, target_mixed, entryAfter]

end ApiTypes.Batch
