import ApiTypes.Proofs.Batch.Outputs

/-! How the files grow in a run. Directories and files stay what they are; new are only the
directory of dumps, and files that no source lists. So the sources hold the same schemas
throughout, and what is done about a file comes out as it would at the beginning, as long as the
file itself is as it was. -/

namespace ApiTypes.Batch

open Files

/-! ### Listings -/

/-- The places of the schema files of a tree, in the order of its entries. -/
def schemaPlaces (t : Tree) : List (List String) :=
  t.entries.filterMap fun e =>
    match e.2 with
    | .directory => none
    | .file _ => if (nameAt e.1).endsWith schemaExtension then some e.1 else none

theorem below?_eq_some_iff {directory place rest : List String} :
    Tree.below? directory place = some rest ↔ place = directory ++ rest := by
  induction directory generalizing place with
  | nil => simp [Tree.below?]
  | cons d ds ih =>
    cases place with
    | nil => simp [Tree.below?]
    | cons p ps =>
      rw [Tree.below?]
      split
      next h => simp [ih, h]
      next h => simp [Ne.symm h]

theorem nameAt_append {directory rest : List String} (h : rest ≠ []) :
    nameAt (directory ++ rest) = nameAt rest := by
  rw [nameAt, nameAt, List.getLast?_append, Option.or_of_isSome (List.getLast?_isSome.mpr h)]

/-- What a directory holds hangs on the places of the schema files alone. -/
theorem filesBelow_eq (t : Tree) (p : Path) :
    t.filesBelow p schemaExtension =
      match t.locate p with
      | .error _ => []
      | .ok directory =>
        (((schemaPlaces t).filterMap fun place =>
          (Tree.below? directory place).filter fun rest =>
            (nameAt rest).endsWith schemaExtension).mergeSort Tree.inOrder).map p.append := by
  rw [Tree.filesBelow]
  cases t.locate p with
  | error e => rfl
  | ok directory =>
    dsimp only
    congr 2
    rw [schemaPlaces, List.filterMap_filterMap]
    refine congrArg t.entries.filterMap (funext fun e => ?_)
    obtain ⟨place, entry⟩ := e
    cases entry with
    | directory => rfl
    | file content =>
      dsimp only
      by_cases hname : (nameAt place).endsWith schemaExtension = true
      · rw [if_pos hname]
        rfl
      · rw [if_neg hname, Option.bind_none]
        -- A name below the directory is the name of the place.
        refine Option.eq_none_iff_forall_ne_some.mpr fun rest hrest => ?_
        obtain ⟨hbelow, hends⟩ := Option.filter_eq_some_iff.mp hrest
        obtain rfl := below?_eq_some_iff.mp hbelow
        by_cases hnil : rest = []
        · subst hnil
          have hempty : (nameAt []).endsWith schemaExtension = false := by decide
          exact absurd (hempty.symm.trans hends) Bool.false_ne_true
        · exact hname ((nameAt_append hnil).symm ▸ hends)

/-- An entry whose name is not that of a schema changes no listing. -/
theorem schemaPlaces_put {t : Tree} {place : List String} {entry : Entry}
    (h : (nameAt place).endsWith schemaExtension = false) :
    schemaPlaces (t.put place entry) = schemaPlaces t := by
  have hnone : ∀ e : List String × Entry, e.1 = place →
      (match e.2 with
        | .directory => none
        | .file _ => if (nameAt e.1).endsWith schemaExtension then some e.1 else none) = none := by
    rintro ⟨_, entry⟩ rfl
    cases entry with
    | directory => rfl
    | file content => exact if_neg (by simp [h])
  rw [schemaPlaces, schemaPlaces, Tree.put]
  split
  next =>
    dsimp only
    rw [List.filterMap_map]
    refine congrArg t.entries.filterMap (funext fun e => ?_)
    by_cases he : e.1 = place
    · rw [Function.comp_apply, if_pos he, hnone _ rfl, hnone e he]
    · rw [Function.comp_apply, if_neg he]
  next =>
    dsimp only
    rw [List.filterMap_append, List.filterMap_cons, hnone _ rfl, List.filterMap_nil,
      List.append_nil]

/-! ### Growth -/

/-- A tree that has grown out of another one: directories and files stay, a new directory can
only be that of dumps, which is nothing else, and the schema files are the same. -/
structure Grown (t t' : Tree) : Prop where
  home : t'.home = t.home
  directory : ∀ q, t.find? q = some .directory → t'.find? q = some .directory
  file : ∀ q c, t.find? q = some (.file c) → ∃ c', t'.find? q = some (.file c')
  fresh : ∀ q, t.find? q = none → t'.find? q ≠ none →
    (t'.find? q = some .directory ↔ q = dumpRoot t.home)
  schemas : schemaPlaces t' = schemaPlaces t

namespace Grown

variable {t t' t'' : Tree} {p : Path} {place : List String}

theorem refl (t : Tree) : Grown t t where
  home := rfl
  directory := fun _ h => h
  file := fun _ c h => ⟨c, h⟩
  fresh := fun _ h hne => absurd h hne
  schemas := rfl

theorem trans (h : Grown t t') (h' : Grown t' t'') : Grown t t'' where
  home := h'.home.trans h.home
  directory := fun q hq => h'.directory q (h.directory q hq)
  file := fun q c hq =>
    have ⟨_, hc⟩ := h.file q c hq
    h'.file q _ hc
  fresh := by
    intro q hnone hne
    cases hf : t'.find? q with
    | none =>
      rw [← h.home]
      exact h'.fresh q hf hne
    | some entry =>
      have hq := h.fresh q hnone (by simp [hf])
      rw [← hq, hf]
      cases entry with
      | directory => simp [h'.directory q hf]
      | file c =>
        obtain ⟨c', hc'⟩ := h'.file q c hf
        simp [hc']
  schemas := h'.schemas.trans h.schemas

/-- Only the directory of dumps becomes a directory. -/
theorem directory_iff (h : Grown t t') (hq : place ≠ dumpRoot t.home) :
    t'.find? place = some .directory ↔ t.find? place = some .directory := by
  refine ⟨fun hd => ?_, h.directory place⟩
  cases hf : t.find? place with
  | none => exact absurd ((h.fresh place hf (by simp [hd])).mp hd) hq
  | some entry =>
    cases entry with
    | directory => rfl
    | file c =>
      obtain ⟨c', hc'⟩ := h.file place c hf
      rw [hd] at hc'
      cases hc'

theorem locate (h : Grown t t') (hp : t.locate p = .ok place) : t'.locate p = .ok place :=
  Tree.locate_mono h.home h.directory hp

theorem isSome_find? (h : Grown t t') (hp : (t.find? place).isSome = true) :
    (t'.find? place).isSome = true := by
  obtain ⟨entry, he⟩ := Option.isSome_iff_exists.mp hp
  cases entry with
  | directory => simp [h.directory place he]
  | file c =>
    obtain ⟨c', hc'⟩ := h.file place c he
    simp [hc']

theorem exists? (h : Grown t t') (hp : t.exists? p = .ok true) : t'.exists? p = .ok true := by
  obtain ⟨hname, place, hplace, hsome⟩ := Tree.exists?_eq_ok_true_iff.mp hp
  exact Tree.exists?_eq_ok_true_iff.mpr ⟨hname, place, h.locate hplace, h.isSome_find? hsome⟩

/-- A source holds the same files throughout. -/
theorem filesOf (h : Grown t t') (hp : t.exists? p = .ok true) : filesOf t' p = filesOf t p := by
  obtain ⟨-, place, hplace, hsome⟩ := Tree.exists?_eq_ok_true_iff.mp hp
  have hplace' := h.locate hplace
  have hdirectory : t'.isDirectory p = t.isDirectory p := by
    rw [Tree.isDirectory, Tree.isDirectory, Tree.entryAt?, Tree.entryAt?, hplace, hplace']
    obtain ⟨entry, he⟩ := Option.isSome_iff_exists.mp hsome
    cases entry with
    | directory => simp [Except.toOption, he, h.directory place he]
    | file c =>
      obtain ⟨c', hc'⟩ := h.file place c he
      simp [Except.toOption, he, hc', Entry.isDirectory]
  rw [Batch.filesOf, Batch.filesOf, hdirectory, filesBelow_eq, filesBelow_eq, hplace, hplace',
    h.schemas]

end Grown

/-! ### Acts on two trees -/

/-- An act of the kind that files come down to. -/
def Act.Tame (home : List String) : Act → Prop
  | say _ => True
  | makeDirectory path => path.placeFrom home = dumpRoot home
  | write path _ =>
    path.placeFrom home ≠ dumpRoot home ∧
      (nameAt (path.placeFrom home)).endsWith schemaExtension = false

/-- The path that an act is about. -/
def Act.path? : Act → Option Path
  | say _ => none
  | makeDirectory path | write path _ => some path

variable {t t' t₁ t₁' : Tree} {a : Act} {path : Path} {place : List String} {entry : Entry}

theorem endsWith_dumpRoot (home : List String) :
    (nameAt (dumpRoot home)).endsWith schemaExtension = false := by
  rw [nameAt, dumpRoot, List.getLast?_concat]
  decide +kernel

/-- The same entry at the same place of both trees. -/
theorem Grown.update (h : Grown t t') (hhome : t₁.home = t.home) (hhome' : t₁'.home = t'.home)
    (hfind : ∀ q, t₁.find? q = if q = place then some entry else t.find? q)
    (hfind' : ∀ q, t₁'.find? q = if q = place then some entry else t'.find? q)
    (hschemas : schemaPlaces t₁ = schemaPlaces t) (hschemas' : schemaPlaces t₁' = schemaPlaces t') :
    Grown t₁ t₁' where
  home := by rw [hhome, hhome', h.home]
  directory := by
    intro q
    rw [hfind, hfind']
    split
    next => exact id
    next => exact h.directory q
  file := by
    intro q c
    rw [hfind, hfind']
    split
    next => exact fun hq => ⟨c, hq⟩
    next => exact h.file q c
  fresh := by
    intro q
    rw [hfind, hfind', hhome]
    split
    next => exact fun hq => absurd hq (by simp)
    next => exact h.fresh q
  schemas := by rw [hschemas, hschemas', h.schemas]

/-- A file beside the directory of dumps, where none is a directory yet. -/
theorem grown_put_file {content : ByteArray} (hroot : place ≠ dumpRoot t.home)
    (hname : (nameAt place).endsWith schemaExtension = false)
    (hfree : t.find? place ≠ some .directory) : Grown t (t.put place (.file content)) where
  home := Tree.home_put
  directory := by
    intro q hq
    rw [Tree.find?_put (Tree.not_prefix_home hfree), if_neg (by rintro rfl; exact hfree hq), hq]
  file := by
    intro q c hq
    rw [Tree.find?_put (Tree.not_prefix_home hfree)]
    split
    next => exact ⟨_, rfl⟩
    next => exact ⟨c, hq⟩
  fresh := by
    intro q hq
    rw [Tree.find?_put (Tree.not_prefix_home hfree)]
    split
    next hplace => simp [hplace, hroot]
    next => exact fun hne => absurd hq hne
  schemas := schemaPlaces_put hname

/-- The directory of dumps, where there is nothing yet. -/
theorem grown_put_dumpRoot (hfree : t.find? (dumpRoot t.home) = none) :
    Grown t (t.put (dumpRoot t.home) .directory) := by
  have hfind : ∀ q, (t.put (dumpRoot t.home) .directory).find? q =
      if q = dumpRoot t.home then some .directory else t.find? q :=
    Tree.find?_put (Tree.not_prefix_home (by simp [hfree]))
  refine ⟨Tree.home_put, fun q hq => ?_, fun q c hq => ?_, fun q hq => ?_,
    schemaPlaces_put (endsWith_dumpRoot _)⟩
  · rw [hfind]
    split
    next => rfl
    next => exact hq
  · rw [hfind, if_neg (by rintro rfl; rw [hfree] at hq; cases hq)]
    exact ⟨c, hq⟩
  · rw [hfind]
    split
    next hroot => simp [hroot]
    next => exact fun hne => absurd hq hne

/-- A tame act makes a tree grow. -/
theorem grown_of_change? (ha : a.Tame t.home) (hc : a.change? t = .ok t₁) : Grown t t₁ := by
  cases a with
  | say text =>
    rw [← Except.ok.inj hc]
    exact .refl t
  | makeDirectory path =>
    obtain ⟨place, hplace, ⟨-, rfl⟩ | ⟨hfree, rfl⟩⟩ :=
      Tree.makeDirectory_eq_ok_iff.mp (mapError_eq_ok_iff.mp hc)
    · exact .refl _
    · have hroot : place = dumpRoot t.home := (Tree.locate_eq hplace).trans ha
      subst hroot
      exact grown_put_dumpRoot hfree
  | write path text =>
    rw [Act.change?] at hc
    split at hc
    next => cases hc
    next =>
      obtain ⟨place, hplace, hfree, rfl⟩ := Tree.write_eq_ok_iff.mp (mapError_eq_ok_iff.mp hc)
      rw [Tree.locate_eq hplace] at hfree ⊢
      exact grown_put_file ha.1 ha.2 hfree

/-- Making the directory of dumps fails in one tree as in the other. -/
theorem Grown.makeDirectory_error_iff (h : Grown t t')
    (ha : path.placeFrom t.home = dumpRoot t.home) (hl : t'.locate path = t.locate path)
    (e : FileError) :
    t'.makeDirectory path = .error e ↔ t.makeDirectory path = .error e := by
  rw [Tree.makeDirectory, Tree.makeDirectory, hl]
  cases hp : t.locate path with
  | error e' => rfl
  | ok place =>
    have hroot : place = dumpRoot t.home := (Tree.locate_eq hp).trans ha
    simp only [bind, Except.bind]
    cases hf : t.find? place with
    | none =>
      cases hf' : t'.find? place with
      | none => simp
      | some entry =>
        have hd := (h.fresh place hf (by simp [hf'])).mpr hroot
        rw [hf'] at hd
        cases hd
        simp
    | some entry =>
      cases entry with
      | directory => simp [h.directory place hf]
      | file c =>
        obtain ⟨c', hc'⟩ := h.file place c hf
        simp [hc']

/-- So does writing a file beside that directory. -/
theorem Grown.write_error_iff (h : Grown t t') (ha : path.placeFrom t.home ≠ dumpRoot t.home)
    (hl : t'.locate path = t.locate path) (content : String) (e : FileError) :
    t'.write path content = .error e ↔ t.write path content = .error e := by
  rw [Tree.write, Tree.write, hl]
  cases hp : t.locate path with
  | error e' => rfl
  | ok place =>
    have hd : t'.find? place = some .directory ↔ t.find? place = some .directory :=
      h.directory_iff (by rwa [Tree.locate_eq hp])
    simp only [bind, Except.bind]
    by_cases hfree : t.find? place = some .directory
    · rw [hfree, hd.mpr hfree]
    · have hfree' : t'.find? place ≠ some .directory := fun hd' => hfree (hd.mp hd')
      split
      next => contradiction
      next => simp

/-- A tame act comes out alike in a tree that has grown, if its path leads to the same place. -/
theorem Grown.change?_error_iff (h : Grown t t') (ha : a.Tame t.home)
    (hlocate : ∀ path, a.path? = some path → t'.locate path = t.locate path) (f : Failure) :
    a.change? t' = .error f ↔ a.change? t = .error f := by
  have hmap : ∀ {r r' : Except FileError Tree}, (∀ e, r' = .error e ↔ r = .error e) →
      (r'.mapError Failure.file = .error f ↔ r.mapError Failure.file = .error f) := by
    intro r r' hr
    cases r with
    | error e => rw [(hr e).mpr rfl]
    | ok t =>
      cases r' with
      | error e => exact absurd ((hr e).mp rfl) nofun
      | ok t' => simp [Except.mapError]
  cases a with
  | say text => simp [Act.change?]
  | makeDirectory path => exact hmap (h.makeDirectory_error_iff ha (hlocate path rfl))
  | write path text =>
    rw [Act.change?, Act.change?]
    split
    next => rfl
    next => exact hmap (h.write_error_iff ha.1 (hlocate path rfl) _)

/-- What two trees come to by the same tame act. -/
theorem Grown.change? (h : Grown t t') (ha : a.Tame t.home) (hc : a.change? t = .ok t₁)
    (hc' : a.change? t' = .ok t₁') : Grown t₁ t₁' := by
  have ha' : a.Tame t'.home := by rwa [h.home]
  cases hput : a.put? t.home with
  | none =>
    cases a with
    | say text =>
      rw [← Except.ok.inj hc, ← Except.ok.inj hc']
      exact h
    | makeDirectory path => cases hput
    | write path text => cases hput
  | some put =>
    have hfind : ∀ q, t₁.find? q = if q = put.1 then some put.2 else t.find? q := fun q => by
      rw [find?_of_change? hc, Act.entryAt, hput]
    have hfind' : ∀ q, t₁'.find? q = if q = put.1 then some put.2 else t'.find? q := fun q => by
      rw [find?_of_change? hc', h.home, Act.entryAt, hput]
    exact h.update (home_of_change? hc) (home_of_change? hc') hfind hfind'
      (grown_of_change? ha hc).schemas (grown_of_change? ha' hc').schemas

/-! ### Jobs on two trees -/

/-- Acts that come out alike: with the same result and the same log. -/
def Alike (r r' : Except Failure Unit × Tree × String) : Prop :=
  r'.1 = r.1 ∧ r'.2.2 = r.2.2

/-- A tame act in front of acts that come out alike. -/
theorem Grown.alike_cons (h : Grown t t') (ha : a.Tame t.home)
    (hlocate : ∀ path, a.path? = some path → t'.locate path = t.locate path) {rest : List Act}
    (hrest : ∀ t₁ t₁', a.change? t = .ok t₁ → Grown t t₁ → Grown t₁ t₁' →
      Alike (perform rest t₁) (perform rest t₁')) :
    Alike (perform (a :: rest) t) (perform (a :: rest) t') := by
  rw [perform, perform]
  cases hc : a.change? t with
  | error f =>
    rw [(h.change?_error_iff ha hlocate f).mpr hc]
    exact ⟨rfl, rfl⟩
  | ok t₁ =>
    cases hc' : a.change? t' with
    | error f =>
      rw [(h.change?_error_iff ha hlocate f).mp hc'] at hc
      cases hc
    | ok t₁' =>
      obtain ⟨hresult, hlog⟩ := hrest t₁ t₁' hc (grown_of_change? ha hc) (h.change? ha hc hc')
      exact ⟨hresult, congrArg (a.said ++ ·) hlog⟩

theorem alike_say {text : String} {rest : List Act}
    (hrest : Alike (perform rest t) (perform rest t')) :
    Alike (perform (.say text :: rest) t) (perform (.say text :: rest) t') :=
  ⟨hrest.1, congrArg (text ++ ·) hrest.2⟩

/-- A path to a name in a directory that is there. -/
def Near (t : Tree) (path : Path) : Prop :=
  ∃ above name place, path.parts = above ++ [name] ∧
    above.foldlM (t.enter path) (if path.root = "" then t.home else []) = .ok place ∧
    t.find? place = some .directory

/-- Such a path leads to the same place throughout. -/
theorem Grown.locate_eq (h : Grown t t') (hn : Near t path) : t'.locate path = t.locate path := by
  obtain ⟨above, name, place, hparts, hwalk, hd⟩ := hn
  have hwalk' : above.foldlM (t'.enter path) _ = .ok place :=
    Tree.foldlM_enter_mono h.directory hwalk
  rw [Tree.locate, Tree.locate, hparts, List.foldlM_append, List.foldlM_append, h.home, hwalk,
    hwalk']
  simp only [bind, Except.bind, List.foldlM_cons, List.foldlM_nil, Tree.enter, hd,
    h.directory place hd]

theorem near_dumpDirectory (t : Tree) : Near t dumpDirectory :=
  ⟨[], "schema_dump", t.home, by decide, rfl,
    Tree.find?_of_prefix_home (List.prefix_refl _)⟩

theorem near_dumpPath (s : Schema Document) (hroot : t.find? (dumpRoot t.home) = some .directory) :
    Near t (dumpPath s) := by
  refine ⟨["schema_dump"], dumpName s ++ ".sexpr", dumpRoot t.home, rfl, ?_, hroot⟩
  have hstart : (if (dumpPath s).root = "" then t.home else []) = t.home := if_pos rfl
  rw [hstart, List.foldlM_cons, Tree.enter_eq_ok_iff.mpr
    ⟨Tree.find?_of_prefix_home (List.prefix_refl _), fun _ => by decide, rfl⟩]
  rfl

/-- The target of a file that is there. -/
theorem near_targetOf (h : t.locate path = .ok place) (hne : t.find? place ≠ some .directory) :
    Near t (targetOf path) := by
  obtain ⟨above, name, hparts, -⟩ := Tree.exists_name_of_locate h hne
  have hwalk := (Tree.locate_eq_ok_iff.mp h).2
  rw [hparts] at hwalk
  obtain ⟨mid, habove, he⟩ := Tree.enter_of_foldlM hwalk
  refine ⟨above, String.ofList (Path.stem name.toList) ++ moduleExtension, mid, ?_, ?_,
    (Tree.enter_eq_ok_iff.mp he).1⟩
  · simp [targetOf, Path.withExtension, hparts]
  · have hroot : (targetOf path).root = path.root := by
      simp [targetOf, Path.withExtension, hparts]
    rw [hroot]
    exact Tree.foldlM_enter_mono (fun _ => id) habove

/-! ### Files in two trees -/

/-- The name of an output is not that of a schema. -/
theorem endsWith_output (name : String) {extension : String}
    (h : extension = moduleExtension ∨ extension = ".sexpr") :
    (name ++ extension).endsWith schemaExtension = false := by
  rw [Bool.eq_false_iff]
  intro hends
  rw [String.endsWith_eq_endsWith_toSlice, String.Slice.endsWith_string_iff] at hends
  obtain ⟨front, hfront⟩ := hends
  have hname : String.ofList front ++ schemaExtension = name ++ extension :=
    String.toList_injective (by simpa using hfront)
  have hlast := congrArg (fun s : String => s.toList.getLast?) hname
  rcases h with rfl | rfl
  · rw [getLast?_name (by decide), getLast?_name (by decide)] at hlast
    exact absurd hlast (by decide)
  · rw [getLast?_name (by decide), getLast?_name (by decide)] at hlast
    exact absurd hlast (by decide)

theorem nameAt_concat (above : List String) (name : String) : nameAt (above ++ [name]) = name := by
  rw [nameAt, List.getLast?_concat, Option.getD_some]

theorem tame_makeDirectory (home : List String) : (Act.makeDirectory dumpDirectory).Tame home :=
  placeFrom_dumpDirectory home

theorem tame_write_dumpPath (s : Schema Document) (text : String) (home : List String) :
    (Act.write (dumpPath s) text).Tame home := by
  rw [Act.Tame, placeFrom_dumpPath, nameAt_concat]
  exact ⟨by simp, endsWith_output _ (.inr rfl)⟩

theorem tame_write_targetOf (h : t.locate path = .ok place) (hne : t.find? place ≠ some .directory)
    (text : String) : (Act.write (targetOf path) text).Tame t.home := by
  rw [Act.Tame, placeFrom_targetOf h hne]
  refine ⟨targetAt_ne_dumpRoot _ _, ?_⟩
  rw [targetAt, nameAt_concat]
  exact endsWith_output _ (.inl rfl)

variable {settings : Settings}

/-- The acts of a generation come out alike, and so does what follows them. -/
theorem Grown.alike_generationActs (h : Grown t t') (s : Schema Document) {rest : List Act}
    (hrest : ∀ t₁ t₁', Grown t t₁ → Grown t₁ t₁' → Alike (perform rest t₁) (perform rest t₁')) :
    Alike (perform (generationActs settings s ++ rest) t)
      (perform (generationActs settings s ++ rest) t') := by
  rw [generationActs, dumpActs, List.cons_append]
  refine alike_say ?_
  by_cases hd : settings.dump = true
  · rw [if_pos hd]
    refine h.alike_cons (tame_makeDirectory _) ?_ fun t₁ t₁' hc h₁ h' => ?_
    · rintro _ ⟨⟩
      exact h.locate_eq (near_dumpDirectory t)
    have hroot : t₁.find? (dumpRoot t₁.home) = some .directory := by
      rw [find?_of_change? hc, h₁.home, Act.entryAt, Act.put?]
      exact if_pos (placeFrom_dumpDirectory _).symm
    refine h'.alike_cons (tame_write_dumpPath ..) ?_ fun t₂ t₂' _ h₂ h'' => ?_
    · rintro _ ⟨⟩
      exact h'.locate_eq (near_dumpPath s hroot)
    exact alike_say (alike_say (hrest t₂ t₂' (h₁.trans h₂) h''))
  · rw [if_neg hd]
    exact alike_say (hrest t t' (.refl t) h)

/-- The acts that write the target of a file come out alike. -/
theorem Grown.alike_targetActs (h : Grown t t') (hp : t.locate path = .ok place)
    (hne : t.find? place ≠ some .directory) (text : String) :
    Alike (perform (targetActs settings path text) t)
      (perform (targetActs settings path text) t') := by
  rw [targetActs]
  split
  next =>
    refine h.alike_cons (tame_write_targetOf hp hne text) ?_ fun t₁ t₁' _ _ _ => ⟨rfl, rfl⟩
    rintro _ ⟨⟩
    exact h.locate_eq (near_targetOf hp hne)
  next => exact ⟨rfl, rfl⟩

/-- The acts of a document come out alike. -/
theorem Grown.alike_jobOf (h : Grown t t') (hp : t.locate path = .ok place) {content : ByteArray}
    (hfile : t.find? place = some (.file content)) (doc : Document) :
    Alike (perform (jobOf settings path doc).acts t)
      (perform (jobOf settings path doc).acts t') := by
  rw [jobOf]
  split
  next =>
    cases Schema.ofDocument? doc with
    | error e => exact ⟨rfl, rfl⟩
    | ok s =>
      dsimp only
      rw [schemaJob]
      cases (s.generateLoaded settings.engine settings.packaging).result with
      | error e =>
        have hacts : Alike (perform (generationActs settings s ++ []) t)
            (perform (generationActs settings s ++ []) t') :=
          h.alike_generationActs s fun _ _ _ _ => ⟨rfl, rfl⟩
        rwa [List.append_nil] at hacts
      | ok text =>
        refine h.alike_generationActs s fun t₁ t₁' h₁ h' => ?_
        obtain ⟨content', hfile'⟩ := h₁.file place content hfile
        exact h'.alike_targetActs (h₁.locate hp) (by simp [hfile']) text
  next => exact alike_say ⟨rfl, rfl⟩

/-! ### Visits in two trees -/

/-- What a visit tells about its file. -/
def Visit.account (v : Visit) :
    Path × Except Failure (Option String) × String × Option (Schema Document) :=
  (v.path, v.result, v.log, v.schema?)

/-- A file tells in a tree that has grown what it tells at first, if it is as it was. -/
theorem Grown.account_visitIn (h : Grown t t') (hp : t.locate path = .ok place)
    (hsame : t'.find? place = t.find? place) :
    (visitIn settings t' path).account = (visitIn settings t path).account := by
  have hdocument : documentIn t' path = documentIn t path := by
    rw [documentIn, documentIn, read?_eq hp, read?_eq (h.locate hp), hsame]
  have hschema : (visitIn settings t' path).schema? = (visitIn settings t path).schema? := by
    rw [Visit.schema?, Visit.schema?, found_visitIn, found_visitIn, path_visitIn, path_visitIn,
      hdocument]
  rw [Visit.account, Visit.account, hschema]
  cases hd : documentIn t path with
  | error f => rw [visitIn_of_error hd, visitIn_of_error (hdocument.trans hd)]
  | ok doc =>
    obtain ⟨place', content, hp', hfile⟩ := file_of_document hd
    have halike : Alike (perform (jobOf settings path doc).acts t)
        (perform (jobOf settings path doc).acts t') := h.alike_jobOf hp' hfile doc
    obtain ⟨hresult, hlog⟩ := halike
    rw [visitIn_of_ok hd, visitIn_of_ok (hdocument.trans hd), hresult, hlog]

theorem tame_of_mem_generationActs {s : Schema Document} {home : List String}
    (ha : a ∈ generationActs settings s) : a.Tame home := by
  rw [generationActs, dumpActs] at ha
  split at ha
  next =>
    simp only [List.mem_cons, List.mem_append, List.not_mem_nil, or_false] at ha
    rcases ha with rfl | (rfl | rfl | rfl) | rfl
    · trivial
    · exact tame_makeDirectory home
    · exact tame_write_dumpPath ..
    · trivial
    · trivial
  next =>
    simp only [List.mem_cons, List.mem_append, List.not_mem_nil, or_false, false_or] at ha
    rcases ha with rfl | rfl
    · trivial
    · trivial

theorem tame_of_mem_jobOf {doc : Document} (hd : documentIn t path = .ok doc)
    (ha : a ∈ (jobOf settings path doc).acts) : a.Tame t.home := by
  obtain ⟨place, content, hp, hfile⟩ := file_of_document hd
  rw [jobOf] at ha
  split at ha
  next =>
    cases hs : Schema.ofDocument? doc with
    | error e => rw [hs] at ha; cases ha
    | ok s =>
      rw [hs] at ha
      dsimp only at ha
      rw [schemaJob] at ha
      cases hr : (s.generateLoaded settings.engine settings.packaging).result with
      | error e =>
        rw [hr] at ha
        exact tame_of_mem_generationActs ha
      | ok text =>
        rw [hr] at ha
        rcases List.mem_append.mp ha with ha | ha
        · exact tame_of_mem_generationActs ha
        · rw [targetActs] at ha
          split at ha
          next =>
            rcases List.mem_cons.mp ha with rfl | ha
            · exact tame_write_targetOf hp (by simp [hfile]) text
            · rw [List.mem_singleton.mp ha]
              trivial
          next => cases ha
  next =>
    rw [List.mem_singleton.mp ha]
    trivial

theorem grown_perform {acts : List Act} (h : ∀ a ∈ acts, a.Tame t.home) :
    Grown t (perform acts t).2.1 := by
  induction acts generalizing t with
  | nil => exact .refl t
  | cons a rest ih =>
    rw [perform]
    cases hc : a.change? t with
    | error f => exact .refl t
    | ok t₁ =>
      have h₁ := grown_of_change? (h a List.mem_cons_self) hc
      exact h₁.trans (ih fun b hb => h₁.home ▸ h b (List.mem_cons_of_mem a hb))

/-- Every visit makes the tree grow. -/
theorem grown_left : Grown t (visitIn settings t path).left := by
  cases hd : documentIn t path with
  | error f =>
    rw [visitIn_of_error hd]
    exact .refl t
  | ok doc =>
    rw [visitIn_of_ok hd]
    exact grown_perform fun a ha => tame_of_mem_jobOf hd ha

/-- At the place of the directory of dumps nothing changes, unless the directory is made. -/
theorem find?_dumpRoot_of_change? (ha : a.Tame t.home) (hc : a.change? t = .ok t₁) :
    t₁.find? (dumpRoot t.home) = t.find? (dumpRoot t.home) ∨
      t₁.find? (dumpRoot t.home) = some .directory := by
  rw [find?_of_change? hc, Act.entryAt]
  cases a with
  | say text => exact .inl rfl
  | makeDirectory path => exact .inr (if_pos (Eq.symm ha))
  | write path text => exact .inl (if_neg (Ne.symm ha.1))

theorem find?_dumpRoot_of_perform {acts : List Act} (h : ∀ a ∈ acts, a.Tame t.home) :
    (perform acts t).2.1.find? (dumpRoot t.home) = t.find? (dumpRoot t.home) ∨
      (perform acts t).2.1.find? (dumpRoot t.home) = some .directory := by
  induction acts generalizing t with
  | nil => exact .inl rfl
  | cons a rest ih =>
    rw [perform]
    cases hc : a.change? t with
    | error f => exact .inl rfl
    | ok t₁ =>
      have h₁ := grown_of_change? (h a List.mem_cons_self) hc
      have hrest : ∀ b ∈ rest, b.Tame t₁.home :=
        fun b hb => h₁.home ▸ h b (List.mem_cons_of_mem a hb)
      dsimp only
      rcases find?_dumpRoot_of_change? (h a List.mem_cons_self) hc with hkept | hd
      · rw [← hkept, ← h₁.home]
        exact ih hrest
      · have hgrown := grown_perform hrest
        exact .inr (hgrown.directory _ hd)

theorem find?_left_dumpRoot :
    (visitIn settings t path).left.find? (dumpRoot t.home) = t.find? (dumpRoot t.home) ∨
      (visitIn settings t path).left.find? (dumpRoot t.home) = some .directory := by
  cases hd : documentIn t path with
  | error f => exact .inl (by rw [visitIn_of_error hd])
  | ok doc =>
    rw [visitIn_of_ok hd]
    exact find?_dumpRoot_of_perform fun a ha => tame_of_mem_jobOf hd ha

end ApiTypes.Batch
