import ApiTypes.Proofs.Import.Block
import ApiTypes.Proofs.Import.Merging

/-! What the identity of a source tells. An identity is written with colons between its parts, which
may hold colons themselves, so two sources can have one identity: where the text is cut at another
colon, one names a longer package and a shorter path inside it. The paths of such sources differ in
every context, behind the shorter name. Sources of one identity have the same path exactly if they
have the same name, and an import table, which keeps the first source of each identity, leads a
use to the path of its own source exactly if that first source has the name of its own. -/

namespace ApiTypes

open Traversal

namespace Source

/-- The package that a source leads to, or the path of a module of this package. -/
def name : Source String → String
  | api package _ | library package _ => package
  | sibling path => path

/-! ### Identities of packages -/

/-- What an identity shows of a path inside a package. -/
def insideText (inside : Option String) : String :=
  match Label.present? inside with
  | some path => ":" ++ path
  | none => ""

theorem intercalate_remote (kind package : String) (inside : Option String) :
    ":".intercalate (["kure", kind, package] ++ (Label.present? inside).toList) =
      "kure:" ++ (kind ++ (":" ++ (package ++ insideText inside))) := by
  have hprefix : "kure:" = "kure" ++ ":" := by decide
  rw [insideText, hprefix]
  cases Label.present? inside <;>
    simp only [Option.toList_none, Option.toList_some, List.append_nil, List.cons_append,
      List.nil_append, String.intercalate_cons_cons, String.intercalate_singleton,
      String.append_assoc, String.append_empty]

theorem insideText_injective {inside inside' : Option String}
    (h : insideText inside = insideText inside') :
    Label.present? inside = Label.present? inside' := by
  rw [insideText, insideText] at h
  have hne : ∀ path : String, ":" ++ path ≠ "" := by
    intro path hempty
    exact absurd (congrArg String.toList hempty) (by simp)
  cases hi : Label.present? inside <;> cases hi' : Label.present? inside' <;> rw [hi, hi'] at h
  case none.some path => exact absurd h.symm (hne path)
  case some.none path => exact absurd h (hne path)
  case some.some path path' => rw [(String.append_right_inj _).mp h]

/-- A name that another one goes on from with a colon, where a path inside it is given. -/
structure Ends (short long : String) (inside : Option String) : Prop where
  long_eq : ∃ rest, long.toList = short.toList ++ ':' :: rest
  inside_eq : ∃ path, Label.present? inside = some path

theorem eq_or_ends {short long : String} {inside inside' : Option String} {more : List Char}
    (hlong : long.toList = short.toList ++ more)
    (hinside : (insideText inside).toList = more ++ (insideText inside').toList) :
    (short = long ∧ Label.present? inside = Label.present? inside') ∨ Ends short long inside := by
  cases more with
  | nil =>
    rw [List.append_nil] at hlong
    exact .inl ⟨String.toList_inj.mp hlong.symm,
      insideText_injective (String.toList_inj.mp hinside)⟩
  | cons c rest =>
    rw [insideText] at hinside
    cases hi : Label.present? inside with
    | none =>
      rw [hi] at hinside
      cases hinside
    | some path =>
      rw [hi] at hinside
      obtain ⟨rfl, -⟩ : ':' = c ∧ path.toList = rest ++ (insideText inside').toList := by
        simpa using hinside
      exact .inr ⟨⟨rest, hlong⟩, path, hi⟩

/-- There are two ways to cut one text into a package and a path inside it: at one place, or at two
colons. -/
theorem cut_cases {package package' : String} {inside inside' : Option String}
    (h : package ++ insideText inside = package' ++ insideText inside') :
    (package = package' ∧ Label.present? inside = Label.present? inside') ∨
      Ends package package' inside ∨ Ends package' package inside' := by
  have hlist := congrArg String.toList h
  rw [String.toList_append, String.toList_append] at hlist
  rcases List.append_eq_append_iff.mp hlist with ⟨more, hlong, hinside⟩ | ⟨more, hlong, hinside⟩
  · rcases eq_or_ends hlong hinside with heq | hends
    · exact .inl heq
    · exact .inr (.inl hends)
  · rcases eq_or_ends hlong hinside with ⟨hname, heq⟩ | hends
    · exact .inl ⟨hname.symm, heq.symm⟩
    · exact .inr (.inr hends)

/-! ### Paths of packages -/

theorem hostedPath_none (kind package : String) (isCore : Bool) (inside : Option String) :
    hostedPath kind package isCore none inside =
      "https://kure.sh/" ++ kind ++ "/" ++ package ++ "/" ++
        inside.getD ("mod" ++ moduleExtension) := rfl

theorem hostedPath_some (kind package : String) (isCore : Bool) (version : String)
    (inside : Option String) :
    hostedPath kind package isCore (some version) inside =
      "https://kure.sh/" ++ kind ++ "/" ++ ((if isCore then "" else package) ++ "@" ++ version) ++
        "/" ++ inside.getD ("mod" ++ moduleExtension) := rfl

/-- A package that is not left out of its URL has a version or a slash behind it. -/
theorem exists_hostedPath_eq (kind package : String) {isCore : Bool} (version : Option String)
    (h : isCore = false ∨ version = none) (inside : Option String) :
    ∃ c rest, c ≠ ':' ∧ (hostedPath kind package isCore version inside).toList =
      ("https://kure.sh/" ++ kind ++ "/").toList ++ (package.toList ++ c :: rest) := by
  cases version with
  | none =>
    refine ⟨'/', (inside.getD ("mod" ++ moduleExtension)).toList, by decide, ?_⟩
    rw [hostedPath_none]
    simp
  | some v =>
    obtain rfl := h.resolve_right (by simp)
    refine ⟨'@', v.toList ++ '/' :: (inside.getD ("mod" ++ moduleExtension)).toList, by decide, ?_⟩
    rw [hostedPath_some]
    simp

/-- The URLs of two packages differ if the name of one goes on from that of the other with a
colon. -/
theorem hostedPath_ne {kind short long : String} {rest : List Char}
    (hlong : long.toList = short.toList ++ ':' :: rest) {isCore isCore' : Bool}
    (hcore : isCore = true → short = corePackage) (hcore' : isCore' = true → long = corePackage)
    (version version' inside inside' : Option String) :
    hostedPath kind short isCore version inside ≠
      hostedPath kind long isCore' version' inside' := by
  have hother : isCore' = false := by
    rw [← Bool.not_eq_true]
    intro htrue
    have hcolon : ':' ∈ corePackage.toList := by
      rw [← hcore' htrue, hlong]
      simp
    exact absurd hcolon (by decide)
  obtain ⟨c', rest', -, hpath'⟩ := exists_hostedPath_eq kind long version' (.inl hother) inside'
  intro h
  have hlist := (congrArg String.toList h).trans hpath'
  by_cases hshown : isCore = false ∨ version = none
  · obtain ⟨c, more, hc, hpath⟩ := exists_hostedPath_eq kind short version hshown inside
    rw [hpath, hlong, List.append_cancel_left_eq, List.append_assoc, List.append_cancel_left_eq]
      at hlist
    exact hc (List.cons.inj hlist).1
  · obtain ⟨htrue, hversion⟩ := not_or.mp hshown
    obtain ⟨v, rfl⟩ := Option.ne_none_iff_exists'.mp hversion
    obtain rfl := hcore (by simpa using htrue)
    rw [hlong, hostedPath_some] at hlist
    simp [corePackage, htrue] at hlist

/-- So do their specifiers, if the shorter name has a path behind it. -/
theorem barePath_ne {kind short long path : String} {rest : List Char}
    (hlong : long.toList = short.toList ++ ':' :: rest) (inside' : Option String) :
    barePath kind short (some path) ≠ barePath kind long inside' := by
  intro h
  have hlist := congrArg String.toList h
  cases inside' <;> simp [barePath, hlong] at hlist

variable (ctx : Context String)

/-- The path of a package in a context. -/
def remoteText (kind package : String) (isCore : Bool) (version inside : Option String) : String :=
  match ctx.packaging with
  | .hosted => hostedPath kind package isCore version inside
  | .bare => barePath kind package inside

theorem remotePath_eq (kind package : String) (isCore : Bool) (version inside : Option String) :
    remotePath ctx kind package isCore version inside =
      .ok (remoteText ctx kind package isCore version (Label.present? inside)) := by
  have hplain : (Label.present? inside).map Label.plain = Label.present? inside := Option.map_id'
  rw [remotePath, remoteText, hplain]
  cases ctx.packaging <;> rfl

namespace Ends

variable {short long : String} {inside : Option String}

theorem ne (h : Ends short long inside) : short ≠ long := by
  rintro rfl
  obtain ⟨rest, hrest⟩ := h.long_eq
  simp at hrest

theorem colon_mem (h : Ends short long inside) : ':' ∈ long.toList := by
  obtain ⟨rest, hrest⟩ := h.long_eq
  rw [hrest]
  simp

theorem remoteText_ne (h : Ends short long inside) {isCore isCore' : Bool}
    (hcore : isCore = true → short = corePackage) (hcore' : isCore' = true → long = corePackage)
    (kind : String) (version version' inside' : Option String) :
    remoteText ctx kind short isCore version (Label.present? inside) ≠
      remoteText ctx kind long isCore' version' inside' := by
  obtain ⟨rest, hrest⟩ := h.long_eq
  obtain ⟨path, hpath⟩ := h.inside_eq
  rw [remoteText, remoteText, hpath]
  cases ctx.packaging with
  | hosted => exact hostedPath_ne hrest hcore hcore' version version' (some path) inside'
  | bare => exact barePath_ne hrest inside'

end Ends

/-- Where one text is cut into packages and paths inside them, the paths are equal exactly if the
packages are. -/
theorem remotePath_eq_iff {kind package package' : String} {inside inside' : Option String}
    (hcut : package ++ insideText inside = package' ++ insideText inside')
    {isCore isCore' : Bool} {version version' : Option String}
    (hcore : isCore = true → package = corePackage)
    (hcore' : isCore' = true → package' = corePackage)
    (hsame : package = package' → isCore = isCore' ∧ version = version') :
    remotePath ctx kind package isCore version inside =
        remotePath ctx kind package' isCore' version' inside' ↔ package = package' := by
  rw [remotePath_eq, remotePath_eq, Except.ok.injEq]
  rcases cut_cases hcut with ⟨rfl, hinside⟩ | hends | hends
  · obtain ⟨rfl, rfl⟩ := hsame rfl
    exact iff_of_true (by rw [hinside]) rfl
  · exact iff_of_false (hends.remoteText_ne ctx hcore hcore' _ _ _ _) hends.ne
  · exact iff_of_false (hends.remoteText_ne ctx hcore' hcore _ _ _ _).symm hends.ne.symm

/-! ### Sources of one identity -/

theorem eq_corePackage_of_isText {package : String}
    (h : Label.isText package corePackage = true) : package = corePackage := by
  simpa [Label.isText, Label.document, Document.same] using h

variable {a b : Source String}

theorem cut_eq_of_identity_eq {kind package package' : String} {inside inside' : Option String}
    (h : ":".intercalate (["kure", kind, package] ++ (Label.present? inside).toList) =
      ":".intercalate (["kure", kind, package'] ++ (Label.present? inside').toList)) :
    package ++ insideText inside = package' ++ insideText inside' := by
  rw [intercalate_remote, intercalate_remote] at h
  simpa only [String.append_right_inj] using h

/-- Sources of one identity have the same path exactly if they have the same name. -/
theorem path_eq_path_iff (h : a.identity = b.identity) :
    a.path ctx = b.path ctx ↔ a.name = b.name := by
  have hlist := congrArg String.toList h
  cases a <;> cases b
  case api.api package inside package' inside' =>
    obtain ⟨version, hversion⟩ : ∃ v, (api package inside).version? ctx = .ok v := ⟨_, rfl⟩
    obtain ⟨version', hversion'⟩ : ∃ v, (api package' inside').version? ctx = .ok v := ⟨_, rfl⟩
    rw [path, path, hversion, hversion']
    refine remotePath_eq_iff ctx (cut_eq_of_identity_eq h) eq_corePackage_of_isText
      eq_corePackage_of_isText ?_
    rintro rfl
    exact ⟨rfl, Except.ok.inj (hversion.symm.trans hversion')⟩
  case library.library package inside package' inside' =>
    have hlibrary {package : String} (htrue : false = true) : package = corePackage :=
      absurd htrue Bool.false_ne_true
    exact remotePath_eq_iff ctx (cut_eq_of_identity_eq h) hlibrary hlibrary fun _ => ⟨rfl, rfl⟩
  case sibling.sibling path path' =>
    obtain rfl : path = path' := by simpa [identity, String.toList_inj] using hlist
    exact iff_of_true rfl rfl
  -- the marks of the kinds differ
  all_goals simp [identity] at hlist

/-- Sources of one identity have the same name unless a name holds a colon. -/
theorem name_eq_of_notMem (h : a.identity = b.identity) (ha : ':' ∉ a.name.toList)
    (hb : ':' ∉ b.name.toList) : a.name = b.name := by
  have hlist := congrArg String.toList h
  have hremote : ∀ {package package' : String} {inside inside' : Option String},
      package ++ insideText inside = package' ++ insideText inside' → ':' ∉ package.toList →
        ':' ∉ package'.toList → package = package' := by
    intro package package' inside inside' hcut hp hp'
    rcases cut_cases hcut with ⟨heq, -⟩ | hends | hends
    · exact heq
    · exact absurd hends.colon_mem hp'
    · exact absurd hends.colon_mem hp
  cases a <;> cases b
  case api.api => exact hremote (cut_eq_of_identity_eq h) ha hb
  case library.library => exact hremote (cut_eq_of_identity_eq h) ha hb
  case sibling.sibling => simpa [identity, name, String.toList_inj] using hlist
  all_goals simp [identity] at hlist

end Source

/-! ### Tables -/

/-- A use finds its member in the module of its identity. -/
theorem Imports.exists_mem_built {us : List Use} {u : Use} (h : u ∈ us) :
    ∃ m ∈ (built us).modules, m.source.identity = u.source.identity ∧
      ∃ i ∈ m.imports, i.member = u.member := by
  rw [built_eq]
  obtain ⟨i, hi⟩ := exists_find?_of_mem h
  obtain ⟨m, hm, hfind⟩ := Option.bind_eq_some_iff.mp hi
  have hurn : m.urn = u.source.identity := by simpa using List.find?_some hm
  have hmem := List.mem_of_find?_eq_some hm
  refine ⟨m, hmem, ((keyed_recordAll us).identified m hmem).trans hurn, i, ?_, member_of_find? hi⟩
  exact List.mem_of_find?_eq_some hfind

namespace Source

/-- In every context sources of one identity have the same path exactly if they have the same name,
as they have if no name holds a colon. In a table that uses build the member of a use is imported
from the path of its source exactly if the source under which it is kept has the name of its own. -/
theorem urn_identifies_path_iff (ctx : Context String) :
    (∀ a b : Source String, a.urn = b.urn →
      (a.path ctx = b.path ctx ↔ a.name = b.name) ∧
        (':' ∉ a.name.toList → ':' ∉ b.name.toList → a.path ctx = b.path ctx)) ∧
    ∀ us : List Use, ∀ u ∈ us, ∃ m ∈ (Imports.built us).modules,
      m.source.urn = u.source.urn ∧ (∃ i ∈ m.imports, i.member = u.member) ∧
        (m.source.path ctx = u.source.path ctx ↔ m.source.name = u.source.name) := by
  refine ⟨fun a b hurn => ?_, fun us u hu => ?_⟩
  · rw [urn_eq, urn_eq, Except.ok.injEq] at hurn
    have hpath := path_eq_path_iff ctx hurn
    exact ⟨hpath, fun ha hb => hpath.mpr (name_eq_of_notMem hurn ha hb)⟩
  · obtain ⟨m, hm, hidentity, hmember⟩ := Imports.exists_mem_built hu
    refine ⟨m, hm, ?_, hmember, path_eq_path_iff ctx hidentity⟩
    rw [urn_eq, urn_eq, hidentity]

/-- Carts of the European shop of one package. -/
def carts : Source String := .api "acme" (some "shop:eu/v1.ts")

/-- A package called like that package and its shop, with a module called like the rest. -/
def items : Source String := .api "acme:shop" (some "eu/v1.ts")

/-- A context that knows both packages. -/
def trade : Context String where
  apiVersion := "apps/v1"
  dependencies := [("acme", ⟨"acme", "1.0"⟩), ("acme:shop", ⟨"acme:shop", "2.0"⟩)]
  modulePath := "apps/v1.ts"
  engine := .deno
  packaging := .hosted

theorem urn_identifies_path_iff_trade :
    carts.urn = items.urn ∧ (carts.path trade = items.path trade ↔ carts.name = items.name) :=
  ⟨rfl, ((urn_identifies_path_iff trade).1 carts items rfl).1⟩

theorem one_urn_two_paths :
    carts.urn = items.urn ∧
      carts.path trade = .ok "https://kure.sh/api/acme@1.0/shop:eu/v1.ts" ∧
      items.path trade = .ok "https://kure.sh/api/acme:shop@2.0/eu/v1.ts" ∧
      carts.path trade ≠ items.path trade := by
  have hcarts : carts.path trade = .ok "https://kure.sh/api/acme@1.0/shop:eu/v1.ts" := by rfl
  have hitems : items.path trade = .ok "https://kure.sh/api/acme:shop@2.0/eu/v1.ts" := by rfl
  refine ⟨rfl, hcarts, hitems, ?_⟩
  rw [hcarts, hitems]
  intro h
  exact absurd (Except.ok.inj h) (by decide)

end Source

end ApiTypes
