import ApiTypes.Import.Source
import ApiTypes.Proofs.Text.Pieces
import Mathlib.Data.List.Basic

/-! Where relative paths lead. A path is followed component by component from a place in the tree
below the root, so what is followed in parts can be joined. Between two directories the way goes up
to the last common ancestor and down from there by names alone, and arrives. The path by which one
module refers to another therefore leads to the other module, whatever the two paths are. It begins
with one or two dots and a slash except in one case: on a way that goes straight down into a
directory whose name begins with a dot, which is taken for the dots of a relative path. -/

namespace ApiTypes.Import.RelativePath

open Text (Split.split Split.join Split.trimRight Split.split_append_cons Split.split_of_notMem
  Split.split_join Split.notMem_of_mem_split Split.notMem_or_exists_append
  Split.exists_append_trimRight Split.exists_join_cons)

/-! ### Following a path -/

/-- The place that a path leads to from another one, both given last component first. -/
def follow (place : List (List Char)) (path : List Char) : List (List Char) :=
  (Split.split '/' path).foldl walk place

theorem components_eq (path : List Char) : components path = (follow [] path).reverse := rfl

theorem follow_nil (place : List (List Char)) : follow place [] = place := rfl

theorem follow_append (place : List (List Char)) (above rest : List Char) :
    follow place (above ++ '/' :: rest) = follow (follow place above) rest := by
  rw [follow, Split.split_append_cons, List.foldl_append]
  rfl

theorem follow_of_notMem (place : List (List Char)) {name : List Char} (h : '/' ∉ name) :
    follow place name = walk place name := by
  rw [follow, Split.split_of_notMem h]
  rfl

/-- Slashes at the end of a path lead nowhere. -/
theorem follow_append_slashes (place : List (List Char)) (path : List Char) {slashes : List Char}
    (h : ∀ c ∈ slashes, c = '/') : follow place (path ++ slashes) = follow place path := by
  induction slashes generalizing path with
  | nil => rw [List.append_nil]
  | cons c rest ih =>
    obtain ⟨rfl, hrest⟩ := List.forall_mem_cons.mp h
    have hstep := ih (path ++ ['/']) hrest
    rw [List.append_assoc, List.singleton_append] at hstep
    rw [hstep, follow_append, follow_nil]

/-! ### The last component and what stands before it -/

theorem basename_of_notMem {name : List Char} (h : '/' ∉ name) : basename name = name := by
  rw [basename, Split.split_of_notMem h]
  rfl

theorem basename_append {name : List Char} (above : List Char) (h : '/' ∉ name) :
    basename (above ++ '/' :: name) = name := by
  rw [basename, Split.split_append_cons, Split.split_of_notMem h, List.getLast?_concat]
  rfl

theorem dirname_of_notMem {name : List Char} (h : '/' ∉ name) : dirname name = [] := by
  rw [dirname, basename_of_notMem h, Nat.sub_self]
  rfl

/-- What stands before the last component is there up to its last slashes, and never empty. -/
theorem exists_dirname_append {name : List Char} (above : List Char) (h : '/' ∉ name) :
    ∃ slashes, above ++ ['/'] = dirname (above ++ '/' :: name) ++ slashes ∧
      (∀ c ∈ slashes, c = '/') ∧ dirname (above ++ '/' :: name) ≠ [] := by
  have hhead : (above ++ '/' :: name).take
      ((above ++ '/' :: name).length - (basename (above ++ '/' :: name)).length) =
        above ++ ['/'] := by
    rw [basename_append above h, List.append_cons, List.length_append, Nat.add_sub_cancel,
      List.take_left]
  obtain ⟨slashes, hsplit, hslashes⟩ := Split.exists_append_trimRight (· = '/') (above ++ ['/'])
  rw [dirname, hhead]
  split
  next => exact ⟨[], (List.append_nil _).symm, List.forall_mem_nil _, by simp⟩
  next trimmed hne =>
    exact ⟨slashes, hsplit, fun c hc => of_decide_eq_true (hslashes c hc), hne⟩

theorem follow_dirname_append (place : List (List Char)) {name : List Char} (above : List Char)
    (h : '/' ∉ name) : follow place (dirname (above ++ '/' :: name)) = follow place above := by
  obtain ⟨slashes, hsplit, hslashes, -⟩ := exists_dirname_append above h
  rw [← follow_append_slashes place _ hslashes, ← hsplit, follow_append, follow_nil]

/-- A path leads where its last component leads from what stands before it. -/
theorem follow_eq_walk (place : List (List Char)) (path : List Char) :
    follow place path = walk (follow place (dirname path)) (basename path) := by
  rcases Split.notMem_or_exists_append '/' path with h | ⟨above, name, rfl, h⟩
  · rw [dirname_of_notMem h, basename_of_notMem h, follow_of_notMem _ h, follow_nil]
  · rw [follow_dirname_append place above h, basename_append above h, follow_append,
      follow_of_notMem _ h]

theorem notMem_basename (path : List Char) : '/' ∉ basename path := by
  rcases Split.notMem_or_exists_append '/' path with h | ⟨above, name, rfl, h⟩
  · rwa [basename_of_notMem h]
  · rwa [basename_append above h]

/-! ### Paths below the root -/

theorem join_of_rooted (base : List Char) {path : List Char} (h : path.head? = some '/') :
    join base path = path := by
  rw [join, if_pos h]

theorem join_root {path : List Char} (h : path.head? ≠ some '/') :
    join root path = root ++ '/' :: path := by
  rw [join, if_neg h, if_neg (by decide)]

/-- A path that is not rooted leads from where the path before it leads. -/
theorem follow_join (base : List Char) {path : List Char} (h : path.head? ≠ some '/') :
    follow [] (join base path) = follow (follow [] base) path := by
  rw [join, if_neg h]
  split
  next hbase =>
    rcases (Bool.or_eq_true _ _).mp hbase with hnil | hlast
    · rw [of_decide_eq_true hnil]
      rfl
    · obtain ⟨above, rfl⟩ := List.getLast?_eq_some_iff.mp (of_decide_eq_true hlast)
      rw [List.append_assoc, List.singleton_append, follow_append, follow_append, follow_nil]
  next => exact follow_append [] base path

/-- The directory that a path of the package leads to. -/
def directory (path : List Char) : List (List Char) :=
  components (join root (dirname path))

theorem head?_dirname_append {name : List Char} (above : List Char) (h : '/' ∉ name) :
    (dirname (above ++ '/' :: name)).head? = (above ++ '/' :: name).head? := by
  obtain ⟨slashes, hsplit, -, hne⟩ := exists_dirname_append above h
  have hpath : above ++ '/' :: name = dirname (above ++ '/' :: name) ++ (slashes ++ name) := by
    rw [← List.append_assoc, ← hsplit, ← List.append_cons]
  conv_rhs => rw [hpath, List.head?_append_of_ne_nil _ hne]

/-- The directory of a path is that of the path joined onto the root. -/
theorem components_dirname_join (path : List Char) :
    components (dirname (join root path)) = directory path := by
  rw [directory]
  rcases Split.notMem_or_exists_append '/' path with h | ⟨above, name, rfl, h⟩
  · have hhead : path.head? ≠ some '/' := fun hslash => h (List.mem_of_mem_head? hslash)
    rw [join_root hhead, components_eq, follow_dirname_append [] root h, dirname_of_notMem h]
    rfl
  · by_cases hhead : (above ++ '/' :: name).head? = some '/'
    · rw [join_of_rooted root hhead,
        join_of_rooted root ((head?_dirname_append above h).trans hhead)]
    · have hdir : (dirname (above ++ '/' :: name)).head? ≠ some '/' := by
        rwa [head?_dirname_append above h]
      rw [join_root hhead, ← List.cons_append, ← List.append_assoc, components_eq,
        follow_dirname_append [] _ h, follow_append, components_eq, follow_join root hdir,
        follow_dirname_append _ above h]

/-! ### Names -/

/-- A component that leads down. -/
structure IsName (component : List Char) : Prop where
  ne_nil : component ≠ []
  ne_dot : component ≠ ['.']
  ne_dots : component ≠ ['.', '.']
  slash_free : '/' ∉ component

theorem walk_of_isName (place : List (List Char)) {name : List Char} (h : IsName name) :
    walk place name = name :: place := by
  rw [walk, if_neg (by simpa using ⟨h.ne_nil, h.ne_dot⟩), if_neg h.ne_dots]

theorem foldl_walk_of_isName (place : List (List Char)) {names : List (List Char)}
    (h : ∀ name ∈ names, IsName name) : names.foldl walk place = names.reverse ++ place := by
  induction names generalizing place with
  | nil => rfl
  | cons name rest ih =>
    obtain ⟨hname, hrest⟩ := List.forall_mem_cons.mp h
    rw [List.foldl_cons, walk_of_isName place hname, ih _ hrest, List.reverse_cons,
      List.append_assoc, List.singleton_append]

theorem foldl_walk_up (place : List (List Char)) (n : Nat) :
    (List.replicate n ['.', '.']).foldl walk place = place.drop n := by
  induction n generalizing place with
  | zero => rfl
  | succ n ih =>
    have hup : walk place ['.', '.'] = place.drop 1 := rfl
    rw [List.replicate_succ, List.foldl_cons, hup, ih, List.drop_drop, Nat.add_comm]

theorem isName_walk {place : List (List Char)} {component : List Char}
    (hplace : ∀ name ∈ place, IsName name) (h : '/' ∉ component) :
    ∀ name ∈ walk place component, IsName name := by
  rw [walk]
  split
  next => exact hplace
  next hne =>
    obtain ⟨hnil, hdot⟩ : component ≠ [] ∧ component ≠ ['.'] := by simpa using hne
    split
    next => exact fun name hname => hplace name (List.mem_of_mem_drop hname)
    next hdots => exact List.forall_mem_cons.mpr ⟨⟨hnil, hdot, hdots, h⟩, hplace⟩

theorem isName_foldl_walk {pieces place : List (List Char)} (hpieces : ∀ piece ∈ pieces, '/' ∉ piece)
    (hplace : ∀ name ∈ place, IsName name) : ∀ name ∈ pieces.foldl walk place, IsName name := by
  induction pieces generalizing place with
  | nil => exact hplace
  | cons piece rest ih =>
    obtain ⟨hpiece, hrest⟩ := List.forall_mem_cons.mp hpieces
    exact ih hrest (isName_walk hplace hpiece)

/-- No dots are left in the components of a path. -/
theorem isName_of_mem_components (path : List Char) : ∀ name ∈ components path, IsName name := by
  have hpieces : ∀ piece ∈ Split.split '/' path, '/' ∉ piece :=
    fun _ hpiece => Split.notMem_of_mem_split hpiece
  intro name hname
  exact isName_foldl_walk hpieces (List.forall_mem_nil _) name (List.mem_reverse.mp hname)

/-! ### The way between two directories -/

/-- Two directories have a longest common beginning. -/
theorem exists_commonLength (start target : List (List Char)) :
    ∃ shared up down, start = shared ++ up ∧ target = shared ++ down ∧
      commonLength start target = shared.length ∧
      ∀ name more rest, up = name :: more → down ≠ name :: rest := by
  fun_induction commonLength start target with
  | case1 xs x ys ih =>
    obtain ⟨shared, up, down, rfl, rfl, hlength, hpart⟩ := ih
    exact ⟨x :: shared, up, down, rfl, rfl, congrArg (· + 1) hlength, hpart⟩
  | case2 x xs y ys hne =>
    refine ⟨[], x :: xs, y :: ys, rfl, rfl, rfl, ?_⟩
    rintro name more rest ⟨⟩ ⟨⟩
    exact hne rfl
  | case3 start target hshort =>
    refine ⟨[], start, target, rfl, rfl, rfl, ?_⟩
    rintro name more rest rfl rfl
    exact hshort name more name rest rfl rfl

/-- The way up some directories and then down. -/
def way (up : Nat) (down : List (List Char)) : List Char :=
  match List.replicate up ['.', '.'] ++ down with
  | [] => ['.']
  | steps => Split.join '/' steps

theorem follow_way (place : List (List Char)) (up : Nat) {down : List (List Char)}
    (h : ∀ name ∈ down, IsName name) :
    follow place (way up down) = down.reverse ++ place.drop up := by
  have hsteps : (List.replicate up ['.', '.'] ++ down).foldl walk place =
      down.reverse ++ place.drop up := by
    rw [List.foldl_append, foldl_walk_up, foldl_walk_of_isName _ h]
  rw [way, ← hsteps]
  split
  next hnil =>
    rw [hnil]
    rfl
  next hne =>
    have hfree : ∀ step ∈ List.replicate up ['.', '.'] ++ down, '/' ∉ step := by
      rw [List.forall_mem_append]
      refine ⟨fun step hstep => ?_, fun name hname => (h name hname).slash_free⟩
      rw [List.eq_of_mem_replicate hstep]
      decide
    rw [follow, Split.split_join hne hfree]

/-- The way between two directories goes up to their longest common beginning. -/
theorem exists_between (start target : List (List Char)) :
    ∃ shared up down, start = shared ++ up ∧ target = shared ++ down ∧
      between start target = way up.length down ∧
      ∀ name more rest, up = name :: more → down ≠ name :: rest := by
  obtain ⟨shared, up, down, hstart, htarget, hlength, hpart⟩ := exists_commonLength start target
  refine ⟨shared, up, down, hstart, htarget, ?_, hpart⟩
  have hup : start.length - commonLength start target = up.length := by
    rw [hlength, hstart, List.length_append, Nat.add_sub_cancel_left]
  have hdown : target.drop (commonLength start target) = down := by
    rw [hlength, htarget, List.drop_left]
  rw [between, hup, hdown, way]
  cases List.replicate up.length ['.', '.'] ++ down <;> rfl

theorem follow_between (start : List (List Char)) {target : List (List Char)}
    (h : ∀ name ∈ target, IsName name) :
    follow start.reverse (between start target) = target.reverse := by
  obtain ⟨shared, up, down, rfl, rfl, hbetween, -⟩ := exists_between start target
  rw [hbetween, follow_way _ _ (List.forall_mem_append.mp h).2, List.reverse_append,
    List.reverse_append, List.drop_left' (List.length_reverse ..)]

/-! ### The path between two modules -/

/-- A way with a dot in front, which stays as it is if it begins with one. -/
def dotted (way : List Char) : List Char :=
  if way.head? = some '.' then way else '.' :: '/' :: way

theorem relative_eq (importer target : List Char) :
    relative importer target =
      dotted (between (directory importer) (directory target)) ++
        '/' :: basename (join root target) := by
  rw [relative, components_dirname_join]
  rfl

theorem head?_dotted (way : List Char) : (dotted way).head? = some '.' := by
  rw [dotted]
  split
  next h => exact h
  next => rfl

theorem follow_dotted (place : List (List Char)) (way : List Char) :
    follow place (dotted way) = follow place way := by
  rw [dotted]
  split
  next => rfl
  next => exact follow_append place ['.'] way

/-- The path that a module refers to another one by leads to the other one. -/
theorem components_join_relative (importer target : List Char) :
    components (join (join root (dirname importer)) (relative importer target)) =
      components (join root target) := by
  have hhead : (relative importer target).head? ≠ some '/' := by
    rw [relative_eq, List.head?_append, head?_dotted, Option.some_or]
    decide
  have htargets : ∀ name ∈ directory target, IsName name := isName_of_mem_components _
  have hstart : follow [] (join root (dirname importer)) = (directory importer).reverse :=
    (List.reverse_reverse _).symm
  have htarget : (directory target).reverse = follow [] (dirname (join root target)) := by
    rw [← components_dirname_join]
    exact List.reverse_reverse _
  rw [components_eq, components_eq, follow_join _ hhead, hstart, relative_eq, follow_append,
    follow_dotted, follow_between _ htargets, htarget,
    follow_of_notMem _ (notMem_basename _), ← follow_eq_walk]

/-! ### Paths that are taken as relative -/

/-- A path that cannot be taken for the name of a package. -/
def IsRelative (path : List Char) : Prop :=
  ['.', '/'] <+: path ∨ ['.', '.', '/'] <+: path

instance (path : List Char) : Decidable (IsRelative path) :=
  inferInstanceAs (Decidable (_ ∨ _))

/-- A directory that lies below another one, through a directory in it whose name begins with a
dot. -/
def IsHiddenIn (target start : List (List Char)) : Prop :=
  ∃ name rest, target = start ++ ('.' :: name) :: rest

theorem not_isRelative_of_isName {name : List Char} (h : IsName ('.' :: name)) (rest : List Char) :
    ¬ IsRelative ('.' :: name ++ '/' :: rest) := by
  have hslash : ∀ more : List Char, name ≠ '/' :: more := by
    rintro more rfl
    exact h.slash_free (by simp)
  rintro (hone | htwo)
  · cases name with
    | nil => exact h.ne_dot rfl
    | cons c more =>
      obtain ⟨rfl, -⟩ := by simpa using hone
      exact hslash more rfl
  · rcases name with _ | ⟨c, _ | ⟨d, more⟩⟩
    · simp at htwo
    · obtain rfl : '.' = c := by simpa using htwo
      exact h.ne_dots rfl
    · obtain ⟨rfl, rfl⟩ : '.' = c ∧ '/' = d := by simpa using htwo
      exact h.slash_free (by simp)

/-- A way is taken as relative if it goes up, ends at once, or goes down to a name that does not
begin with a dot. -/
theorem isRelative_way_iff (up : Nat) {down : List (List Char)} (h : ∀ name ∈ down, IsName name)
    (last : List Char) :
    IsRelative (dotted (way up down) ++ '/' :: last) ↔
      ¬ (up = 0 ∧ ∃ name rest, down = ('.' :: name) :: rest) := by
  cases up with
  | succ n =>
    obtain ⟨more, hmore⟩ := Split.exists_join_cons '/' ['.', '.']
      (List.replicate n ['.', '.'] ++ down) last
    have hway : way (n + 1) down =
        Split.join '/' (['.', '.'] :: (List.replicate n ['.', '.'] ++ down)) := rfl
    have hhead : (way (n + 1) down).head? = some '.' := by
      rw [hway]
      cases List.replicate n ['.', '.'] ++ down <;> rfl
    rw [dotted, if_pos hhead, hway, hmore]
    exact iff_of_true (.inr ⟨more, rfl⟩) (by simp)
  | zero =>
    cases down with
    | nil => exact iff_of_true (.inl ⟨last, rfl⟩) (by simp)
    | cons name rest =>
      obtain ⟨more, hmore⟩ := Split.exists_join_cons '/' name rest last
      have hname := h name List.mem_cons_self
      obtain ⟨c, tail, rfl⟩ := List.exists_cons_of_ne_nil hname.ne_nil
      have hway : way 0 ((c :: tail) :: rest) = Split.join '/' ((c :: tail) :: rest) := rfl
      have hhead : (way 0 ((c :: tail) :: rest)).head? = some c := by
        rw [hway]
        cases rest <;> rfl
      rw [dotted, hhead]
      by_cases hc : c = '.'
      · subst hc
        rw [if_pos rfl, hway, hmore]
        exact iff_of_false (not_isRelative_of_isName hname more) (by simp)
      · rw [if_neg (by simpa using hc)]
        exact iff_of_true (.inl ⟨_, rfl⟩) (by simp [hc])

/-- The path between two modules is taken as relative unless the way goes down at once, into a
directory whose name begins with a dot. -/
theorem isRelative_relative_iff (importer target : List Char) :
    IsRelative (relative importer target) ↔
      ¬ IsHiddenIn (directory target) (directory importer) := by
  have htargets : ∀ name ∈ directory target, IsName name := isName_of_mem_components _
  obtain ⟨shared, up, down, hstart, htarget, hbetween, hpart⟩ :=
    exists_between (directory importer) (directory target)
  rw [htarget] at htargets
  rw [relative_eq, hbetween, isRelative_way_iff _ (List.forall_mem_append.mp htargets).2,
    IsHiddenIn, hstart, htarget]
  refine not_congr ?_
  simp only [List.append_assoc, List.append_cancel_left_eq, List.length_eq_zero_iff]
  cases up with
  | nil => simp
  | cons name more => simp [hpart name more _ rfl]

end ApiTypes.Import.RelativePath

namespace ApiTypes.Source

open Import.RelativePath

variable (ctx : Context String) (target : String)

theorem path_sibling : (sibling target).path ctx =
    .ok (String.ofList (relative ctx.modulePath.toList target.toList)) := rfl

/-- Whatever the paths of two modules are, the path by which the one imports from the other leads
from the directory of the one to the place of the other. -/
theorem path_leads_to_sibling :
    ∃ path, (sibling target).path ctx = .ok path ∧
      components (join (join root (dirname ctx.modulePath.toList)) path.toList) =
        components (join root target.toList) := by
  refine ⟨_, path_sibling ctx target, ?_⟩
  rw [String.toList_ofList]
  exact components_join_relative _ _

example : relative "a/../b/.x//v1.ts".toList "c/d/../.y/v2.ts".toList =
    "../../c/.y/v2.ts".toList := by decide

/-- The path by which a module imports from another one begins with `./` or `../` unless the other
one lies in a directory below that of the first, in a part of it whose name begins with a dot. -/
theorem path_sibling_isRelative_iff :
    ∃ path, (sibling target).path ctx = .ok path ∧
      (IsRelative path.toList ↔
        ¬ IsHiddenIn (directory target.toList) (directory ctx.modulePath.toList)) := by
  refine ⟨_, path_sibling ctx target, ?_⟩
  rw [String.toList_ofList]
  exact isRelative_relative_iff _ _

/-- The context of a module in the directory `apps`. -/
def inApps : Context String where
  apiVersion := "apps/v1"
  dependencies := []
  modulePath := ({ directory := some "apps" } : Group String).modulePath "v1"
  engine := .deno
  packaging := .hosted

theorem hidden_path_not_isRelative :
    (sibling (({ directory := some "apps/.internal" } : Group String).modulePath "v1")).path
        inApps = .ok ".internal/v1.ts" ∧
      ¬ IsRelative ".internal/v1.ts".toList := by
  refine ⟨?_, by decide⟩
  rfl

end ApiTypes.Source
