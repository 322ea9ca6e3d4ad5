import ApiTypes.Proofs.Import.Uses
import ApiTypes.Proofs.Module.Run
import ApiTypes.Proofs.Name.Settled

/-! Plain members. A plain member makes a fixed list of requests, with names asked for
as declarations only, and writes a text that is a function of the context and of
spellings. Its requests add to the names and the imports of an applying module until
one of them declares an identifier again; the readings of its bindings are then the
spellings of the symbols that it requested. -/

namespace ApiTypes

open Traversal Op

/-! ### Requests -/

namespace Request

/-- A name may be asked for as a declaration; an import is to be used. -/
def IsPlain : Request String → Prop
  | name _ usage => usage = .declaration
  | _ => True

def declared? : Request String → Option String
  | name identifier _ => some identifier
  | _ => none

def use? : Request String → Option Use
  | useMember source member localName typeOnly => some ⟨source, member, localName, typeOnly⟩
  | _ => none

/-- What a request makes a binding for. -/
def symbol : Request String → Symbol String
  | name identifier _ => .declared identifier
  | useMember source member _ _ => .imported source member
  | lookup identifier => .declared identifier

/-- The binding of a request that is made when some registrations are there. -/
def binding (serial : Nat) : Request String → Binding String
  | name identifier _ => .name serial identifier
  | useMember source member _ _ => .member source.identity member
  | lookup identifier => .lookup identifier

end Request

/-- The import that an action asks for. -/
def Action.use? : Action String → Option Use
  | .request r => r.use?
  | .use source member => some ⟨source, member, none, false⟩
  | _ => none

/-- The identifiers that some requests declare, in order. -/
def declaredBy (rs : List (Request String)) : List String :=
  rs.filterMap Request.declared?

def usesBy (rs : List (Request String)) : List Use :=
  rs.filterMap Request.use?

/-- The bindings of some requests, which register behind a number of others. -/
def bindingsFrom (serial : Nat) : List (Request String) → List (Binding String)
  | [] => []
  | r :: rest => r.binding serial :: bindingsFrom (serial + r.declared?.toList.length) rest

theorem declaredBy_cons (r : Request String) (rs : List (Request String)) :
    declaredBy (r :: rs) = r.declared?.toList ++ declaredBy rs := by
  cases h : r.declared? <;> simp [declaredBy, h]

theorem usesBy_cons (r : Request String) (rs : List (Request String)) :
    usesBy (r :: rs) = r.use?.toList ++ usesBy rs := by
  cases h : r.use? <;> simp [usesBy, h]

theorem declaredBy_singleton (r : Request String) : declaredBy [r] = r.declared?.toList := by
  rw [declaredBy_cons, declaredBy, List.filterMap_nil, List.append_nil]

theorem declaredBy_append (rs rs' : List (Request String)) :
    declaredBy (rs ++ rs') = declaredBy rs ++ declaredBy rs' :=
  List.filterMap_append

theorem usesBy_append (rs rs' : List (Request String)) :
    usesBy (rs ++ rs') = usesBy rs ++ usesBy rs' :=
  List.filterMap_append

/-- The first element that is among some others, or stands twice. -/
def firstRepeated? (seen : List String) : List String → Option String
  | [] => none
  | x :: rest => if x ∈ seen then some x else firstRepeated? (seen ++ [x]) rest

theorem firstRepeated?_append (seen xs ys : List String) :
    firstRepeated? seen (xs ++ ys) =
      (firstRepeated? seen xs).or (firstRepeated? (seen ++ xs) ys) := by
  induction xs generalizing seen with
  | nil => simp [firstRepeated?]
  | cons x rest ih =>
    rw [List.cons_append, firstRepeated?, firstRepeated?]
    split
    next => rfl
    next => rw [ih, List.append_assoc]; rfl

theorem firstRepeated?_declaredBy_cons (seen : List String) (r : Request String)
    (rs : List (Request String)) :
    firstRepeated? seen (declaredBy (r :: rs)) =
      (r.declared?.filter fun x => x ∈ seen).or
        (firstRepeated? (seen ++ declaredBy [r]) (declaredBy rs)) := by
  rw [declaredBy_cons, firstRepeated?_append, declaredBy_singleton]
  congr 1
  cases r.declared? with
  | none => rfl
  | some x => by_cases hx : x ∈ seen <;> simp [firstRepeated?, hx, Option.filter_some]

theorem firstRepeated?_eq_none_iff {seen : List String} (hs : seen.Nodup) (xs : List String) :
    firstRepeated? seen xs = none ↔ (seen ++ xs).Nodup := by
  induction xs generalizing seen with
  | nil => simp [firstRepeated?, hs]
  | cons x rest ih =>
    rw [firstRepeated?]
    split
    next hx =>
      refine iff_of_false (by simp) fun hn => ?_
      exact (List.nodup_append.mp hn).2.2 x hx x List.mem_cons_self rfl
    next hx =>
      have hn : (seen ++ [x]).Nodup := hs.append (List.nodup_singleton x) (by simpa using hx)
      rw [ih hn, List.append_assoc]
      rfl

/-- What is repeated first stands twice. -/
theorem count_of_firstRepeated? {seen xs : List String} {x : String}
    (h : firstRepeated? seen xs = some x) : 1 < (seen ++ xs).count x := by
  induction xs generalizing seen with
  | nil => cases h
  | cons y rest ih =>
    rw [firstRepeated?] at h
    split at h
    next hy =>
      obtain rfl := Option.some.inj h
      have hseen := List.count_pos_iff.mpr hy
      rw [List.count_append, List.count_cons_self]
      omega
    next =>
      have hrest := ih h
      rwa [List.append_assoc] at hrest

/-! ### Members -/

namespace Part

/-- A part that only writes. -/
def IsPlain : Part String → Prop
  | action _ => False
  | _ => True

/-- The text of a part, given the spellings of symbols and the readings of bindings. -/
def text (ctx : Context String) (spell : Symbol String → Except Error String)
    (readings : List (Except Error String)) : Part String → Except Error String
  | piece p => p.render ctx spell
  | binding index =>
    match if index < 0 then readings.reverse[index.natAbs - 1]? else readings[index.toNat]? with
    | some reading => reading
    | none => .error (.misfit (.position index))
  | action _ => .ok ""

end Part

namespace Member

def actions : Member String → List (Action String)
  | script actions _ => actions

def parts : Member String → List (Part String)
  | script _ parts => parts

def requests (m : Member String) : List (Request String) :=
  m.actions.filterMap fun
    | .request r => some r
    | _ => none

/-- A member that makes plain requests and then writes. -/
structure IsPlain (m : Member String) : Prop where
  actions : ∃ rs : List (Request String), m.actions = rs.map .request ∧ ∀ r ∈ rs, r.IsPlain
  parts : ∀ p ∈ m.parts, p.IsPlain

theorem requests_eq {m : Member String} {rs : List (Request String)}
    (h : m.actions = rs.map .request) : m.requests = rs := by
  rw [requests, h, List.filterMap_map]
  exact List.filterMap_some

theorem IsPlain.actions_eq {m : Member String} (h : m.IsPlain) :
    m.actions = m.requests.map .request := by
  obtain ⟨rs, hrs, -⟩ := h.actions
  rw [requests_eq hrs, hrs]

theorem IsPlain.requests_plain {m : Member String} (h : m.IsPlain) :
    ∀ r ∈ m.requests, r.IsPlain := by
  obtain ⟨rs, hrs, hp⟩ := h.actions
  rwa [requests_eq hrs]

/-- The text of a plain member: a function of the context and the spellings of symbols. -/
def text (ctx : Context String) (spell : Symbol String → Except Error String)
    (m : Member String) : Except Error String := do
  let readings := m.requests.map fun r => spell r.symbol
  return String.join (← m.parts.mapM (Part.text ctx spell readings))

end Member

/-- All requests of some members, in order. -/
def requestsOf (ms : List (Member String)) : List (Request String) :=
  ms.flatMap Member.requests

/-- The bindings of some members, each list of bindings behind the registrations of the
members before. -/
def memberBindings (serial : Nat) : List (Member String) → List (List (Binding String))
  | [] => []
  | m :: rest =>
    bindingsFrom serial m.requests ::
      memberBindings (serial + (declaredBy m.requests).length) rest

namespace Module

/-! ### Requests in an applying module -/

/-- A module that takes requests. -/
structure Accepting (m : Module String) : Prop where
  phase : m.phase = .applying
  names : m.names.resolved = false
  imports : m.imports.applied = false

/-- The module after some requests, none of which declares an identifier again. -/
def after (m : Module String) (rs : List (Request String)) : Module String :=
  { m with
    names := { m.names with
      entries := m.names.entries ++
        (declaredBy rs).map fun identifier => { identifier, usage := .declaration } }
    imports := m.imports.recordAll (usesBy rs) }

theorem after_nil (m : Module String) : m.after [] = m := by
  simp [after, declaredBy, usesBy, Imports.recordAll]

theorem after_lookup (m : Module String) (x : String) : m.after [.lookup x] = m :=
  m.after_nil

theorem after_useMember (m : Module String) (u : Use) :
    m.after [.useMember u.source u.member u.localName u.typeOnly] =
      { m with imports := m.imports.record u } := by
  show { m.after [] with imports := m.imports.record u } = _
  rw [after_nil]

theorem after_append (m : Module String) (rs rs' : List (Request String)) :
    (m.after rs).after rs' = m.after (rs ++ rs') := by
  simp only [after, declaredBy_append, usesBy_append, List.map_append, List.append_assoc,
    Imports.recordAll, List.foldl_append]

theorem Accepting.after {m : Module String} (h : m.Accepting) (rs : List (Request String)) :
    (m.after rs).Accepting :=
  ⟨h.phase, h.names, (Imports.applied_recordAll ..).trans h.imports⟩

theorem declaredIn_after (m : Module String) (rs : List (Request String)) :
    Names.declaredIn (m.after rs).names.entries =
      Names.declaredIn m.names.entries ++ declaredBy rs := by
  simp [Names.declaredIn, Module.after, List.filterMap_map]

theorem length_after (m : Module String) (rs : List (Request String)) :
    (m.after rs).names.entries.length = m.names.entries.length + (declaredBy rs).length := by
  simp [Module.after]

end Module

end ApiTypes
