import ApiTypes.Proofs.Plan.Writing

/-! The printer of types. It writes a type in one pass and spells every reference when it gets
to it, so it needs the spellings before it starts, where a plan needs them only in the end. Its
text is a row of fixed texts and of references, in the order in which the type shows them, and
the plan of a type renders to what the printer writes. -/

namespace ApiTypes

open Traversal

/-! ### Printing a type -/

namespace Text

/-- A block of properties, one on each line. -/
def bracedLines (properties : List String) : String :=
  if properties.isEmpty then "\x7b\x7d" else "\x7b\n" ++ "\n".intercalate properties ++ "\n\x7d"

end Text

section

variable (spell : Symbol String → Except Error String)

mutual

/-- The text of a type. The body of a declaration leaves the parents of an object to the
heading. -/
def TypeExpr.print (declaration : Bool) : TypeExpr String → Except Error String
  | .string choices => .ok (choicesText choices)
  | .integer => .ok "number"
  | .float => .ok "number"
  | .boolean => .ok "boolean"
  | .unknown => .ok "unknown"
  | .array items => do return "Array<" ++ (← items.print false) ++ ">"
  | .map values => do return "Record<string, " ++ (← values.print false) ++ ">"
  | .union variants => do return " | ".intercalate (← TypeExpr.printAll variants)
  | .optional value => do return (← value.print false) ++ " | null"
  | .reference target => spell target.symbol
  | .object properties parents => do
    let heads ← (if declaration then [] else parents).mapM fun r => spell r.symbol
    let body ← Property.printAll properties
    return " & ".intercalate (heads ++ [Text.bracedLines body])
  | .resource .. => .error (.ofCause .nestedResource)

def TypeExpr.printAll : List (TypeExpr String) → Except Error (List String)
  | [] => .ok []
  | t :: ts => do return (← t.print false) :: (← TypeExpr.printAll ts)

/-- The text of a property: its documentation, its key, and its type, which may be null unless
it is required. -/
def Property.print : Property String → Except Error String
  | .mk name value required description deprecated => do
    let text ← value.print false
    return Text.DocBlock.block (description.getD "") deprecated 1 ++
      ("  " ++ Text.PropertyKey.key name ++ (if required then ": " else "?: ")) ++
      (if required || value.isOptional then text else text ++ " | null") ++ ";"

def Property.printAll : List (Property String) → Except Error (List String)
  | [] => .ok []
  | p :: ps => do return (← p.print) :: (← Property.printAll ps)

end

end

/-- The references that a type shows. -/
def TypeExpr.shown (declaration : Bool) : TypeExpr String → List (Reference String)
  | .object properties parents =>
    (if declaration then [] else parents) ++ Property.allReferences properties
  | t => t.references

theorem TypeExpr.shown_false (t : TypeExpr String) : t.shown false = t.references := by
  cases t <;> rfl

/-! ### Plans render to what is printed -/

namespace Plan

variable {ctx : Context String} {spell : Symbol String → Except Error String}
  {p q : Plan String} {rs : List (Reference String)}

theorem render_ofText (s : String) : (ofText s : Plan String).render ctx spell = .ok s := by
  show Except.ok (String.join [s]) = _
  rw [String.join_cons, String.join_nil, String.append_empty]

theorem render_reference (r : Reference String) : r.plan.render ctx spell = spell r.symbol := by
  rw [render, Reference.plan, List.mapM_cons, List.mapM_nil, Piece.render]
  cases spell r.symbol with
  | error e => rfl
  | ok x =>
    show Except.ok (String.join [x]) = _
    rw [String.join_cons, String.join_nil, String.append_empty]

theorem render_append_eq (p q : Plan String) : (p ++ q).render ctx spell =
    do return (← p.render ctx spell) ++ (← q.render ctx spell) := by
  rw [render, pieces_append, List.mapM_append, render, render]
  cases p.pieces.mapM (Piece.render ctx spell) with
  | error e => rfl
  | ok xs =>
    cases q.pieces.mapM (Piece.render ctx spell) with
    | error e => rfl
    | ok ys => exact congrArg Except.ok String.join_append

theorem render_between (opening closing : String) (p : Plan String) :
    (ofText opening ++ p ++ ofText closing).render ctx spell =
      do return opening ++ (← p.render ctx spell) ++ closing := by
  rw [render_append_eq, render_append_eq, render_ofText, render_ofText]
  cases p.render ctx spell <;> rfl

theorem render_doc (description : Option String) (deprecated : Bool) (indent : Nat) :
    (doc description deprecated indent).render ctx spell =
      .ok (Text.DocBlock.block (description.getD "") deprecated indent) := by
  have hblock : Text.DocBlock.ofLabel description deprecated indent =
      .ok (Text.DocBlock.block (description.getD "") deprecated indent) := by
    rw [Text.DocBlock.ofLabel, Label.present?]
    cases description with
    | none => rfl
    | some s =>
      rw [Option.filter_some, Label.isTruthy_string]
      cases hs : s.isEmpty with
      | true =>
        rw [String.isEmpty_iff.mp hs]
        rfl
      | false => rfl
  rw [doc, hblock]
  exact render_ofText _

theorem render_intercalate (separator : String) (ps : List (Plan String)) :
    (intercalate separator ps).render ctx spell =
      do return separator.intercalate (← ps.mapM (render ctx spell)) := by
  induction ps with
  | nil => rfl
  | cons p rest ih =>
    rw [List.mapM_cons]
    cases rest with
    | nil =>
      rw [intercalate]
      cases p.render ctx spell with
      | error e => rfl
      | ok x => exact congrArg Except.ok String.intercalate_singleton.symm
    | cons q more =>
      have hcons : intercalate separator (p :: q :: more) =
          p ++ ofText separator ++ intercalate separator (q :: more) := rfl
      rw [hcons, render_append_eq, render_append_eq, render_ofText, ih]
      cases p.render ctx spell with
      | error e => rfl
      | ok x =>
        rw [List.mapM_cons]
        cases q.render ctx spell with
        | error e => rfl
        | ok y =>
          cases more.mapM (render ctx spell) with
          | error e => rfl
          | ok ys => exact congrArg Except.ok String.intercalate_cons_cons.symm

theorem render_braced (ps : List (Plan String)) : (braced ps).render ctx spell =
    do return Text.bracedLines (← ps.mapM (render ctx spell)) := by
  have hlines : (intercalate "\n" ps).render ctx spell =
      do return "\n".intercalate (← ps.mapM (render ctx spell)) := render_intercalate "\n" ps
  cases ps with
  | nil => exact render_ofText "\x7b\x7d"
  | cons p rest =>
    have hcons : braced (p :: rest) =
        ofText "\x7b\n" ++ intercalate "\n" (p :: rest) ++ ofText "\n\x7d" := rfl
    rw [hcons, render_between, hlines, List.mapM_cons]
    cases p.render ctx spell with
    | error e => rfl
    | ok x => cases rest.mapM (render ctx spell) <;> rfl

theorem render_object (parents : List (Reference String)) (ps : List (Plan String)) :
    (intercalate " & " (parents.map Reference.plan ++ [braced ps])).render ctx spell = (do
      let heads ← parents.mapM fun r => spell r.symbol
      let body ← ps.mapM (render ctx spell)
      return " & ".intercalate (heads ++ [Text.bracedLines body])) := by
  have hheads : (parents.map Reference.plan).mapM (render ctx spell) =
      parents.mapM fun r => spell r.symbol := by
    rw [List.mapM_map]
    congr 1
    funext r
    exact render_reference r
  rw [render_intercalate, List.mapM_append, hheads, List.mapM_cons, List.mapM_nil, render_braced]
  cases parents.mapM fun r => spell r.symbol with
  | error e => rfl
  | ok heads => cases ps.mapM (render ctx spell) <;> rfl

theorem render_property (description : Option String) (deprecated : Bool) (key : String)
    (required : Bool) (value : Plan String) :
    (property (doc description deprecated 1) key required value).render ctx spell = (do
      let text ← value.render ctx spell
      return Text.DocBlock.block (description.getD "") deprecated 1 ++
        ("  " ++ key ++ (if required then ": " else "?: ")) ++ text ++ ";") := by
  rw [property, render_append_eq, render_append_eq, render_append_eq, render_doc, render_ofText,
    render_ofText]
  cases value.render ctx spell <;> rfl

/-- Checking the spellings of symbols that are shown changes nothing. -/
theorem Shows.render_requireTexts (hp : p.Shows rs) {ss : List (Symbol String)}
    (h : ss ⊆ rs.map Reference.symbol) :
    (p ++ Plan.requireTexts ss).render ctx spell = p.render ctx spell := by
  have hfollows : Follows spell p.symbols (p.render ctx spell) := follows_render ctx hp.total
  rw [render_append_eq]
  cases hr : p.render ctx spell with
  | error e => rfl
  | ok text =>
    have hnone : (rs.map Reference.symbol).findSome? (missing? spell) = none := by
      rw [← hp.symbols]
      cases hs : p.symbols.findSome? (missing? spell) with
      | none => rfl
      | some e =>
        rw [Follows, hs, hr] at hfollows
        cases hfollows
    have hspelled : ∀ s ∈ ss, ∃ x, spell s = .ok x := by
      intro s hs
      have hmissing := List.findSome?_eq_none_iff.mp hnone s (h hs)
      rw [missing?] at hmissing
      cases hx : spell s with
      | ok x => exact ⟨x, rfl⟩
      | error e => simp [hx] at hmissing
    have hchecks : (Plan.requireTexts ss).render ctx spell = .ok "" := by
      obtain ⟨xs, hxs⟩ := exists_mapM_eq_ok_iff.mpr hspelled
      rw [render, Plan.requireTexts, List.mapM_cons, List.mapM_nil, Piece.render, hxs]
      simp only [ok_bind, forM_requireText]
      rfl
    rw [hchecks]
    exact congrArg Except.ok String.append_empty

end Plan

open Plan

section

variable (ctx : Context String) (spell : Symbol String → Except Error String)

mutual

theorem TypeExpr.plan_prints (declaration : Bool) (t : TypeExpr String) :
    Yields (nested? t.holdsResource) (fun p => p.render ctx spell = t.print spell declaration)
      (t.plan declaration) := by
  cases t with
  | string | integer | float | boolean | unknown =>
    rw [TypeExpr.plan, TypeExpr.print]
    exact yields_ok (render_ofText _)
  | array items =>
    rw [TypeExpr.plan]
    refine (TypeExpr.plan_prints false items).map fun p hp => ?_
    rw [render_between, hp, TypeExpr.print]
  | map values =>
    rw [TypeExpr.plan]
    refine (TypeExpr.plan_prints false values).map fun p hp => ?_
    rw [render_between, hp, TypeExpr.print]
  | optional value =>
    rw [TypeExpr.plan]
    refine (TypeExpr.plan_prints false value).map fun p hp => ?_
    rw [render_append_eq, render_ofText, hp, TypeExpr.print]
    cases value.print spell false <;> rfl
  | union variants =>
    rw [TypeExpr.plan]
    refine ((TypeExpr.plans_yields variants " | " (by decide)).and
      (TypeExpr.plans_print variants)).map fun ps hps => ?_
    rw [hps.1.render_requireTexts (symbols_subset_allReferences variants), render_intercalate,
      hps.2, TypeExpr.print]
  | reference target =>
    rw [TypeExpr.plan, TypeExpr.print]
    exact yields_ok (render_reference target)
  | object properties parents =>
    rw [TypeExpr.plan]
    refine ((Property.plans_yields properties).and
      (Property.plans_print properties)).map fun ps hps => ?_
    rw [(shows_parents _ hps.1.braced).render_requireTexts, render_object, hps.2, TypeExpr.print]
    · rw [List.map_append]
      exact List.subset_append_left ..
  | resource properties scope =>
    rw [TypeExpr.plan]
    rfl

theorem TypeExpr.plans_print (ts : List (TypeExpr String)) :
    Yields (nested? (TypeExpr.anyHoldsResource ts))
      (fun ps => ps.mapM (Plan.render ctx spell) = TypeExpr.printAll spell ts)
      (TypeExpr.plans ts) := by
  cases ts with
  | nil =>
    rw [TypeExpr.plans, TypeExpr.printAll]
    exact yields_ok rfl
  | cons t rest =>
    rw [TypeExpr.plans, TypeExpr.anyHoldsResource, ← nested?_or, TypeExpr.printAll]
    refine (TypeExpr.plan_prints false t).bind fun p hp =>
      (TypeExpr.plans_print rest).map fun ps hps => ?_
    rw [List.mapM_cons, hp, hps]

theorem Property.plan_prints (p : Property String) :
    Yields (nested? p.holdsResource) (fun plan => plan.render ctx spell = p.print spell)
      p.plan := by
  cases p with
  | mk name value required description deprecated =>
    rw [Property.plan]
    have hkey : Text.PropertyKey.ofLabel name = .ok (Text.PropertyKey.key name) := rfl
    rw [hkey, ok_bind]
    refine (TypeExpr.plan_prints false value).map fun body hb => ?_
    rw [render_property, Property.print, ← hb]
    split
    next => rfl
    next =>
      rw [render_append_eq, render_ofText]
      cases body.render ctx spell <;> rfl

theorem Property.plans_print (ps : List (Property String)) :
    Yields (nested? (Property.anyHoldsResource ps))
      (fun plans => plans.mapM (Plan.render ctx spell) = Property.printAll spell ps)
      (Property.plans ps) := by
  cases ps with
  | nil =>
    rw [Property.plans, Property.printAll]
    exact yields_ok rfl
  | cons p rest =>
    rw [Property.plans, Property.anyHoldsResource, ← nested?_or, Property.printAll]
    refine (Property.plan_prints p).bind fun plan hp =>
      (Property.plans_print rest).map fun plans hps => ?_
    rw [List.mapM_cons, hp, hps]

end

end

/-! ### Rows of texts and references -/

/-- Fixed texts and references, one after the other. -/
abbrev Row := List (String ⊕ Reference String)

namespace Row

def references (row : Row) : List (Reference String) :=
  row.filterMap Sum.getRight?

/-- The text of a row. -/
def text (spell : Symbol String → Except Error String) (row : Row) : Except Error String := do
  return String.join (← row.mapM (Sum.elim .ok fun r => spell r.symbol))

end Row

namespace Row

variable {spell : Symbol String → Except Error String} {row row' : Row}

theorem references_append (row row' : Row) :
    Row.references (row ++ row') = row.references ++ row'.references :=
  List.filterMap_append

theorem text_append (row row' : Row) : Row.text spell (row ++ row') =
    do return (← row.text spell) ++ (← row'.text spell) := by
  rw [text, List.mapM_append, text, text]
  cases row.mapM (Sum.elim .ok fun r => spell r.symbol) with
  | error e => rfl
  | ok xs =>
    cases row'.mapM (Sum.elim .ok fun r => spell r.symbol) with
    | error e => rfl
    | ok ys => exact congrArg Except.ok String.join_append

theorem text_fixed (s : String) : Row.text spell [.inl s] = .ok s := by
  show Except.ok (String.join [s]) = _
  rw [String.join_cons, String.join_nil, String.append_empty]

theorem text_reference (r : Reference String) : Row.text spell [.inr r] = spell r.symbol := by
  rw [text, List.mapM_cons, List.mapM_nil, Sum.elim_inr]
  cases spell r.symbol with
  | error e => rfl
  | ok x =>
    show Except.ok (String.join [x]) = _
    rw [String.join_cons, String.join_nil, String.append_empty]

/-- Rows with a fixed text between neighbours. -/
def intercalate (separator : String) : List Row → Row
  | [] => []
  | [row] => row
  | row :: rest => row ++ .inl separator :: intercalate separator rest

theorem references_intercalate (separator : String) (rows : List Row) :
    (intercalate separator rows).references = rows.flatMap references := by
  fun_induction intercalate separator rows with
  | case1 => rfl
  | case2 row => exact (List.append_nil row.references).symm
  | case3 row rest _ ih =>
    rw [references_append, List.flatMap_cons, ← ih]
    rfl

theorem text_intercalate (separator : String) (rows : List Row) :
    (intercalate separator rows).text spell =
      do return separator.intercalate (← rows.mapM (Row.text spell)) := by
  fun_induction intercalate separator rows with
  | case1 => rfl
  | case2 row =>
    rw [List.mapM_cons, List.mapM_nil]
    cases row.text spell with
    | error e => rfl
    | ok x => exact congrArg Except.ok String.intercalate_singleton.symm
  | case3 row rest hne ih =>
    obtain ⟨next, more, rfl⟩ := List.exists_cons_of_ne_nil hne
    have hcons : (Sum.inl separator :: intercalate separator (next :: more) : Row) =
        [.inl separator] ++ intercalate separator (next :: more) := rfl
    rw [text_append, hcons, text_append, text_fixed, ih]
    simp only [List.mapM_cons]
    cases row.text spell with
    | error e => rfl
    | ok x =>
      cases next.text spell with
      | error e => rfl
      | ok y =>
        cases more.mapM (Row.text spell) with
        | error e => rfl
        | ok ys =>
          refine congrArg Except.ok ?_
          rw [String.intercalate_cons_cons, String.append_assoc]

end Row

/-- A printer whose text is a row with some references, however they are spelled. -/
def LaysOut (print : (Symbol String → Except Error String) → Except Error String)
    (rs : List (Reference String)) : Prop :=
  ∃ row : Row, row.references = rs ∧ ∀ spell, print spell = row.text spell

/-- The same of a printer of several texts, each of which is a row. -/
def LaysOutAll (print : (Symbol String → Except Error String) → Except Error (List String))
    (rs : List (Reference String)) : Prop :=
  ∃ rows : List Row, rows.flatMap Row.references = rs ∧
    ∀ spell, print spell = rows.mapM (Row.text spell)

section

variable {f g : (Symbol String → Except Error String) → Except Error String}
  {fs gs : (Symbol String → Except Error String) → Except Error (List String)}
  {rs rs' : List (Reference String)}

theorem laysOut_fixed (s : String) : LaysOut (fun _ => .ok s) [] :=
  ⟨[.inl s], rfl, fun _ => (Row.text_fixed s).symm⟩

theorem laysOut_reference (r : Reference String) : LaysOut (fun spell => spell r.symbol) [r] :=
  ⟨[.inr r], rfl, fun _ => (Row.text_reference r).symm⟩

theorem LaysOut.congr (hf : LaysOut f rs) (h : ∀ spell, g spell = f spell) : LaysOut g rs := by
  obtain rfl : g = f := funext h
  exact hf

theorem LaysOut.between (hf : LaysOut f rs) (opening closing : String) :
    LaysOut (fun spell => do return opening ++ (← f spell) ++ closing) rs := by
  obtain ⟨row, rfl, htext⟩ := hf
  obtain rfl : f = fun spell => row.text spell := funext htext
  refine ⟨[.inl opening] ++ row ++ [.inl closing], ?_, fun spell => ?_⟩
  · rw [Row.references_append, Row.references_append]
    exact List.append_nil row.references
  · dsimp only
    rw [Row.text_append, Row.text_append, Row.text_fixed, Row.text_fixed]
    cases row.text spell <;> rfl

theorem laysOutAll_nil : LaysOutAll (fun _ => .ok []) [] :=
  ⟨[], rfl, fun _ => rfl⟩

theorem LaysOutAll.cons (hf : LaysOut f rs) (hfs : LaysOutAll fs rs') :
    LaysOutAll (fun spell => do return (← f spell) :: (← fs spell)) (rs ++ rs') := by
  obtain ⟨row, rfl, htext⟩ := hf
  obtain ⟨rows, rfl, htexts⟩ := hfs
  obtain rfl : f = fun spell => row.text spell := funext htext
  obtain rfl : fs = fun spell => rows.mapM (Row.text spell) := funext htexts
  exact ⟨row :: rows, rfl, fun spell => List.mapM_cons.symm⟩

theorem LaysOutAll.append (hfs : LaysOutAll fs rs) (hgs : LaysOutAll gs rs') :
    LaysOutAll (fun spell => do return (← fs spell) ++ (← gs spell)) (rs ++ rs') := by
  obtain ⟨rows, rfl, htexts⟩ := hfs
  obtain ⟨rows', rfl, htexts'⟩ := hgs
  obtain rfl : fs = fun spell => rows.mapM (Row.text spell) := funext htexts
  obtain rfl : gs = fun spell => rows'.mapM (Row.text spell) := funext htexts'
  exact ⟨rows ++ rows', List.flatMap_append, fun spell => List.mapM_append.symm⟩

theorem LaysOutAll.intercalate (hfs : LaysOutAll fs rs) (separator : String) :
    LaysOut (fun spell => do return separator.intercalate (← fs spell)) rs := by
  obtain ⟨rows, rfl, htexts⟩ := hfs
  obtain rfl : fs = fun spell => rows.mapM (Row.text spell) := funext htexts
  exact ⟨Row.intercalate separator rows, Row.references_intercalate separator rows,
    fun spell => (Row.text_intercalate separator rows).symm⟩

theorem LaysOutAll.braced (hfs : LaysOutAll fs rs) :
    LaysOut (fun spell => do return Text.bracedLines (← fs spell)) rs := by
  have hlines := (hfs.intercalate "\n").between "\x7b\n" "\n\x7d"
  obtain ⟨rows, rfl, htexts⟩ := hfs
  obtain rfl : fs = fun spell => rows.mapM (Row.text spell) := funext htexts
  cases rows with
  | nil => exact laysOut_fixed "\x7b\x7d"
  | cons row rest =>
    refine hlines.congr fun spell => ?_
    simp only [List.mapM_cons]
    cases row.text spell with
    | error e => rfl
    | ok x => cases rest.mapM (Row.text spell) <;> rfl

theorem laysOutAll_references (rs : List (Reference String)) :
    LaysOutAll (fun spell => rs.mapM fun r => spell r.symbol) rs := by
  induction rs with
  | nil => exact laysOutAll_nil
  | cons r rest ih =>
    have hcons := LaysOutAll.cons (laysOut_reference r) ih
    simp only [List.mapM_cons]
    exact hcons

end

mutual

/-- A type that holds no resource is printed as a row of its references. -/
theorem TypeExpr.laysOut_print (declaration : Bool) (t : TypeExpr String)
    (h : t.holdsResource = false) :
    LaysOut (fun spell => t.print spell declaration) (t.shown declaration) := by
  cases t with
  | string | integer | float | boolean | unknown =>
    simp only [TypeExpr.print]
    exact laysOut_fixed _
  | array items =>
    simp only [TypeExpr.print]
    have hitems := TypeExpr.laysOut_print false items h
    rw [TypeExpr.shown_false] at hitems
    exact hitems.between "Array<" ">"
  | map values =>
    simp only [TypeExpr.print]
    have hvalues := TypeExpr.laysOut_print false values h
    rw [TypeExpr.shown_false] at hvalues
    exact hvalues.between "Record<string, " ">"
  | optional value =>
    simp only [TypeExpr.print]
    have hvalue := TypeExpr.laysOut_print false value h
    rw [TypeExpr.shown_false] at hvalue
    have hnull := hvalue.between "" " | null"
    simp only [String.empty_append] at hnull
    exact hnull
  | union variants =>
    simp only [TypeExpr.print]
    exact (TypeExpr.laysOut_printAll variants h).intercalate " | "
  | reference target =>
    simp only [TypeExpr.print]
    exact laysOut_reference target
  | object properties parents =>
    simp only [TypeExpr.print]
    have hbody := (Property.laysOut_printAll properties h).braced
    have hall := (laysOutAll_references (if declaration then [] else parents)).append
      (LaysOutAll.cons hbody laysOutAll_nil)
    rw [List.append_nil] at hall
    refine (hall.intercalate " & ").congr fun spell => ?_
    cases List.mapM (fun r => spell (Reference.symbol r)) (if declaration then [] else parents) with
    | error e => rfl
    | ok heads => cases Property.printAll spell properties <;> rfl
  | resource properties scope => cases h

theorem TypeExpr.laysOut_printAll (ts : List (TypeExpr String))
    (h : TypeExpr.anyHoldsResource ts = false) :
    LaysOutAll (fun spell => TypeExpr.printAll spell ts) (TypeExpr.allReferences ts) := by
  cases ts with
  | nil => exact laysOutAll_nil
  | cons t rest =>
    obtain ⟨ht, hrest⟩ := Bool.or_eq_false_iff.mp h
    have hfirst := TypeExpr.laysOut_print false t ht
    rw [TypeExpr.shown_false] at hfirst
    exact LaysOutAll.cons hfirst (TypeExpr.laysOut_printAll rest hrest)

theorem Property.laysOut_print (p : Property String) (h : p.holdsResource = false) :
    LaysOut (fun spell => p.print spell) p.references := by
  cases p with
  | mk name value required description deprecated =>
    have hvalue := TypeExpr.laysOut_print false value h
    rw [TypeExpr.shown_false] at hvalue
    let opening := Text.DocBlock.block (description.getD "") deprecated 1 ++
      ("  " ++ Text.PropertyKey.key name ++ (if required then ": " else "?: "))
    let closing := (if required || value.isOptional then "" else " | null") ++ ";"
    refine (hvalue.between opening closing).congr fun spell => ?_
    rw [Property.print]
    cases value.print spell false with
    | error e => rfl
    | ok text =>
      refine congrArg Except.ok ?_
      show opening ++ (if required || value.isOptional then text else text ++ " | null") ++ ";" =
        opening ++ text ++ closing
      simp only [closing]
      split <;> simp only [String.empty_append, String.append_assoc]

theorem Property.laysOut_printAll (ps : List (Property String))
    (h : Property.anyHoldsResource ps = false) :
    LaysOutAll (fun spell => Property.printAll spell ps) (Property.allReferences ps) := by
  cases ps with
  | nil => exact laysOutAll_nil
  | cons p rest =>
    obtain ⟨hp, hrest⟩ := Bool.or_eq_false_iff.mp h
    exact LaysOutAll.cons (Property.laysOut_print p hp) (Property.laysOut_printAll rest hrest)

end

end ApiTypes
