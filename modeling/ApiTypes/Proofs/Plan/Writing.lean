import ApiTypes.Plan.Definition
import ApiTypes.Proofs.Plan.References
import ApiTypes.Proofs.Text.Segment

/-! What plans write. Once every symbol has a spelling, the text of a type can be written
in one pass over it, with its comments and literals marked, and the plan of the type
renders to that very text. A plan that renders at all renders as it does over the total
spelling that agrees with what it has read. -/

namespace ApiTypes

open Traversal

variable {ctx : Context String} {spelled : Symbol String → String}

/-- The spelling of a symbol that is given for every one. -/
def spellAs (spelled : Symbol String → String) (symbol : Symbol String) : Except Error String :=
  .ok (spelled symbol)

theorem mapM_spellAs (symbols : List (Symbol String)) :
    symbols.mapM (spellAs spelled) = .ok (symbols.map spelled) :=
  mapM_eq_ok fun _ _ => rfl

/-! ### One pass over a type -/

namespace Segment

/-- The choices of a string type. -/
def choices : Option (List String) → List Segment
  | none | some [] => [.code "string"]
  | some (c :: cs) => intercalate " | " ((c :: cs).map fun c => [quote .unicode c])

theorem text_choices (cs : Option (List String)) : text (choices cs) = choicesText cs := by
  rcases cs with _ | _ | ⟨c, cs⟩
  · exact text_code "string"
  · exact text_code "string"
  · rw [choices, text_intercalate, List.map_map, choicesText]
    congr 1
    exact List.map_congr_left fun c _ => (text_quote .unicode c).trans (Document.literal_text c).symm

/-- A block of properties, one on each line. -/
def braced (properties : List (List Segment)) : List Segment :=
  if properties.isEmpty then [.code "\x7b\x7d"]
  else .code "\x7b\n" :: (intercalate "\n" properties ++ [.code "\n\x7d"])

end Segment

variable (spelled) in
/-- The text of a reference. -/
def Reference.segments (r : Reference String) : List Segment :=
  [.code (spelled r.symbol)]

section

variable (spelled : Symbol String → String)

mutual

/-- The text of a type. -/
def TypeExpr.segments : TypeExpr String → List Segment
  | .string choices => Segment.choices choices
  | .integer => [.code "number"]
  | .float => [.code "number"]
  | .boolean => [.code "boolean"]
  | .unknown => [.code "unknown"]
  | .array items => [.code "Array<"] ++ items.segments ++ [.code ">"]
  | .map values => [.code "Record<string, "] ++ values.segments ++ [.code ">"]
  | .union variants => Segment.intercalate " | " (TypeExpr.allSegments variants)
  | .optional value => value.segments ++ [.code " | null"]
  | .reference target => target.segments spelled
  | .object properties parents =>
    Segment.intercalate " & " (parents.map (Reference.segments spelled) ++
      [Segment.braced (Property.allSegments properties)])
  | .resource .. => []

def TypeExpr.allSegments : List (TypeExpr String) → List (List Segment)
  | [] => []
  | t :: ts => t.segments :: TypeExpr.allSegments ts

/-- The text of a property. -/
def Property.segments : Property String → List Segment
  | .mk name value required description deprecated =>
    Segment.doc description deprecated 1 ++
      [.code "  ", Segment.key name, .code (if required then ": " else "?: ")] ++
      (value.segments ++ if required || value.isOptional then [] else [.code " | null"]) ++
      [.code ";"]

def Property.allSegments : List (Property String) → List (List Segment)
  | [] => []
  | p :: ps => p.segments :: Property.allSegments ps

end

end

/-! ### Plans that write segments -/

theorem literal_label (s : String) : Label.literal s = Text.Literal.literal .unicode s :=
  Document.literal_text s

namespace Plan

/-- A plan renders to the text of some segments once symbols are spelled. -/
def Writes (ctx : Context String) (spelled : Symbol String → String) (p : Plan String)
    (ss : List Segment) : Prop :=
  p.render ctx (spellAs spelled) = .ok (Segment.text ss)

variable {p q : Plan String} {ss ss' : List Segment}

theorem render_append {spell : Symbol String → Except Error String} {s t : String}
    (hp : p.render ctx spell = .ok s) (hq : q.render ctx spell = .ok t) :
    (p ++ q).render ctx spell = .ok (s ++ t) := by
  rw [render] at hp hq ⊢
  rw [pieces_append, List.mapM_append]
  cases h : p.pieces.mapM (Piece.render ctx spell) with
  | error e => rw [h] at hp; cases hp
  | ok xs =>
    cases h' : q.pieces.mapM (Piece.render ctx spell) with
    | error e => rw [h'] at hq; cases hq
    | ok ys =>
      rw [h] at hp
      rw [h'] at hq
      rw [← Except.ok.inj hp, ← Except.ok.inj hq]
      exact congrArg Except.ok String.join_append

theorem Writes.append (hp : p.Writes ctx spelled ss) (hq : q.Writes ctx spelled ss') :
    (p ++ q).Writes ctx spelled (ss ++ ss') := by
  rw [Writes, Segment.text_append]
  exact render_append hp hq

/-- Pieces write what their texts are, joined. -/
theorem writes_ofPieces (ps : List (Piece String)) (texts : List String)
    (h : ps.mapM (Piece.render ctx (spellAs spelled)) = .ok texts)
    (ht : String.join texts = Segment.text ss) : (ofPieces ps).Writes ctx spelled ss := by
  rw [Writes, render, ofPieces, h, ← ht]
  rfl

theorem writes_ofText_of {s : String} (h : s = Segment.text ss) :
    (ofText s).Writes ctx spelled ss :=
  writes_ofPieces _ [s] rfl (by rw [← h, String.join_cons, String.join_nil,
    String.append_empty])

theorem writes_ofText (s : String) : (ofText s).Writes ctx spelled [.code s] :=
  writes_ofText_of (Segment.text_code s).symm

theorem writes_empty : ({} : Plan String).Writes ctx spelled [] := rfl

theorem writes_spelling (symbol : Symbol String) :
    (spelling symbol).Writes ctx spelled [.code (spelled symbol)] :=
  writes_ofPieces _ [spelled symbol] rfl (by simp)

theorem writes_reference (r : Reference String) : r.plan.Writes ctx spelled (r.segments spelled) :=
  writes_spelling r.symbol

theorem writes_check (symbols : List (Symbol String)) : (check symbols).Writes ctx spelled [] := by
  refine writes_ofPieces _ [""] ?_ rfl
  rw [List.mapM_cons, Piece.render, mapM_spellAs]
  rfl

theorem writes_requireTexts (symbols : List (Symbol String)) :
    (requireTexts symbols).Writes ctx spelled [] := by
  refine writes_ofPieces _ [""] ?_ rfl
  rw [List.mapM_cons, Piece.render, mapM_spellAs]
  simp only [ok_bind, forM_requireText]
  rfl

theorem Writes.requireTexts (hp : p.Writes ctx spelled ss) (symbols : List (Symbol String)) :
    (p ++ requireTexts symbols).Writes ctx spelled ss := by
  have h := hp.append (writes_requireTexts symbols)
  rwa [List.append_nil] at h

theorem Writes.intercalate {ps : List (Plan String)} {sss : List (List Segment)}
    (h : List.Forall₂ (Writes ctx spelled) ps sss) (separator : String) :
    (intercalate separator ps).Writes ctx spelled (Segment.intercalate separator sss) := by
  induction h with
  | nil => exact writes_empty
  | cons hp hrest ih =>
    cases hrest with
    | nil => exact hp
    | cons hq hmore =>
      have hwrites := (hp.append (writes_ofText separator)).append ih
      rwa [List.append_assoc] at hwrites

theorem writes_braced {ps : List (Plan String)} {sss : List (List Segment)}
    (h : List.Forall₂ (Writes ctx spelled) ps sss) :
    (braced ps).Writes ctx spelled (Segment.braced sss) := by
  have hi := Writes.intercalate h "\n"
  cases h with
  | nil => exact writes_ofText "\x7b\x7d"
  | cons hp hrest => exact ((writes_ofText "\x7b\n").append hi).append (writes_ofText "\n\x7d")

theorem writes_doc (description : Option String) (deprecated : Bool) (indent : Nat) :
    (doc description deprecated indent).Writes ctx spelled
      (Segment.doc description deprecated indent) := by
  rw [doc, Segment.ofLabel_eq]
  exact writes_ofText_of rfl

/-- A plan that renders over some spellings renders to what it writes over a total spelling
that agrees with them. -/
theorem Writes.text_eq {spell : Symbol String → Except Error String}
    (hw : p.Writes ctx spelled ss) (hs : ∀ symbol x, spell symbol = .ok x → x = spelled symbol)
    {text : String} (h : p.render ctx spell = .ok text) : text = Segment.text ss := by
  have hspell : ∀ symbol x, spell symbol = .ok x → spellAs spelled symbol = .ok x :=
    fun symbol x hx => by rw [spellAs, hs symbol x hx]
  have hpiece : ∀ piece t, Piece.render ctx spell piece = .ok t →
      Piece.render ctx (spellAs spelled) piece = .ok t := by
    intro piece t ht
    cases piece with
    | text s => exact ht
    | spelling symbol =>
      rw [Piece.render] at ht ⊢
      cases hx : spell symbol with
      | error e => rw [hx] at ht; cases ht
      | ok x => rwa [hspell symbol x hx, ← hx]
    | computed symbols f =>
      rw [Piece.render] at ht ⊢
      cases hx : symbols.mapM spell with
      | error e => rw [hx] at ht; cases ht
      | ok xs => rwa [mapM_of_imp (fun symbol _ => hspell symbol) hx, ← hx]
  rw [render] at h
  cases hx : p.pieces.mapM (Piece.render ctx spell) with
  | error e => rw [hx] at h; cases h
  | ok texts =>
    have hr : p.render ctx (spellAs spelled) = .ok text := by
      rw [render, mapM_of_imp (fun piece _ => hpiece piece) hx, ← h, hx]
    exact Except.ok.inj (hr.symm.trans hw)

/-- The same for plans one after the other. -/
theorem texts_eq_of_writes {spell : Symbol String → Except Error String} {ps : List (Plan String)}
    {sss : List (List Segment)} (hw : List.Forall₂ (Writes ctx spelled) ps sss)
    (hs : ∀ symbol x, spell symbol = .ok x → x = spelled symbol) {texts : List String}
    (h : ps.mapM (render ctx spell) = .ok texts) : texts = sss.map Segment.text := by
  induction hw generalizing texts with
  | nil => exact (Except.ok.inj h).symm
  | @cons p ss ps sss hp _ ih =>
    rw [List.mapM_cons] at h
    cases ht : p.render ctx spell with
    | error e => rw [ht] at h; cases h
    | ok text =>
      cases hr : ps.mapM (render ctx spell) with
      | error e => rw [ht, hr] at h; cases h
      | ok rest =>
        rw [ht, hr] at h
        rw [← Except.ok.inj h, List.map_cons, ih hr, hp.text_eq hs ht]

end Plan

open Plan

theorem writes_parents (parents : List (Reference String)) {body : Plan String} {ss : List Segment}
    (h : body.Writes ctx spelled ss) :
    (intercalate " & " (parents.map Reference.plan ++ [body])).Writes ctx spelled
      (Segment.intercalate " & " (parents.map (Reference.segments spelled) ++ [ss])) := by
  refine Writes.intercalate (List.rel_append ?_ (.cons h .nil)) " & "
  rw [List.forall₂_map_left_iff, List.forall₂_map_right_iff, List.forall₂_same]
  exact fun r _ => writes_reference r

section

variable (ctx spelled)

mutual

theorem TypeExpr.plan_writes (t : TypeExpr String) :
    Yields (nested? t.holdsResource) (fun p => p.Writes ctx spelled (t.segments spelled))
      (t.plan false) := by
  cases t with
  | string choices =>
    rw [TypeExpr.plan, TypeExpr.segments]
    exact yields_ok (writes_ofText_of (Segment.text_choices choices).symm)
  | integer | float | boolean | unknown =>
    rw [TypeExpr.plan, TypeExpr.segments]
    exact yields_ok (writes_ofText _)
  | array items =>
    rw [TypeExpr.plan, TypeExpr.segments]
    refine (TypeExpr.plan_writes items).map fun p hp => ?_
    exact ((writes_ofText _).append hp).append (writes_ofText _)
  | map values =>
    rw [TypeExpr.plan, TypeExpr.segments]
    refine (TypeExpr.plan_writes values).map fun p hp => ?_
    exact ((writes_ofText _).append hp).append (writes_ofText _)
  | optional value =>
    rw [TypeExpr.plan, TypeExpr.segments]
    exact (TypeExpr.plan_writes value).map fun p hp => hp.append (writes_ofText _)
  | union variants =>
    rw [TypeExpr.plan, TypeExpr.segments]
    exact (TypeExpr.plans_write variants).map fun ps hps =>
      (Writes.intercalate hps " | ").requireTexts _
  | reference target =>
    rw [TypeExpr.plan, TypeExpr.segments]
    exact yields_ok (writes_reference target)
  | object properties parents =>
    rw [TypeExpr.plan, TypeExpr.segments]
    refine (Property.plans_write properties).map fun ps hps => ?_
    exact (writes_parents parents (writes_braced hps)).requireTexts _
  | resource properties scope =>
    rw [TypeExpr.plan]
    rfl

theorem TypeExpr.plans_write (ts : List (TypeExpr String)) :
    Yields (nested? (TypeExpr.anyHoldsResource ts))
      (fun ps => List.Forall₂ (Writes ctx spelled) ps (TypeExpr.allSegments spelled ts))
      (TypeExpr.plans ts) := by
  cases ts with
  | nil =>
    rw [TypeExpr.plans, TypeExpr.allSegments]
    exact yields_ok .nil
  | cons t rest =>
    rw [TypeExpr.plans, TypeExpr.anyHoldsResource, ← nested?_or, TypeExpr.allSegments]
    exact (TypeExpr.plan_writes t).bind fun p hp =>
      (TypeExpr.plans_write rest).map fun ps hps => .cons hp hps

theorem Property.plan_writes (p : Property String) :
    Yields (nested? p.holdsResource) (fun plan => plan.Writes ctx spelled (p.segments spelled))
      p.plan := by
  cases p with
  | mk name value required description deprecated =>
    rw [Property.plan, Property.segments]
    have hkey : Text.PropertyKey.ofLabel name = .ok (Text.PropertyKey.key name) := rfl
    rw [hkey, ok_bind]
    refine (TypeExpr.plan_writes value).map fun body hb => ?_
    have hbody : (if required || value.isOptional then body else body ++ .ofText " | null").Writes
        ctx spelled (value.segments spelled ++
          if required || value.isOptional then [] else [.code " | null"]) := by
      split
      next => rwa [List.append_nil]
      next => exact hb.append (writes_ofText _)
    have hhead : (ofText ("  " ++ Text.PropertyKey.key name ++
        (if required then ": " else "?: "))).Writes ctx spelled
          [.code "  ", Segment.key name, .code (if required then ": " else "?: ")] :=
      writes_ofText_of (by simp [String.append_assoc])
    exact (((writes_doc description deprecated 1).append hhead).append hbody).append
      (writes_ofText _)

theorem Property.plans_write (ps : List (Property String)) :
    Yields (nested? (Property.anyHoldsResource ps))
      (fun plans => List.Forall₂ (Writes ctx spelled) plans (Property.allSegments spelled ps))
      (Property.plans ps) := by
  cases ps with
  | nil =>
    rw [Property.plans, Property.allSegments]
    exact yields_ok .nil
  | cons p rest =>
    rw [Property.plans, Property.anyHoldsResource, ← nested?_or, Property.allSegments]
    exact (Property.plan_writes p).bind fun plan hp =>
      (Property.plans_write rest).map fun plans hps => .cons hp hps

end

end

end ApiTypes
