import ApiTypes.Proofs.Batch.Course

/-! What a run reports. The diagnostics of all files come together at the end of a run that gets
to its last source, each with its place, and the exit code says whether there were any. A run
that ends early says why it ends, and nothing of the diagnostics that its files have failed
with before. -/

namespace ApiTypes.Batch

open Files

/-! ### The text of a report -/

theorem head?_paint_append (color : Bool) (c : Char) (styles : List Style) (text rest : String)
    (h : text.toList.head? = some c) :
    (Style.paint color (.bold :: styles) text ++ rest).toList.head? =
      some (if color then '\x1b' else c) := by
  rw [Style.paint]
  cases color with
  | true =>
    have hbold : Style.bold.sequence = "\x1b[1m" := rfl
    simp [List.map_cons, String.join_cons, hbold, String.append_assoc]
  | false =>
    have hne : text.toList ≠ [] := by
      intro hnil
      rw [hnil] at h
      cases h
    simp [String.toList_append, List.head?_append, h]

theorem head?_format (d : Diagnostic) (color : Bool) :
    (d.format color).toList.head? = some (if color then '\x1b' else 'e') := by
  have hheading : (s!"error[{d.code}]").toList.head? = some 'e' := by
    simp [toString]
  rw [Diagnostic.format]
  cases d.location with
  | none => exact head?_paint_append color 'e' [.red] _ _ hheading
  | some place =>
    dsimp only
    rw [String.append_assoc, String.append_assoc, String.append_assoc]
    exact head?_paint_append color 'e' [.red] _ _ hheading

/-- Every diagnostic shows its code in brackets. -/
theorem bracket_mem_format (d : Diagnostic) (color : Bool) :
    '[' ∈ (d.format color).toList := by
  rw [Diagnostic.format]
  cases d.location <;> cases color <;> simp [Style.paint, toString]

theorem infix_intercalate {separator x : String} {xs : List String} (h : x ∈ xs) :
    x.toList <:+: (separator.intercalate xs).toList := by
  induction xs with
  | nil => cases h
  | cons y rest ih =>
    cases rest with
    | nil =>
      obtain rfl := List.mem_singleton.mp h
      simp
    | cons z more =>
      rw [String.intercalate_cons_cons, String.toList_append]
      rcases List.mem_cons.mp h with rfl | hrest
      · rw [String.toList_append, List.append_assoc]
        exact (List.prefix_append ..).isInfix
      · exact (ih hrest).trans (List.suffix_append ..).isInfix

/-- Every diagnostic stands in the report. -/
theorem infix_reportOf (env : Environment) {ds : List Diagnostic} {d : Diagnostic} (h : d ∈ ds) :
    (d.format env.colors.color).toList <:+: (reportOf env ds).toList := by
  have hne : ds.isEmpty = false := by
    cases ds with
    | nil => cases h
    | cons d' rest => rfl
  rw [reportOf, hne, if_neg Bool.false_ne_true, String.toList_append, Diagnostic.summarize]
  refine List.IsInfix.trans ?_ (List.prefix_append ..).isInfix
  exact infix_intercalate (List.mem_append_left _ (List.mem_map_of_mem h))

/-- No report begins like the line of an early end. -/
theorem line_ne_reportOf (env : Environment) (ds : List Diagnostic) {halt : Halt}
    (h : halt.stop = .exit 1) : halt.line ≠ reportOf env ds := by
  have hline : halt.line.toList.head? = some 'k' := by
    cases halt with
    | missing source => simp [toString]
    | unusable path e => simp [toString]
    | escaped f => cases h
  have hreport : (reportOf env ds).toList.head? ≠ some 'k' := by
    rw [reportOf]
    cases ds with
    | nil => simp
    | cons d rest =>
      have hd := head?_format d env.colors.color
      rw [List.isEmpty_cons, if_neg Bool.false_ne_true, Diagnostic.summarize, List.map_cons,
        List.cons_append]
      cases hr : rest.map (·.format env.colors.color) ++ _ with
      | nil => simp at hr
      | cons t more =>
        rw [String.intercalate_cons_cons, String.append_assoc, String.append_assoc,
          String.toList_append, List.head?_append, hd]
        cases env.colors.color <;> simp
  exact fun heq => hreport (heq ▸ hline)

/-- A run that answers an exit code reports every diagnostic of its files exactly if nothing
ends it early. Its error output is its log with the report behind it, and every diagnostic is
in there with its place; otherwise it is the log with the line behind it that tells what has
ended the run. Either way the exit code is one if there was a diagnostic. -/
theorem reports_iff {arguments : List String} {env : Environment} {options : CommandLine.Options}
    {tree : Tree} {code : Nat} {w : World}
    (hparse : CommandLine.parse arguments = .ok (.run options))
    (hrun : run arguments env tree = (.exit code, w)) :
    ∃ settings, Accepted arguments env options settings ∧
      let c := courseOf settings options tree
      w.reported = c.raised ∧
      (w.err = c.log ++ reportOf env c.raised ↔ c.halt? = none) ∧
      (∀ halt, c.halt? = some halt → w.err = c.log ++ halt.line) ∧
      (c.halt? = none → ∀ d ∈ c.raised, (d.format env.colors.color).toList <:+: w.err.toList) ∧
      (code = 1 ↔ c.raised ≠ [] ∨ c.halt? ≠ none) := by
  cases hsettings : Settings.ofOptions? options env with
  | none =>
    rw [run_of_noEngine hparse hsettings] at hrun
    cases hrun
  | some settings =>
    have hacc : Accepted arguments env options settings := ⟨hparse, hsettings⟩
    refine ⟨settings, hacc, ?_⟩
    intro c
    rw [run_eq hacc] at hrun
    obtain ⟨hending, rfl⟩ := Prod.mk.inj hrun
    change c.ending = .exit code at hending
    have herr : ∀ closing, c.log ++ c.closing env = c.log ++ closing ↔ c.closing env = closing :=
      fun _ => String.append_right_inj _
    cases hhalt : c.halt? with
    | none =>
      have hclosing : c.closing env = reportOf env c.raised := by rw [Course.closing, hhalt]
      have hcode : (if c.raised.isEmpty then 0 else 1) = code := by
        rw [Course.ending, hhalt] at hending
        exact Ending.exit.inj hending
      refine ⟨rfl, iff_of_true ((herr _).mpr hclosing) rfl, ?_, fun _ d hd => ?_, ?_⟩
      · rintro _ ⟨⟩
      · show _ <:+: (c.log ++ c.closing env).toList
        rw [hclosing, String.toList_append]
        exact (infix_reportOf env hd).trans (List.suffix_append ..).isInfix
      · rw [← hcode]
        cases c.raised <;> simp
    | some halt =>
      have hclosing : c.closing env = halt.line := by rw [Course.closing, hhalt]
      have hstop : halt.stop = .exit 1 ∧ code = 1 := by
        rw [Course.ending, hhalt] at hending
        cases halt with
        | escaped f => cases hending
        | missing | unusable => exact ⟨rfl, (Ending.exit.inj hending).symm⟩
      have hsome : some halt ≠ none := Option.some_ne_none halt
      refine ⟨rfl, iff_of_false (fun heq => ?_) hsome, ?_, fun h => absurd h hsome,
        by simp [hstop.2]⟩
      · exact line_ne_reportOf env c.raised hstop.1 (hclosing.symm.trans ((herr _).mp heq))
      · rintro _ ⟨⟩
        exact (herr _).mpr hclosing

/-- Two files that are no JSON, one after the other: both are reported. -/
theorem reports_iff_both :
    let arguments := ["a.json", "b.json"]
    let tree : Tree :=
      { entries := [(["a.json"], .file "".toUTF8), (["b.json"], .file "[".toUTF8)] }
    ∃ options w, CommandLine.parse arguments = .ok (.run options) ∧
      run arguments {} tree = (.exit 1, w) ∧ w.reported.length = 2 ∧
      ∃ settings, Accepted arguments {} options settings ∧
        let c := courseOf settings options tree
        w.reported = c.raised ∧
        (w.err = c.log ++ reportOf {} c.raised ↔ c.halt? = none) ∧
        (∀ halt, c.halt? = some halt → w.err = c.log ++ halt.line) ∧
        (c.halt? = none → ∀ d ∈ c.raised,
          (d.format (Environment.colors {}).color).toList <:+: w.err.toList) ∧
        (1 = 1 ↔ c.raised ≠ [] ∨ c.halt? ≠ none) := by
  intro arguments tree
  have hparse : CommandLine.parse arguments = .ok (.run { sources := arguments }) := rfl
  have haccepted : Accepted arguments {} { sources := arguments } { engine := .deno } :=
    ⟨hparse, rfl⟩
  have hrun := run_eq haccepted tree
  have hhalt : (courseOf { engine := .deno } { sources := arguments } tree).halt? = none := by
    decide
  have hraised :
      (courseOf { engine := .deno } { sources := arguments } tree).raised.length = 2 := by
    decide
  have hending : (courseOf { engine := .deno } { sources := arguments } tree).ending = .exit 1 := by
    rw [Course.ending, hhalt]
    obtain ⟨d, d', h⟩ := List.length_eq_two.mp hraised
    simp [h]
  refine ⟨_, _, hparse, hrun.trans (Prod.ext hending rfl), hraised, ?_⟩
  exact reports_iff hparse (hrun.trans (Prod.ext hending rfl))

/-- A file that is no JSON, and a source behind it that does not exist: what is wrong with the
file is collected, but it is not in the output. -/
theorem missing_source_withholds :
    let arguments := ["bad.json", "gone.json"]
    let tree : Tree := { entries := [(["bad.json"], .file "".toUTF8)] }
    ∃ options w, CommandLine.parse arguments = .ok (.run options) ∧
      run arguments {} tree = (.exit 1, w) ∧
      ∃ d ∈ w.reported, ¬ (d.format (Environment.colors {}).color).toList <:+: w.err.toList := by
  intro arguments tree
  have hparse : CommandLine.parse arguments = .ok (.run { sources := arguments }) := rfl
  have hrun : run arguments {} tree = (.exit 1, (run arguments {} tree).2) :=
    Prod.ext rfl rfl
  have hcount : (run arguments {} tree).2.reported.length = 1 := by decide
  have herr : (run arguments {} tree).2.err = "kuregen: error: file not found: gone.json\n" := by
    decide
  obtain ⟨d, hd⟩ := List.length_eq_one_iff.mp hcount
  refine ⟨_, _, hparse, hrun, d, by rw [hd]; exact List.mem_singleton_self d, fun hinfix => ?_⟩
  have hbracket : '[' ∈ (run arguments {} tree).2.err.toList :=
    hinfix.subset (bracket_mem_format d _)
  rw [herr] at hbracket
  exact absurd hbracket (by decide)

end ApiTypes.Batch
