import Remap.Proofs.LineRuns

/-!
The error policies side by side.  A policy only decides what becomes of a message that cannot be
mapped: it stops the run, or the message is dropped, or it is passed on as it was.  So the three
policies run alike up to the first such message, and two of them go on alike after it.
-/

namespace Remap

variable {ε : Type} [Language ε] (runner : Runner ε)

namespace Runner

/-- The runner under another policy. -/
def withPolicy (policy : ErrorPolicy) : Runner ε :=
  { runner with policy }

/-- The message cannot be mapped. -/
def fails (text : List Char) : Bool :=
  match runner.mapText text with
  | .ok _ => false
  | .error _ => true

/-- The line of output that stands for a message that is not dropped: the mapped part or else the
message as it came, without metadata. -/
def delivery (text : List Char) : List Char :=
  match runner.mapText text with
  | .ok part => runner.render part
  | .error _ => runner.render (.ofContent (Utf8.encode text))

section

variable {runner} {text : List Char} {policy : ErrorPolicy}

theorem fateOfText_of_maps (hvisible : isBlankText text = false) (h : runner.fails text = false) :
    (runner.withPolicy policy).fateOfText text = .mapped (runner.delivery text) := by
  rw [fateOfText, hvisible]
  have hsame : (runner.withPolicy policy).mapText text = runner.mapText text := rfl
  rw [fails] at h
  cases hmap : runner.mapText text with
  | error error => simp [hmap] at h
  | ok part =>
      simp only [Bool.false_eq_true, ↓reduceIte, hsame, hmap, delivery]
      rfl

/-- What each policy does with a message that cannot be mapped. -/
theorem exists_fateOfText_of_fails (hvisible : isBlankText text = false)
    (h : runner.fails text = true) :
    ∃ error, runner.mapText text = .error error ∧
      (runner.withPolicy .fail).fateOfText text = .refused error ∧
      (runner.withPolicy .skip).fateOfText text = .skipped error ∧
      (runner.withPolicy .passthrough).fateOfText text =
        .passedThrough (runner.delivery text) error := by
  have hsame (policy : ErrorPolicy) : (runner.withPolicy policy).mapText text = runner.mapText text :=
    rfl
  rw [fails] at h
  cases hmap : runner.mapText text with
  | ok part => simp [hmap] at h
  | error error =>
      refine ⟨error, rfl, ?_, ?_, ?_⟩ <;>
        simp only [fateOfText, hvisible, Bool.false_eq_true, ↓reduceIte, hsame, hmap, delivery] <;>
        rfl

end

section

variable {runner} {input line : Bytes} {lines : List Bytes} {policy : ErrorPolicy}

/-- A line of a text is blank or a message. -/
theorem lineText_mem_messages (hline : line ∈ splitLines input)
    (hvisible : isBlankText (lineText line) = false) : lineText line ∈ messages input := by
  rw [messages, List.mem_filter]
  exact ⟨List.mem_map_of_mem hline, by simp [hvisible]⟩

/-- Runners under which the same becomes of each line run alike. -/
theorem runLines_congr {other : Runner ε} (h : ∀ line ∈ lines, runner.fate line = other.fate line)
    (number : Nat) : runner.runLines number lines = other.runLines number lines := by
  induction lines generalizing number with
  | nil => rfl
  | cons line rest ih =>
      rw [List.forall_mem_cons] at h
      rw [runLines, runLines, h.1, ih h.2]

/-- No policy matters to a line that is blank or can be mapped. -/
theorem fate_withPolicy (htext : IsText input) (hline : line ∈ splitLines input)
    (h : isBlankText (lineText line) = true ∨ runner.fails (lineText line) = false)
    (first second : ErrorPolicy) :
    (runner.withPolicy first).fate line = (runner.withPolicy second).fate line := by
  rw [fate_eq_fateOfText htext hline, fate_eq_fateOfText htext hline]
  cases hvisible : isBlankText (lineText line) with
  | true => rw [fateOfText_of_blank hvisible, fateOfText_of_blank hvisible]
  | false =>
      have hmaps := h.resolve_left (by simp [hvisible])
      rw [fateOfText_of_maps hvisible hmaps, fateOfText_of_maps hvisible hmaps]

theorem proceeds_of_maps (htext : IsText input) (hline : line ∈ splitLines input)
    (h : isBlankText (lineText line) = true ∨ runner.fails (lineText line) = false) :
    ((runner.withPolicy policy).fate line).proceeds = true := by
  rw [fate_eq_fateOfText htext hline]
  cases hvisible : isBlankText (lineText line) with
  | true => rw [fateOfText_of_blank hvisible]; rfl
  | false => rw [fateOfText_of_maps hvisible (h.resolve_left (by simp [hvisible]))]; rfl

/-- Only the policy to fail stops a run over a text. -/
theorem failure_run_eq_none (htext : IsText input) (hpolicy : policy ≠ .fail) :
    ((runner.withPolicy policy).run input).failure = none := by
  rw [run, failure_runLines_eq_none_iff]
  intro line hline
  cases hvisible : isBlankText (lineText line) with
  | true => exact proceeds_of_maps htext hline (.inl hvisible)
  | false =>
      cases hfails : runner.fails (lineText line) with
      | false => exact proceeds_of_maps htext hline (.inr hfails)
      | true =>
          obtain ⟨error, -, -, hskip, hpass⟩ := exists_fateOfText_of_fails hvisible hfails
          rw [fate_eq_fateOfText htext hline]
          cases policy with
          | fail => exact absurd rfl hpolicy
          | skip => rw [hskip]; rfl
          | passthrough => rw [hpass]; rfl

end

section

variable {runner} {policy : ErrorPolicy} {texts : List (List Char)}

/-- Passing on delivers every message. -/
theorem filterMap_passthrough (h : ∀ text ∈ texts, isBlankText text = false) :
    texts.filterMap (fun text => ((runner.withPolicy .passthrough).fateOfText text).output?) =
      texts.map runner.delivery := by
  induction texts with
  | nil => rfl
  | cons text texts ih =>
      rw [List.forall_mem_cons] at h
      rw [List.filterMap_cons, ih h.2, List.map_cons]
      cases hfails : runner.fails text with
      | false => rw [fateOfText_of_maps h.1 hfails]; rfl
      | true =>
          obtain ⟨error, -, -, -, hpass⟩ := exists_fateOfText_of_fails h.1 hfails
          rw [hpass]
          rfl

/-- Skipping delivers the messages that can be mapped. -/
theorem filterMap_skip (h : ∀ text ∈ texts, isBlankText text = false) :
    texts.filterMap (fun text => ((runner.withPolicy .skip).fateOfText text).output?) =
      (texts.filter fun text => !runner.fails text).map runner.delivery := by
  induction texts with
  | nil => rfl
  | cons text texts ih =>
      rw [List.forall_mem_cons] at h
      rw [List.filterMap_cons, ih h.2, List.filter_cons]
      cases hfails : runner.fails text with
      | false => rw [fateOfText_of_maps h.1 hfails]; rfl
      | true =>
          obtain ⟨error, -, -, hskip, -⟩ := exists_fateOfText_of_fails h.1 hfails
          rw [hskip]
          rfl

/-- The messages that can be mapped count as mapped, the others as the policy says. -/
theorem ofFates_withPolicy (h : ∀ text ∈ texts, isBlankText text = false)
    (hpolicy : policy ≠ .fail) :
    RunStats.ofFates (texts.map (runner.withPolicy policy).fateOfText) =
      ⟨texts.countP fun text => !runner.fails text,
        if policy = .skip then texts.countP runner.fails else 0,
        if policy = .skip then 0 else texts.countP runner.fails⟩ := by
  induction texts with
  | nil => simp [RunStats.ofFates]
  | cons text texts ih =>
      rw [List.forall_mem_cons] at h
      rw [List.map_cons, ← List.singleton_append, RunStats.ofFates_append, ih h.2]
      cases hfails : runner.fails text with
      | false =>
          rw [fateOfText_of_maps h.1 hfails]
          simp [RunStats.add, RunStats.ofFates, Fate.isMapped, Fate.isSkipped,
            Fate.isPassedThrough, hfails, Nat.add_comm]
      | true =>
          obtain ⟨error, -, -, hskip, hpass⟩ := exists_fateOfText_of_fails h.1 hfails
          cases policy with
          | fail => exact absurd rfl hpolicy
          | skip =>
              simp [hskip, RunStats.add, RunStats.ofFates, Fate.isMapped, Fate.isSkipped,
                Fate.isPassedThrough, hfails, Nat.add_comm]
          | passthrough =>
              simp [hpass, RunStats.add, RunStats.ofFates, Fate.isMapped, Fate.isSkipped,
                Fate.isPassedThrough, hfails, Nat.add_comm]

end

/-- A run ends at the first line that is refused, with the number of that line. -/
theorem runLines_of_refused {earlier : List Bytes} {line : Bytes} {error : RunError}
    (hearlier : ∀ other ∈ earlier, (runner.fate other).proceeds = true)
    (hline : runner.fate line = .refused error) (later : List Bytes) (number : Nat) :
    (runner.runLines number (earlier ++ line :: later)).failure =
        some (.message (number + earlier.length) error) ∧
      (runner.runLines number (earlier ++ line :: later)).lines =
        (earlier.map runner.fate).filterMap Fate.output? := by
  constructor
  · induction earlier generalizing number with
    | nil => simp only [List.nil_append, runLines, hline, Fate.stop?]; rfl
    | cons first earlier ih =>
        rw [List.forall_mem_cons] at hearlier
        rw [List.cons_append, runLines, Fate.stop?_eq_none_iff.mpr hearlier.1]
        simp only [failure_record, ih hearlier.2, List.length_cons]
        rw [Nat.add_right_comm, Nat.add_assoc]
  · have hstops : runner.fates (line :: later) = [] := by
      simp [fates, hline, Fate.proceeds]
    rw [lines_runLines, runner.fates_append hearlier, hstops, List.append_nil]

variable {runner} {input : Bytes}

/-- The first line with a message that cannot be mapped. -/
theorem exists_first_failing (h : ∃ text ∈ messages input, runner.fails text = true) :
    ∃ earlier line later, splitLines input = earlier ++ line :: later ∧
      (∀ other ∈ earlier,
        isBlankText (lineText other) = true ∨ runner.fails (lineText other) = false) ∧
      isBlankText (lineText line) = false ∧ runner.fails (lineText line) = true := by
  obtain ⟨text, hmessage, hfails⟩ := h
  rw [messages, List.mem_filter, List.mem_map] at hmessage
  obtain ⟨⟨line, hline, rfl⟩, hvisible⟩ := hmessage
  let stops (line : Bytes) := !isBlankText (lineText line) && runner.fails (lineText line)
  have hfound : ((splitLines input).find? stops).isSome := by
    rw [List.find?_isSome]
    exact ⟨line, hline, by simp only [stops, hvisible, hfails, Bool.and_self]⟩
  obtain ⟨first, hfirst⟩ := Option.isSome_iff_exists.mp hfound
  obtain ⟨hstops, earlier, later, hsplit, hearlier⟩ := List.find?_eq_some_iff_append.mp hfirst
  rw [Bool.and_eq_true, Bool.not_eq_true'] at hstops
  refine ⟨earlier, first, later, hsplit, fun other hother => ?_, hstops⟩
  have hpasses := hearlier other hother
  rw [Bool.not_eq_true', Bool.and_eq_false_iff, Bool.not_eq_false'] at hpasses
  exact hpasses

/-- The lines of the lines before another line. -/
theorem splitLines_flatten_earlier {earlier later : List Bytes} {line : Bytes}
    (hsplit : splitLines input = earlier ++ line :: later) :
    splitLines earlier.flatten = earlier := by
  have hlines := splitLines_flatten (isLine_of_splitLines hsplit) []
  rwa [List.append_nil, splitLines, List.append_nil] at hlines

/-- Under the policy to fail a run over a text stops at the first message that cannot be mapped,
after what skipping writes for the lines before it. -/
theorem run_fail {earlier later : List Bytes} {line : Bytes} (htext : IsText input)
    (hsplit : splitLines input = earlier ++ line :: later)
    (hearlier : ∀ other ∈ earlier,
      isBlankText (lineText other) = true ∨ runner.fails (lineText other) = false)
    (hvisible : isBlankText (lineText line) = false)
    (hfails : runner.fails (lineText line) = true) :
    ∃ error, runner.mapText (lineText line) = .error error ∧
      ((runner.withPolicy .fail).run input).failure =
        some (.message (earlier.length + 1) error) ∧
      ((runner.withPolicy .fail).run input).lines =
        ((runner.withPolicy .skip).run earlier.flatten).lines := by
  have hmem (other : Bytes) (h : other ∈ earlier) : other ∈ splitLines input := by
    rw [hsplit]
    exact List.mem_append_left _ h
  have hline : line ∈ splitLines input := by simp [hsplit]
  have hproceeds (policy : ErrorPolicy) :
      ∀ other ∈ earlier, ((runner.withPolicy policy).fate other).proceeds = true :=
    fun other h => proceeds_of_maps htext (hmem other h) (hearlier other h)
  obtain ⟨error, hmap, hrefused, -, -⟩ := exists_fateOfText_of_fails hvisible hfails
  rw [← fate_eq_fateOfText htext hline] at hrefused
  obtain ⟨hfailure, hlines⟩ :=
    (runner.withPolicy .fail).runLines_of_refused (hproceeds .fail) hrefused later 1
  refine ⟨error, hmap, ?_, ?_⟩
  · rw [run, hsplit, hfailure, Nat.add_comm]
  · rw [run, hsplit, hlines, run, splitLines_flatten_earlier hsplit, lines_runLines,
      fates_of_proceeds _ (hproceeds .skip)]
    congr 1
    exact List.map_congr_left fun other h =>
      fate_withPolicy htext (hmem other h) (hearlier other h) .fail .skip

/-- If every message of a text can be mapped, the three policies run alike and to the end.  In
general passing on and skipping run to the end and map the same messages; what one passes on the
other drops, and the output of skipping is the output of passing on without the lines of the
messages that cannot be mapped, each of which is the message with no metadata.  If there is such a
message, failing stops at the first one, names its line and has written what skipping writes for the
lines before it. -/
theorem run_policies (runner : Runner ε) (input : Bytes) (htext : IsText input) :
    ((∀ text ∈ messages input, runner.fails text = false) →
      ((runner.withPolicy .skip).run input).failure = none ∧
        ∀ policy, (runner.withPolicy policy).run input = (runner.withPolicy .skip).run input) ∧
    (((runner.withPolicy .passthrough).run input).failure = none ∧
      ((runner.withPolicy .skip).run input).failure = none ∧
      ((runner.withPolicy .passthrough).run input).stats.mapped =
        ((runner.withPolicy .skip).run input).stats.mapped ∧
      ((runner.withPolicy .passthrough).run input).stats.passedThrough =
        ((runner.withPolicy .skip).run input).stats.skipped ∧
      ((runner.withPolicy .passthrough).run input).lines =
        (messages input).map runner.delivery ∧
      ((runner.withPolicy .skip).run input).lines =
        ((messages input).filter fun text => !runner.fails text).map runner.delivery ∧
      ∀ text ∈ messages input, runner.fails text = true →
        runner.delivery text = runner.render ⟨Utf8.encode text, .empty⟩) ∧
    ((∃ text ∈ messages input, runner.fails text = true) →
      ∃ earlier line later error, splitLines input = earlier ++ line :: later ∧
        (∀ other ∈ earlier,
          isBlankText (lineText other) = true ∨ runner.fails (lineText other) = false) ∧
        isBlankText (lineText line) = false ∧
        runner.mapText (lineText line) = .error error ∧
        ((runner.withPolicy .fail).run input).failure =
          some (.message (earlier.length + 1) error) ∧
        ((runner.withPolicy .fail).run input).output =
          ((runner.withPolicy .skip).run earlier.flatten).output) := by
  have hskips : ((runner.withPolicy .skip).run input).failure = none :=
    failure_run_eq_none htext nofun
  have hpasses : ((runner.withPolicy .passthrough).run input).failure = none :=
    failure_run_eq_none htext nofun
  have hvisible : ∀ text ∈ messages input, isBlankText text = false :=
    fun text h => (fillsLine_of_mem_messages htext h).not_blank
  refine ⟨fun hmaps => ⟨hskips, fun policy => ?_⟩, ?_, fun hfails => ?_⟩
  · refine runLines_congr (fun line hline => ?_) 1
    refine fate_withPolicy htext hline ?_ policy .skip
    cases hblank : isBlankText (lineText line) with
    | true => exact .inl rfl
    | false => exact .inr (hmaps _ (lineText_mem_messages hline hblank))
  · have hpassed : RunStats.ofFates
        ((messages input).map (runner.withPolicy .passthrough).fateOfText) = ⟨_, 0, _⟩ :=
      ofFates_withPolicy hvisible nofun
    have hskipped : RunStats.ofFates
        ((messages input).map (runner.withPolicy .skip).fateOfText) = ⟨_, _, 0⟩ :=
      ofFates_withPolicy hvisible nofun
    refine ⟨hpasses, hskips, ?_, ?_, ?_, ?_, fun text _ hfails => ?_⟩
    · rw [stats_run htext hpasses, stats_run htext hskips, hpassed, hskipped]
    · rw [stats_run htext hpasses, stats_run htext hskips, hpassed, hskipped]
      rfl
    · rw [lines_run htext hpasses, filterMap_passthrough hvisible]
    · rw [lines_run htext hskips, filterMap_skip hvisible]
    · rw [fails] at hfails
      rw [delivery]
      split at hfails
      · cases hfails
      · rfl
  · obtain ⟨earlier, line, later, hsplit, hearlier, hshown, hfirst⟩ := exists_first_failing hfails
    obtain ⟨error, hmap, hfailure, hlines⟩ := run_fail htext hsplit hearlier hshown hfirst
    refine ⟨earlier, line, later, error, hsplit, hearlier, hshown, hmap, hfailure, ?_⟩
    rw [RunReport.output, hlines, RunReport.output]

/-- The third line is the second message and no document; it is passed on without the metadata that
was written before this was noticed. -/
theorem run_policies_of_mixed :
    IsText (mixedFront ++ lineFeed :: mixedRest) ∧
      messages (mixedFront ++ lineFeed :: mixedRest) = ["[1\t]".toList, "x".toList, "2".toList] ∧
      ((keepsText.withPolicy .passthrough).run (mixedFront ++ lineFeed :: mixedRest)).lines =
        ["[1\t]".toList, "x".toList, "2".toList].map keepsText.delivery ∧
      ((keepsText.withPolicy .skip).run (mixedFront ++ lineFeed :: mixedRest)).lines =
        ["[1\t]".toList, "2".toList].map keepsText.delivery ∧
      keepsText.delivery "x".toList =
        "\x7b\"content\":\"x\",\"metadata\":\x7b\x7d\x7d".toList ∧
      (∃ (earlier : List Bytes) (error : RunError), earlier.length = 2 ∧
        ((keepsText.withPolicy .fail).run (mixedFront ++ lineFeed :: mixedRest)).failure =
          some (.message 3 error) ∧
        ((keepsText.withPolicy .fail).run (mixedFront ++ lineFeed :: mixedRest)).output =
          ((keepsText.withPolicy .skip).run earlier.flatten).output) ∧
      (keepsText.withPolicy .fail).run mixedRest = (keepsText.withPolicy .skip).run mixedRest := by
  have hmessages : messages (mixedFront ++ lineFeed :: mixedRest) =
      ["[1\t]".toList, "x".toList, "2".toList] := by decide +kernel
  have hfails : keepsText.fails "x".toList = true := by decide +kernel
  have hskipped : ["[1\t]".toList, "x".toList, "2".toList].filter
      (fun text => !keepsText.fails text) = ["[1\t]".toList, "2".toList] := by decide +kernel
  obtain ⟨-, ⟨-, -, -, -, hpasses, hskips, hbare⟩, hstops⟩ :=
    run_policies keepsText (mixedFront ++ lineFeed :: mixedRest) isText_mixed
  rw [hmessages] at hpasses hskips hbare hstops
  rw [hskipped] at hskips
  obtain ⟨earlier, line, later, error, hsplit, -, -, -, hfailure, houtput⟩ :=
    hstops ⟨"x".toList, by simp, hfails⟩
  -- The number of the line is the one that the run reports.
  have hthird : earlier.length = 2 := by
    have hreported : ((keepsText.withPolicy .fail).run
        (mixedFront ++ lineFeed :: mixedRest)).failure.map
          (StreamError.rec (motive := fun _ => Nat) (fun number _ => number) fun _ => 0) = some 3 := by decide +kernel
    rw [hfailure] at hreported
    exact Nat.succ.inj (Option.some.inj hreported)
  rw [hthird] at hfailure
  have hrest : IsText mixedRest := by
    have hlines : splitLines mixedRest = [Utf8.encode "2".toList] := by decide +kernel
    rw [IsText, hlines]
    exact List.forall_mem_singleton.mpr ⟨"2".toList, by decide +kernel⟩
  obtain ⟨hagree, -, -⟩ := run_policies keepsText mixedRest hrest
  have hmaps : ∀ text ∈ messages mixedRest, keepsText.fails text = false := by
    have honly : messages mixedRest = ["2".toList] := by decide +kernel
    rw [honly]
    exact List.forall_mem_singleton.mpr (by decide +kernel)
  exact ⟨isText_mixed, hmessages, hpasses, hskips,
    (hbare _ (by simp) hfails).trans (by decide +kernel),
    ⟨earlier, error, hthird, hfailure, houtput⟩, (hagree hmaps).2 .fail⟩

end Runner

end Remap
