import Remap.Proofs.Commit
import Remap.Proofs.InputLines
import Remap.Proofs.PrintedText
import Remap.Stream.Runner

/-!
Runs over lines.  What becomes of a line depends on that line alone, a run adds up what becomes of
its lines until one stops it, and each message that is mapped or passed through is one line of the
output: neither the text of a line nor a committed document has a line feed in it or is blank.
-/

namespace Remap

/-- Every line is UTF-8 without its end. -/
def IsText (input : Bytes) : Prop :=
  ∀ line ∈ splitLines input, ∃ text, dropLineEnd line = Utf8.encode text

/-- What a line says. -/
def lineText (line : Bytes) : List Char :=
  Utf8.decodeLossy (dropLineEnd line)

/-- The messages of an input, which are the texts of its lines that are not blank. -/
def messages (input : Bytes) : List (List Char) :=
  ((splitLines input).map lineText).filter fun text => !isBlankText text

/-- The line of output that a line of input becomes, if it becomes one. -/
def Fate.output? : Fate → Option (List Char)
  | .mapped output | .passedThrough output _ => some output
  | .blank | .skipped _ | .refused _ | .notText _ => none

/-- Whether a run goes on after a line. -/
def Fate.proceeds : Fate → Bool
  | .refused _ | .notText _ => false
  | .blank | .mapped _ | .skipped _ | .passedThrough _ _ => true

theorem Fate.stop?_eq_none_iff {fate : Fate} {number : Nat} :
    fate.stop? number = none ↔ fate.proceeds = true := by
  cases fate <;> simp [stop?, proceeds]

def Fate.isMapped : Fate → Bool
  | .mapped _ => true
  | _ => false

def Fate.isSkipped : Fate → Bool
  | .skipped _ => true
  | _ => false

def Fate.isPassedThrough : Fate → Bool
  | .passedThrough _ _ => true
  | _ => false

namespace RunStats

/-- How many of these lines were mapped, dropped and passed on. -/
def ofFates (fates : List Fate) : RunStats where
  mapped := fates.countP Fate.isMapped
  skipped := fates.countP Fate.isSkipped
  passedThrough := fates.countP Fate.isPassedThrough

def add (first second : RunStats) : RunStats where
  mapped := first.mapped + second.mapped
  skipped := first.skipped + second.skipped
  passedThrough := first.passedThrough + second.passedThrough

theorem ofFates_append (first second : List Fate) :
    ofFates (first ++ second) = (ofFates first).add (ofFates second) := by
  simp only [ofFates, add, List.countP_append]

/-- A line of output is one of a message that was mapped or passed on. -/
theorem written_ofFates (fates : List Fate) :
    (ofFates fates).mapped + (ofFates fates).passedThrough =
      (fates.filterMap Fate.output?).length := by
  induction fates with
  | nil => rfl
  | cons fate fates ih =>
      simp only [ofFates] at ih
      cases fate <;>
        simp only [ofFates, List.countP_cons, List.filterMap_cons, Fate.isMapped,
          Fate.isPassedThrough, Fate.output?, List.length_cons, Bool.false_eq_true, ↓reduceIte] <;>
        omega

/-- Every message counts once. -/
theorem total_ofFates {fates : List Fate}
    (h : ∀ fate ∈ fates, fate ≠ .blank ∧ fate.proceeds = true) :
    (ofFates fates).mapped + (ofFates fates).skipped + (ofFates fates).passedThrough =
      fates.length := by
  induction fates with
  | nil => rfl
  | cons fate fates ih =>
      rw [List.forall_mem_cons] at h
      have hrest := ih h.2
      obtain ⟨hblank, hproceeds⟩ := h.1
      simp only [ofFates] at hrest
      cases fate with
      | blank => exact absurd rfl hblank
      | refused _ | notText _ => cases hproceeds
      | mapped _ | skipped _ | passedThrough _ _ =>
          simp only [ofFates, List.countP_cons, Fate.isMapped, Fate.isSkipped,
            Fate.isPassedThrough, List.length_cons, Bool.false_eq_true, ↓reduceIte]
          omega

end RunStats

namespace Runner

variable {ε : Type} [Language ε] (runner : Runner ε)

theorem lines_record (number : Nat) (fate : Fate) (later : RunReport) :
    (record number fate later).lines = fate.output?.toList ++ later.lines := by
  cases fate <;> rfl

theorem stats_record {fates : List Fate} {later : RunReport} (h : later.stats = .ofFates fates)
    (number : Nat) (fate : Fate) :
    (record number fate later).stats = .ofFates (fate :: fates) := by
  cases fate <;>
    simp [record, h, RunStats.ofFates, List.countP_cons, Fate.isMapped, Fate.isSkipped,
      Fate.isPassedThrough]

theorem failure_record (number : Nat) (fate : Fate) (later : RunReport) :
    (record number fate later).failure = later.failure := by
  cases fate <;> rfl

/-- What becomes of lines up to the first that stops the run. -/
def fates (lines : List Bytes) : List Fate :=
  (lines.map runner.fate).takeWhile Fate.proceeds

variable (number : Nat) (lines : List Bytes)

/-- A run over lines begins with its first line, or ends there. -/
theorem runLines_cons (line : Bytes) (rest : List Bytes) :
    ((runner.fate line).proceeds = true ∧ runner.fates (line :: rest) = runner.fate line :: runner.fates rest ∧
      runner.runLines number (line :: rest) =
        record number (runner.fate line) (runner.runLines (number + 1) rest)) ∨
    ((runner.fate line).proceeds = false ∧ runner.fates (line :: rest) = [] ∧
      ∃ error, (runner.fate line).stop? number = some error ∧
        runner.runLines number (line :: rest) = .stopped error) := by
  rw [runLines]
  cases hstop : (runner.fate line).stop? number with
  | none =>
      have hproceeds := Fate.stop?_eq_none_iff.mp hstop
      exact .inl ⟨hproceeds, by simp [fates, hproceeds], rfl⟩
  | some error =>
      have hstops : (runner.fate line).proceeds = false := by
        refine Bool.eq_false_iff.mpr fun hproceeds => ?_
        rw [Fate.stop?_eq_none_iff.mpr hproceeds] at hstop
        cases hstop
      exact .inr ⟨hstops, by simp [fates, hstops], error, rfl, rfl⟩

theorem lines_runLines :
    (runner.runLines number lines).lines = (runner.fates lines).filterMap Fate.output? := by
  induction lines generalizing number with
  | nil => rfl
  | cons line rest ih =>
      rcases runner.runLines_cons number line rest with
        ⟨-, hfates, hrun⟩ | ⟨-, hfates, error, -, hrun⟩
      · rw [hrun, hfates, lines_record, ih, List.filterMap_cons]
        cases (runner.fate line).output? <;> rfl
      · rw [hrun, hfates]
        rfl

theorem stats_runLines : (runner.runLines number lines).stats = .ofFates (runner.fates lines) := by
  induction lines generalizing number with
  | nil => rfl
  | cons line rest ih =>
      rcases runner.runLines_cons number line rest with
        ⟨-, hfates, hrun⟩ | ⟨-, hfates, error, -, hrun⟩
      · rw [hrun, hfates]
        exact stats_record (ih _) number _
      · rw [hrun, hfates]
        rfl

theorem failure_runLines_eq_none_iff :
    (runner.runLines number lines).failure = none ↔
      ∀ line ∈ lines, (runner.fate line).proceeds = true := by
  induction lines generalizing number with
  | nil => simp [runLines, RunReport.empty]
  | cons line rest ih =>
      rcases runner.runLines_cons number line rest with
        ⟨hproceeds, -, hrun⟩ | ⟨hstops, -, error, -, hrun⟩
      · rw [hrun, failure_record, ih, List.forall_mem_cons]
        exact (and_iff_right hproceeds).symm
      · rw [hrun]
        simp [RunReport.stopped, hstops]

/-- Lines that do not stop a run all count, and the run goes on after them. -/
theorem fates_append {first : List Bytes}
    (h : ∀ line ∈ first, (runner.fate line).proceeds = true) (second : List Bytes) :
    runner.fates (first ++ second) = first.map runner.fate ++ runner.fates second := by
  rw [fates, List.map_append, List.takeWhile_append_of_pos (List.forall_mem_map.mpr h)]
  rfl

theorem fates_of_proceeds {lines : List Bytes}
    (h : ∀ line ∈ lines, (runner.fate line).proceeds = true) :
    runner.fates lines = lines.map runner.fate := by
  have happend := runner.fates_append h []
  rw [List.append_nil] at happend
  exact happend.trans (List.append_nil _)

end Runner

section

variable {ε : Type} [Language ε] {runner : Runner ε} {input line : Bytes} {text : List Char}

/-- A text that stands on one line and can be seen there. -/
structure FillsLine (text : List Char) : Prop where
  lineFeed_not_mem : '\n' ∉ text
  not_blank : isBlankText text = false

theorem Legible.fillsLine (h : Legible text) : FillsLine text :=
  ⟨h.lineFeed_not_mem, h.isBlankText_eq_false⟩

theorem lineText_of_encode (h : dropLineEnd line = Utf8.encode text) : lineText line = text := by
  rw [lineText, h, Utf8.decodeLossy_encode]

theorem Runner.fate_eq_fateOfText (htext : IsText input) (hline : line ∈ splitLines input) :
    runner.fate line = runner.fateOfText (lineText line) := by
  obtain ⟨text, hencode⟩ := htext line hline
  rw [lineText_of_encode hencode, fate, hencode, Utf8.decode_encode]

theorem fillsLine_of_mem_messages (htext : IsText input) (h : text ∈ messages input) :
    FillsLine text := by
  rw [messages, List.mem_filter, List.mem_map] at h
  obtain ⟨⟨line, hline, rfl⟩, hblank⟩ := h
  obtain ⟨text, hencode⟩ := htext line hline
  have hfeed := lineFeed_not_mem_dropLineEnd hline
  rw [hencode, lineFeed_mem_encode_iff] at hfeed
  rw [lineText_of_encode hencode] at hblank ⊢
  exact ⟨hfeed, by simpa using hblank⟩

/-- A message that is mapped holds the text of its line or a document. -/
theorem Runner.content_of_mapText [InertLanguage ε] {part : Part}
    (h : runner.mapText text = .ok part) :
    part.content = Utf8.encode text ∨
      ∃ document, part.content = Utf8.encode (Json.print document) := by
  have hpart : Batch.get (.ofContents [Utf8.encode text]) 0 = .ok (.ofContent (Utf8.encode text)) :=
    rfl
  -- What is committed is the content of the part that comes back.
  have hcontent : ((runner.plan.mapPart 0 (.ofContents [Utf8.encode text])).2.parts[0]?).map
      Part.content = some part.content := by
    rw [mapText] at h
    split at h
    · cases h
    · rename_i batch hmap
      rw [hmap]
      cases hget : batch.get 0 with
      | error error =>
          rw [hget] at h
          cases h
      | ok found =>
          rw [hget] at h
          cases h
          rw [Batch.get_eq_ok_iff.mp hget]
          rfl
  by_cases hcommits : ∃ document,
      runner.plan.Commits (.ofContent (Utf8.encode text)) 0 (.ofContents [Utf8.encode text]) document
  · obtain ⟨document, hdocument⟩ := hcommits
    rw [Plan.content_of_commits hpart hdocument] at hcontent
    exact .inr ⟨document, (Option.some.inj hcontent).symm⟩
  · rw [Plan.content_of_not_commits hpart hcommits] at hcontent
    exact .inl (Option.some.inj hcontent).symm

omit [Language ε] in
/-- A part whose text fills a line is rendered as one line. -/
theorem Runner.render_fillsLine {part : Part} (h : FillsLine part.text) :
    FillsLine (runner.render part) := by
  rw [render]
  split
  · exact (Json.legible_print _).fillsLine
  · exact h

/-- What a message becomes fills a line if its text does. -/
theorem Runner.output_fillsLine [InertLanguage ε] (h : FillsLine text) :
    ∀ output ∈ (runner.fateOfText text).output?, FillsLine output := by
  have hself : FillsLine (Part.ofContent (Utf8.encode text)).text := by
    rwa [Part.text, Part.ofContent, Utf8.decodeLossy_encode]
  rw [fateOfText, h.not_blank]
  simp only [Bool.false_eq_true, ↓reduceIte]
  split
  · rename_i part hmap
    rintro output ⟨⟩
    refine render_fillsLine ?_
    rcases content_of_mapText hmap with hcontent | ⟨document, hcontent⟩
    · rwa [Part.text, hcontent, Utf8.decodeLossy_encode]
    · rw [Part.text, hcontent, Utf8.decodeLossy_encode]
      exact (Json.legible_print document).fillsLine
  · split
    · exact nofun
    · exact nofun
    · rintro output ⟨⟩
      exact render_fillsLine hself

theorem Runner.fateOfText_of_blank (h : isBlankText text = true) :
    runner.fateOfText text = .blank := by
  rw [fateOfText, if_pos h]

theorem Runner.fateOfText_ne_blank (h : isBlankText text = false) :
    runner.fateOfText text ≠ .blank := by
  rw [fateOfText, h]
  simp only [Bool.false_eq_true, ↓reduceIte]
  split
  · simp
  · split <;> simp

/-- What counts no blank line counts the same among the messages. -/
theorem Runner.countP_messages {counted : Fate → Bool} (h : counted .blank = false)
    (texts : List (List Char)) :
    ((texts.filter fun text => !isBlankText text).map runner.fateOfText).countP counted =
      (texts.map runner.fateOfText).countP counted := by
  rw [List.countP_map, List.countP_filter, List.countP_map]
  refine List.countP_congr fun text _ => ?_
  cases hblank : isBlankText text with
  | false => simp
  | true => simp [runner.fateOfText_of_blank hblank, h]

end

namespace Runner

variable {ε : Type} [Language ε] {runner : Runner ε} {input : Bytes}

theorem proceeds_of_run (h : (runner.run input).failure = none) :
    ∀ line ∈ splitLines input, (runner.fate line).proceeds = true :=
  (runner.failure_runLines_eq_none_iff 1 (splitLines input)).mp h

/-- What becomes of the lines of a text is what becomes of what they say. -/
theorem map_fate_splitLines (htext : IsText input) :
    (splitLines input).map runner.fate =
      ((splitLines input).map lineText).map runner.fateOfText := by
  rw [List.map_map]
  exact List.map_congr_left fun line hline => fate_eq_fateOfText htext hline

/-- A run that ends well has written what became of its messages. -/
theorem lines_run (htext : IsText input) (hdone : (runner.run input).failure = none) :
    (runner.run input).lines =
      (messages input).filterMap fun text => (runner.fateOfText text).output? := by
  rw [run, lines_runLines, runner.fates_of_proceeds (proceeds_of_run hdone),
    map_fate_splitLines htext, List.filterMap_map, messages, List.filterMap_filter]
  congr 1
  funext text
  cases hblank : isBlankText text with
  | false => simp
  | true => simp [runner.fateOfText_of_blank hblank, Fate.output?]

theorem stats_run (htext : IsText input) (hdone : (runner.run input).failure = none) :
    (runner.run input).stats = .ofFates ((messages input).map runner.fateOfText) := by
  rw [run, stats_runLines, runner.fates_of_proceeds (proceeds_of_run hdone),
    map_fate_splitLines htext, messages, RunStats.ofFates, RunStats.ofFates,
    runner.countP_messages rfl, runner.countP_messages rfl, runner.countP_messages rfl]

theorem proceeds_of_mem_messages (htext : IsText input)
    (hdone : (runner.run input).failure = none) {text : List Char} (h : text ∈ messages input) :
    (runner.fateOfText text).proceeds = true := by
  rw [messages, List.mem_filter, List.mem_map] at h
  obtain ⟨⟨line, hline, rfl⟩, -⟩ := h
  rw [← fate_eq_fateOfText htext hline]
  exact proceeds_of_run hdone line hline

end Runner

namespace RunReport

/-- The output is the lines, each with a line feed after it. -/
theorem output_eq_flatten (report : RunReport) :
    report.output = (report.lines.map fun line => Utf8.encode line ++ [lineFeed]).flatten := by
  rw [output]
  induction report.lines with
  | nil => rfl
  | cons line lines ih =>
      rw [List.flatMap_cons, Utf8.encode_append, Utf8.encode_append, ih]
      rfl

theorem isLine_of_mem_output {report : RunReport} (h : ∀ line ∈ report.lines, FillsLine line) :
    ∀ line ∈ report.lines.map fun line => Utf8.encode line ++ [lineFeed], IsLine line := by
  refine List.forall_mem_map.mpr fun line hline => ⟨_, rfl, ?_⟩
  rw [lineFeed_mem_encode_iff]
  exact (h line hline).lineFeed_not_mem

end RunReport

namespace Runner

variable {ε : Type} [Language ε] {runner : Runner ε} {input : Bytes}

/-- A run over a first piece of lines that ends well goes on with the rest. -/
theorem run_append (front rest : Bytes)
    (hfirst : (runner.run (front ++ [lineFeed])).failure = none) :
    (runner.run (front ++ lineFeed :: rest)).lines =
        (runner.run (front ++ [lineFeed])).lines ++ (runner.run rest).lines ∧
      (runner.run (front ++ lineFeed :: rest)).stats =
        (runner.run (front ++ [lineFeed])).stats.add (runner.run rest).stats ∧
      ((runner.run (front ++ lineFeed :: rest)).failure = none ↔
        (runner.run rest).failure = none) := by
  have hproceeds := proceeds_of_run hfirst
  have hsplit := splitLines_append front rest
  simp only [run, hsplit, lines_runLines, stats_runLines,
    runner.fates_append hproceeds, runner.fates_of_proceeds hproceeds, List.filterMap_append,
    RunStats.ofFates_append, failure_runLines_eq_none_iff, List.forall_mem_append, true_and]
  exact and_iff_right hproceeds

/-- If a run over a text ends well, its output is one line for each message that was mapped or
passed through, in the order of the messages and each depending on its own message alone; none of
these lines has a line feed in it or is blank, so that the output splits into them again.  Every
message counts once, and the counters of what was written add up to the lines.  The lines after any
line feed may be run by themselves: the outputs and the counters of the two runs add up. -/
theorem run_framing [InertLanguage ε] (runner : Runner ε) :
    (∀ input, IsText input → (runner.run input).failure = none →
      (runner.run input).lines =
          (messages input).filterMap (fun text => (runner.fateOfText text).output?) ∧
        (runner.run input).stats = .ofFates ((messages input).map runner.fateOfText) ∧
        (∀ line ∈ (runner.run input).lines, '\n' ∉ line ∧ isBlankText line = false) ∧
        splitLines (runner.run input).output =
          (runner.run input).lines.map (fun line => Utf8.encode line ++ [lineFeed]) ∧
        (runner.run input).output.count lineFeed =
          (runner.run input).stats.mapped + (runner.run input).stats.passedThrough ∧
        (runner.run input).stats.mapped + (runner.run input).stats.skipped +
          (runner.run input).stats.passedThrough = (messages input).length) ∧
    ∀ front rest, (runner.run (front ++ [lineFeed])).failure = none →
      (runner.run rest).failure = none →
        (runner.run (front ++ lineFeed :: rest)).failure = none ∧
          (runner.run (front ++ lineFeed :: rest)).output =
            (runner.run (front ++ [lineFeed])).output ++ (runner.run rest).output ∧
          (runner.run (front ++ lineFeed :: rest)).stats =
            (runner.run (front ++ [lineFeed])).stats.add (runner.run rest).stats := by
  refine ⟨fun input htext hdone => ?_, fun front rest hfirst hrest => ?_⟩
  · have hlines := lines_run htext hdone
    have hstats := stats_run htext hdone
    have hfills : ∀ line ∈ (runner.run input).lines, FillsLine line := by
      intro line hline
      rw [hlines, List.mem_filterMap] at hline
      obtain ⟨text, hmessage, houtput⟩ := hline
      exact output_fillsLine (fillsLine_of_mem_messages htext hmessage) line houtput
    have hframed := RunReport.isLine_of_mem_output hfills
    have hsplit := splitLines_flatten hframed []
    simp only [List.append_nil, splitLines] at hsplit
    refine ⟨hlines, hstats, fun line hline => ?_, ?_, ?_, ?_⟩
    · exact ⟨(hfills line hline).lineFeed_not_mem, (hfills line hline).not_blank⟩
    · rw [RunReport.output_eq_flatten, hsplit]
    · rw [RunReport.output_eq_flatten, count_flatten hframed, List.length_map, hstats,
        RunStats.written_ofFates, hlines, List.filterMap_map]
      rfl
    · rw [hstats, RunStats.total_ofFates, List.length_map]
      refine List.forall_mem_map.mpr fun text hmessage => ?_
      have hfills := fillsLine_of_mem_messages htext hmessage
      exact ⟨fateOfText_ne_blank hfills.not_blank, proceeds_of_mem_messages htext hdone hmessage⟩
  · obtain ⟨hlines, hstats, hfailure⟩ := run_append front rest hfirst
    refine ⟨hfailure.mpr hrest, ?_, hstats⟩
    rw [RunReport.output_eq_flatten, hlines, List.map_append, List.flatten_append,
      ← RunReport.output_eq_flatten, ← RunReport.output_eq_flatten]

/-- Keeps the text of a message as metadata and puts its document under a key. -/
def keepsText : Runner Expr where
  plan := ⟨.empty, [⟨1, .metadata (some "was"), .content⟩, ⟨2, .path ["a"], .document []⟩]⟩
  policy := .passthrough
  withMetadata := true

/-- Both line ends, a blank line, a message that is no document and a last line without an end. -/
def mixedFront : Bytes :=
  Utf8.encode "[1\t]\r\n \t\r\nx".toList

def mixedRest : Bytes :=
  Utf8.encode "2".toList

theorem isText_mixed : IsText (mixedFront ++ lineFeed :: mixedRest) := by
  have hlines : splitLines (mixedFront ++ lineFeed :: mixedRest) =
      [Utf8.encode "[1\t]\r\n".toList, Utf8.encode " \t\r\n".toList, Utf8.encode "x\n".toList,
        Utf8.encode "2".toList] := by decide +kernel
  rw [IsText, hlines]
  simp only [List.forall_mem_cons]
  exact ⟨⟨"[1\t]".toList, by decide +kernel⟩, ⟨" \t".toList, by decide +kernel⟩,
    ⟨"x".toList, by decide +kernel⟩, ⟨"2".toList, by decide +kernel⟩, nofun⟩

theorem run_framing_of_mixed :
    IsText (mixedFront ++ lineFeed :: mixedRest) ∧
      (keepsText.run (mixedFront ++ lineFeed :: mixedRest)).failure = none ∧
      splitLines (keepsText.run (mixedFront ++ lineFeed :: mixedRest)).output =
        ["\x7b\"content\":\"\x7b\\\"a\\\":[1]\x7d\",\"metadata\":\x7b\"was\":\"[1\\t]\"\x7d\x7d",
          "\x7b\"content\":\"x\",\"metadata\":\x7b\x7d\x7d",
          "\x7b\"content\":\"\x7b\\\"a\\\":2\x7d\",\"metadata\":\x7b\"was\":\"2\"\x7d\x7d"].map
          (fun line => Utf8.encode line.toList ++ [lineFeed]) ∧
      (keepsText.run (mixedFront ++ lineFeed :: mixedRest)).stats = ⟨2, 0, 1⟩ ∧
      (keepsText.run (mixedFront ++ lineFeed :: mixedRest)).output =
        (keepsText.run (mixedFront ++ [lineFeed])).output ++ (keepsText.run mixedRest).output := by
  have hdone : (keepsText.run (mixedFront ++ lineFeed :: mixedRest)).failure = none :=
    Option.isNone_iff_eq_none.mp (by decide +kernel)
  obtain ⟨hruns, hpieces⟩ := run_framing keepsText
  obtain ⟨-, -, -, hsplit, -, -⟩ := hruns _ isText_mixed hdone
  obtain ⟨-, houtput, -⟩ := hpieces mixedFront mixedRest
    (Option.isNone_iff_eq_none.mp (by decide +kernel))
    (Option.isNone_iff_eq_none.mp (by decide +kernel))
  exact ⟨isText_mixed, hdone, hsplit.trans (by decide +kernel), by decide +kernel, houtput⟩

end Runner

end Remap
