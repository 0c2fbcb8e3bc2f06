import Remap.Proofs.Combinators

/-!
The space between tokens.  Blanks stand inside a statement; between statements there are line ends,
lines without statements and comments.  Each kind of space is read to its end when what follows it
cannot be more of it.
-/

namespace Remap

open Remap.Parser

/-- A text of characters of one class, possibly empty. -/
structure TextOf (inClass : Char → Bool) where
  chars : List Char
  all : chars.all inClass = true

/-- The text without characters. -/
def TextOf.empty {inClass : Char → Bool} : TextOf inClass :=
  ⟨[], rfl⟩

theorem TextOf.of_mem {inClass : Char → Bool} (text : TextOf inClass) {c : Char}
    (h : c ∈ text.chars) : inClass c = true :=
  List.all_eq_true.mp text.all c h

/-- The first character of a text, if it has one, is of a class. -/
def Opens (inClass : Char → Bool) (text : List Char) : Prop :=
  ∀ c ∈ text.head?, inClass c = true

namespace Opens

variable {inClass other : Char → Bool} {c : Char} {first second text : List Char}

@[simp]
theorem nil : Opens inClass [] := by
  simp [Opens]

@[simp]
theorem cons_iff : Opens inClass (c :: text) ↔ inClass c = true := by
  simp [Opens]

theorem mono (h : Opens inClass text) (hclass : ∀ c, inClass c = true → other c = true) :
    Opens other text :=
  fun c hc => hclass c (h c hc)

/-- A text that opens with a character of one class does not open with one of a class apart. -/
theorem apart (h : Opens inClass text) (hapart : ∀ c, inClass c = true → other c = false) :
    Opens (!other ·) text :=
  h.mono fun c hc => by rw [hapart c hc]; rfl

theorem not_opens (h : Opens inClass text) (hne : text ≠ []) : ¬Opens (!inClass ·) text := by
  obtain ⟨c, text, rfl⟩ := List.exists_cons_of_ne_nil hne
  have hc := cons_iff.mp h
  rw [cons_iff, hc]
  decide

theorem ne (h : Opens inClass text) (hc : inClass c = false) : Opens (· ≠ c) text := by
  refine h.mono fun d hd => ?_
  rw [decide_eq_true_eq]
  rintro rfl
  rw [hd] at hc
  cases hc

theorem append (hfirst : Opens inClass first) (hsecond : Opens inClass second) :
    Opens inClass (first ++ second) := by
  cases first with
  | nil => exact hsecond
  | cons c rest => simpa using hfirst

theorem append_of_ne_nil (hfirst : Opens inClass first) (hne : first ≠ []) (second : List Char) :
    Opens inClass (first ++ second) := by
  cases first with
  | nil => exact absurd rfl hne
  | cons c rest => simpa using hfirst

end Opens

theorem TextOf.opens {inClass : Char → Bool} (text : TextOf inClass) : Opens inClass text.chars :=
  fun _ hc => text.of_mem (List.mem_of_mem_head? hc)

namespace Parser

variable {inClass : Char → Bool} {rest : List Char}

theorem takeWhile_of_opens (h : Opens (!inClass ·) rest) : rest.takeWhile inClass = [] := by
  cases rest with
  | nil => rfl
  | cons c rest => exact List.takeWhile_cons_of_neg (by simpa using h)

theorem dropWhile_of_opens (h : Opens (!inClass ·) rest) : rest.dropWhile inClass = rest := by
  cases rest with
  | nil => rfl
  | cons c rest => exact List.dropWhile_cons_of_neg (by simpa using h)

theorem takeWhile_append_of_opens (text : TextOf inClass) (h : Opens (!inClass ·) rest) :
    (text.chars ++ rest).takeWhile inClass = text.chars := by
  rw [List.takeWhile_append_of_pos (fun _ => text.of_mem), takeWhile_of_opens h, List.append_nil]

theorem dropWhile_append_of_opens (text : TextOf inClass) (h : Opens (!inClass ·) rest) :
    (text.chars ++ rest).dropWhile inClass = rest := by
  rw [List.dropWhile_append_of_pos (fun _ => text.of_mem), dropWhile_of_opens h]

theorem run_append (text : TextOf inClass) (h : Opens (!inClass ·) rest) :
    run inClass (text.chars ++ rest) = .ok (text.chars, rest) := by
  rw [run, takeWhile_append_of_opens text h, dropWhile_append_of_opens text h]

theorem token_append (kind : TokenClass) (text : TextOf inClass) (hne : text.chars ≠ [])
    (h : Opens (!inClass ·) rest) :
    token kind inClass (text.chars ++ rest) = .ok (text.chars, rest) := by
  rw [token, takeWhile_append_of_opens text h, dropWhile_append_of_opens text h]
  cases hchars : text.chars with
  | nil => exact absurd hchars hne
  | cons c taken => rfl

theorem token_of_opens (kind : TokenClass) (h : Opens (!inClass ·) rest) :
    token kind inClass rest = .error ⟨false, rest, .missingToken kind⟩ := by
  rw [token, takeWhile_of_opens h]
  rfl

theorem token_misses (kind : TokenClass) (h : Opens (!inClass ·) rest) :
    Misses (token kind inClass) rest :=
  ⟨_, token_of_opens kind h, rfl⟩

theorem token_progresses (kind : TokenClass) : Progresses (token kind inClass) := by
  intro text value rest h
  rw [token] at h
  split at h
  · cases h
  · rename_i c taken htaken
    cases h
    have hsplit : text.takeWhile inClass ++ text.dropWhile inClass = text :=
      List.takeWhile_append_dropWhile
    have hlength := congrArg List.length hsplit
    rw [htaken] at hlength
    simp only [List.length_append, List.length_cons] at hlength
    omega

theorem token_recovers (kind : TokenClass) (inClass : Char → Bool) :
    Recovers (token kind inClass) := by
  intro text failure h
  rw [token] at h
  split at h <;> cases h
  rfl

theorem char_cons (c : Char) (rest : List Char) : char c (c :: rest) = .ok ((), rest) := by
  simp [char]

theorem char_misses {c : Char} (h : Opens (· ≠ c) rest) : Misses (char c) rest := by
  cases rest with
  | nil => exact misses_miss _ _
  | cons d rest =>
      rw [Opens.cons_iff, decide_eq_true_eq] at h
      exact ⟨⟨false, d :: rest, .missingChar c⟩, by simp [char, h, miss], rfl⟩

end Parser

/-- Spaces and tabs. -/
abbrev Blanks := TextOf isSpaceOrTab

/-- At least one space or tab. -/
structure Blanks1 extends Blanks where
  nonempty : chars ≠ []

/-- White space inside an expression, line breaks too. -/
abbrev Padding := TextOf isSpaceTabOrBreak

/-- What a comment says after its `#`. -/
abbrev Comment := TextOf isLineText

inductive LineEnd
  | feed
  | returnFeed

def LineEnd.text : LineEnd → List Char
  | .feed => ['\n']
  | .returnFeed => ['\r', '\n']

def commentText : Option Comment → List Char
  | none => []
  | some comment => '#' :: comment.chars

/-- What a line holds after its last token: blanks, a comment or none, and the line end. -/
structure LineTail where
  blanks : Blanks
  comment : Option Comment
  lineEnd : LineEnd

def LineTail.text (tail : LineTail) : List Char :=
  tail.blanks.chars ++ (commentText tail.comment ++ tail.lineEnd.text)

/-- Lines without a statement, and the blanks before the next token. -/
structure Gap where
  lines : List LineTail
  indent : Blanks

def Gap.text (gap : Gap) : List Char :=
  gap.lines.flatMap LineTail.text ++ gap.indent.chars

/-- What stands between two statements: the end of the line of the first one, and a gap. -/
structure Break where
  tail : LineTail
  gap : Gap

def Break.text (between : Break) : List Char :=
  between.tail.text ++ between.gap.text

/-- What stands after the last statement of a mapping: a gap, and a comment that the end of the text
ends. -/
structure Ending where
  gap : Gap
  comment : Option Comment

def Ending.text (ending : Ending) : List Char :=
  ending.gap.text ++ commentText ending.comment

/-- The characters with which the space between statements begins. -/
def isGapStart (c : Char) : Bool :=
  isSpaceTabOrBreak c || c = '#'

namespace Parser

variable {rest : List Char}

theorem blanks_append (text : Blanks) (h : Opens (!isSpaceOrTab ·) rest) :
    blanks (text.chars ++ rest) = .ok (text.chars, rest) :=
  run_append text h

theorem blanks1_append (text : Blanks1) (h : Opens (!isSpaceOrTab ·) rest) :
    blanks1 (text.chars ++ rest) = .ok (text.chars, rest) :=
  token_append .blanks text.toTextOf text.nonempty h

theorem blanksAndBreaks_append (text : Padding) (h : Opens (!isSpaceTabOrBreak ·) rest) :
    blanksAndBreaks (text.chars ++ rest) = .ok (text.chars, rest) :=
  run_append text h

/-- What is no gap does not begin with a blank. -/
theorem opens_not_blank (h : Opens (!isGapStart ·) rest) : Opens (!isSpaceOrTab ·) rest := by
  refine h.mono fun c hc => ?_
  simp only [isGapStart, isSpaceTabOrBreak, Bool.not_eq_true', Bool.or_eq_false_iff] at hc
  simp [isSpaceOrTab, hc]

/-- The blanks of a line end where its comment or its line end begins. -/
theorem opens_lineBreak (comment : Option Comment) (lineEnd : LineEnd) (rest : List Char) :
    Opens (!isSpaceOrTab ·) (commentText comment ++ (lineEnd.text ++ rest)) := by
  cases comment <;> cases lineEnd <;> simp [commentText, LineEnd.text, isSpaceOrTab]

theorem comment_misses (h : Opens (· ≠ '#') rest) : Misses comment rest := by
  cases rest with
  | nil => exact misses_miss _ _
  | cons c rest =>
      rw [Opens.cons_iff, decide_eq_true_eq] at h
      refine ⟨⟨false, c :: rest, .missingChar '#'⟩, ?_, rfl⟩
      rw [comment]
      · rfl
      · simpa using h

theorem comment_append (text : Comment) (lineEnd : LineEnd) (rest : List Char) :
    comment ('#' :: (text.chars ++ (lineEnd.text ++ rest))) =
      .ok ('#' :: (text.chars ++ lineEnd.text), rest) := by
  cases lineEnd with
  | feed =>
      have hopens : Opens (!isLineText ·) ('\n' :: rest) := by simp [isLineText]
      simp only [LineEnd.text, comment, takeWhile_append_of_opens text hopens,
        dropWhile_append_of_opens text hopens, List.cons_append, List.nil_append]
  | returnFeed =>
      have hopens : Opens (!isLineText ·) ('\r' :: '\n' :: rest) := by simp [isLineText]
      simp only [LineEnd.text, comment, takeWhile_append_of_opens text hopens,
        dropWhile_append_of_opens text hopens, List.cons_append, List.nil_append]

theorem comment_atEnd (text : Comment) :
    comment ('#' :: text.chars) = .ok ('#' :: text.chars, []) := by
  have hopens : Opens (!isLineText ·) [] := .nil
  have htake := takeWhile_append_of_opens text hopens
  have hdrop := dropWhile_append_of_opens text hopens
  rw [List.append_nil] at htake hdrop
  simp only [comment, htake, hdrop]

theorem lineEnd_append (text : LineEnd) (rest : List Char) :
    lineEnd (text.text ++ rest) = .ok (text.text, rest) := by
  cases text <;> rfl

theorem lineEnd_misses (h : Opens (!isGapStart ·) rest) : Misses lineEnd rest := by
  cases rest with
  | nil => exact misses_miss _ _
  | cons c rest =>
      simp [isGapStart, isSpaceTabOrBreak] at h
      refine ⟨⟨false, c :: rest, .missingToken .lineEnd⟩, ?_, rfl⟩
      rw [lineEnd]
      · rfl
      · simp [h]
      · simp [h]

theorem comment_progresses : Progresses comment := by
  intro text value rest h
  have hlength : (text.tail.dropWhile isLineText).length ≤ text.tail.length :=
    (List.dropWhile_sublist isLineText).length_le
  rw [comment.eq_def] at h
  split at h
  · rename_i body
    rw [List.tail_cons] at hlength
    simp only at h
    split at h
    · cases h
      simp
    · rename_i after hafter
      cases h
      rw [hafter, List.length_cons] at hlength
      simp only [List.length_cons]
      omega
    · rename_i after hafter
      cases h
      rw [hafter, List.length_cons, List.length_cons] at hlength
      simp only [List.length_cons]
      omega
    · cases h
  · cases h

theorem lineEnd_progresses : Progresses lineEnd := by
  intro text value rest h
  rw [lineEnd.eq_def] at h
  split at h
  · cases h
    simp
  · cases h
    simp only [List.length_cons]
    omega
  · cases h

theorem comment_recovers : Recovers comment := by
  intro text failure h
  rw [comment.eq_def] at h
  split at h
  · simp only at h
    split at h <;> cases h
    rfl
  · cases h
    rfl

theorem lineEnd_recovers : Recovers lineEnd := by
  intro text failure h
  rw [lineEnd.eq_def] at h
  split at h <;> cases h
  rfl

theorem lineBreak_append (comment : Option Comment) (lineEnd : LineEnd) (rest : List Char) :
    ∃ taken, lineBreak (commentText comment ++ (lineEnd.text ++ rest)) = .ok (taken, rest) := by
  cases comment with
  | some comment =>
      exact ⟨_, orElse_of_ok (comment_append comment lineEnd rest) _⟩
  | none =>
      refine ⟨_, orElse_of_misses (comment_misses ?_) (lineEnd_append lineEnd rest)⟩
      cases lineEnd <;> simp [commentText, LineEnd.text]

/-- The blanks of a line are read up to its comment or its line end. -/
theorem blanks_lineTail (tail : LineTail) (rest : List Char) :
    blanks (tail.text ++ rest) =
      .ok (tail.blanks.chars, commentText tail.comment ++ (tail.lineEnd.text ++ rest)) := by
  rw [LineTail.text, List.append_assoc, List.append_assoc]
  exact blanks_append tail.blanks (opens_lineBreak tail.comment tail.lineEnd rest)

theorem lineBreak_misses (h : Opens (!isGapStart ·) rest) : Misses lineBreak rest := by
  have hcomment : Opens (· ≠ '#') rest := h.ne (by decide)
  exact (comment_misses hcomment).orElse (lineEnd_misses h)

/-- One piece of the space between statements. -/
def gapPiece : Parser (List Char) :=
  blanks1 <|> lineBreak

theorem gapPiece_repeatable : Repeatable gapPiece where
  progress := (token_progresses .blanks).orElse (comment_progresses.orElse lineEnd_progresses)
  atEnd := (token_misses .blanks .nil).orElse (lineBreak_misses .nil)

theorem gapPiece_misses (h : Opens (!isGapStart ·) rest) : Misses gapPiece rest :=
  (token_misses .blanks (opens_not_blank h)).orElse (lineBreak_misses h)

/-- The space between statements is skipped up to this rest. -/
def SkipsTo (text rest : List Char) : Prop :=
  ∃ pieces, many gapPiece text = .ok (pieces, rest)

theorem blankLines_of_skipsTo {text : List Char} (h : SkipsTo text rest) :
    blankLines text = .ok ((), rest) := by
  obtain ⟨pieces, hpieces⟩ := h
  exact bind_of_ok hpieces _

namespace SkipsTo

variable {after : List Char}

theorem here (h : Opens (!isGapStart ·) rest) : SkipsTo rest rest :=
  ⟨[], many_of_misses (gapPiece_misses h)⟩

theorem blanks (text : Blanks) (hopens : Opens (!isSpaceOrTab ·) rest) (h : SkipsTo rest after) :
    SkipsTo (text.chars ++ rest) after := by
  obtain ⟨pieces, hpieces⟩ := h
  by_cases hnil : text.chars = []
  · rw [hnil]
    exact ⟨pieces, hpieces⟩
  · have hpiece := orElse_of_ok (token_append .blanks text hnil hopens) lineBreak
    exact ⟨_, many_of_ok gapPiece_repeatable hpiece hpieces⟩

theorem lineBreak (comment : Option Comment) (lineEnd : LineEnd) (h : SkipsTo rest after) :
    SkipsTo (commentText comment ++ (lineEnd.text ++ rest)) after := by
  obtain ⟨pieces, hpieces⟩ := h
  obtain ⟨taken, htaken⟩ := lineBreak_append comment lineEnd rest
  have hmisses : Misses blanks1 (commentText comment ++ (lineEnd.text ++ rest)) :=
    token_misses .blanks (opens_lineBreak comment lineEnd rest)
  exact ⟨_, many_of_ok gapPiece_repeatable (orElse_of_misses hmisses htaken) hpieces⟩

theorem lineTail (tail : LineTail) (h : SkipsTo rest after) :
    SkipsTo (tail.text ++ rest) after := by
  rw [LineTail.text, List.append_assoc, List.append_assoc]
  exact SkipsTo.blanks tail.blanks (opens_lineBreak tail.comment tail.lineEnd rest)
    (SkipsTo.lineBreak tail.comment tail.lineEnd h)

theorem gap (gap : Gap) (hopens : Opens (!isSpaceOrTab ·) rest) (h : SkipsTo rest after) :
    SkipsTo (gap.text ++ rest) after := by
  obtain ⟨lines, indent⟩ := gap
  rw [Gap.text]
  induction lines with
  | nil => exact SkipsTo.blanks indent hopens h
  | cons line lines ih =>
      simp only [List.flatMap_cons, List.append_assoc] at ih ⊢
      exact SkipsTo.lineTail line ih

theorem comment (comment : Option Comment) : SkipsTo (commentText comment) [] := by
  cases comment with
  | none => exact SkipsTo.here .nil
  | some comment =>
      have hmisses : Misses blanks1 ('#' :: comment.chars) :=
        token_misses .blanks (by simp [isSpaceOrTab])
      have hpiece := orElse_of_misses hmisses (orElse_of_ok (comment_atEnd comment) lineEnd)
      exact ⟨_, many_of_ok gapPiece_repeatable hpiece (many_of_misses (gapPiece_misses .nil))⟩

end SkipsTo

/-- A gap is skipped up to the token after it. -/
theorem blankLines_gap (gap : Gap) (h : Opens (!isGapStart ·) rest) :
    blankLines (gap.text ++ rest) = .ok ((), rest) :=
  blankLines_of_skipsTo (SkipsTo.gap gap (opens_not_blank h) (SkipsTo.here h))

theorem blankLines_ending (ending : Ending) : blankLines ending.text = .ok ((), []) := by
  refine blankLines_of_skipsTo (SkipsTo.gap ending.gap ?_ (SkipsTo.comment ending.comment))
  cases ending.comment <;> simp [commentText, isSpaceOrTab]

end Parser

end Remap
