import Remap.Proofs.ExprForms

/-!
Expressions as they are written.  A spelled expression is a syntax tree with the white space of its
source, so it has a text and a meaning, and the parser leads from the one to the other whatever
delimiter follows.
-/

namespace Remap

open Remap.Parser Remap.Expr.Grammar

/-- White space around a field and around its colon. -/
structure FieldLayout extends Around where
  beforeColon : Padding
  afterColon : Padding

/-- An expression with its layout.  Lists and calls without items have only the white space between
their brackets. -/
inductive SpelledExpr
  | string (text : String)
  | integer (value : Int) (lower : -(signBound : Int) ≤ value) (upper : value < signBound)
  | bool (value : Bool)
  | null
  | array (gap : Padding) (items : List (Around × SpelledExpr))
  | object (gap : Padding) (fields : List (FieldLayout × String × SpelledExpr))
  | document (path : List PathKey)
  | call (function : Call) (gap : Padding) (around : Around)

namespace SpelledExpr

mutual

/-- What the expression means. -/
def expr : SpelledExpr → Expr
  | .string text => .literal (.string text)
  | .integer value lower upper =>
      .literal (.number (.integer value lower (Int.lt_trans upper (by decide))))
  | .bool value => .literal (.bool value)
  | .null => .literal .null
  | .array _ items => .array (itemExprs items)
  | .object _ fields => .object (fieldExprs fields)
  | .document path => .document (path.map PathKey.name)
  | .call function _ _ => function.expr

def itemExprs : List (Around × SpelledExpr) → List Expr
  | [] => []
  | (_, item) :: rest => item.expr :: itemExprs rest

def fieldExprs : List (FieldLayout × String × SpelledExpr) → List (String × Expr)
  | [] => []
  | (_, key, value) :: rest => (key, value.expr) :: fieldExprs rest

end

mutual

def text : SpelledExpr → List Char
  | .string text => Spelling.quote text
  | .integer value _ _ => integerText value
  | .bool value => (boolName value).toList
  | .null => "null".toList
  | .array gap items => '[' :: (Piece.listText gap (itemPieces items) ++ [']'])
  | .object gap fields => '{' :: (Piece.listText gap (fieldPieces fields) ++ ['}'])
  | .document path => "this".toList ++ pathText path
  | .call function gap around => function.text gap around

def itemPieces : List (Around × SpelledExpr) → List (Piece Expr)
  | [] => []
  | (around, item) :: rest => ⟨around, item.text, item.expr⟩ :: itemPieces rest

def fieldPieces : List (FieldLayout × String × SpelledExpr) → List (Piece (String × Expr))
  | [] => []
  | (layout, key, value) :: rest =>
      ⟨layout.toAround, Spelling.quote key ++ (layout.beforeColon.chars ++
        ':' :: (layout.afterColon.chars ++ value.text)), (key, value.expr)⟩ :: fieldPieces rest

end

theorem map_value_itemPieces (items : List (Around × SpelledExpr)) :
    (itemPieces items).map Piece.value = itemExprs items := by
  induction items with
  | nil => rfl
  | cons item rest ih =>
      obtain ⟨around, item⟩ := item
      rw [itemPieces, List.map_cons, ih, itemExprs]

theorem map_value_fieldPieces (fields : List (FieldLayout × String × SpelledExpr)) :
    (fieldPieces fields).map Piece.value = fieldExprs fields := by
  induction fields with
  | nil => rfl
  | cons field rest ih =>
      obtain ⟨layout, key, value⟩ := field
      rw [fieldPieces, List.map_cons, ih, fieldExprs]

/-- The characters with which an expression begins. -/
def isStart (c : Char) : Bool :=
  c = '"' || c = '[' || c = '{' || isNumberStart c || c.isAlpha

theorem isSpaceTabOrBreak_of_isStart (c : Char) (h : isStart c = true) :
    isSpaceTabOrBreak c = false := by
  cases hspace : isSpaceTabOrBreak c with
  | false => rfl
  | true =>
      simp only [isSpaceTabOrBreak, Bool.or_eq_true, decide_eq_true_eq] at hspace
      rcases hspace with ((rfl | rfl) | rfl) | rfl <;> revert h <;> decide

theorem opens_integerText (value : Int) (rest : List Char) :
    Opens isNumberStart (integerText value ++ rest) := by
  rw [integerText]
  split
  · simp [isNumberStart]
  · refine Opens.append_of_ne_nil ((digitsOf value.natAbs).opens.mono fun c hc => ?_)
      Nat.toDigits_ne_nil rest
    simp [isNumberStart, hc]

theorem opens_text (e : SpelledExpr) (rest : List Char) : Opens isStart (e.text ++ rest) := by
  cases e with
  | string text => simp [SpelledExpr.text, Spelling.quote, isStart]
  | integer value lower upper =>
      refine (opens_integerText value rest).mono fun c hc => ?_
      simp [isStart, hc]
  | bool value => cases value <;> simp [SpelledExpr.text, boolName, isStart]
  | null => simp [SpelledExpr.text, isStart]
  | array gap items => simp [SpelledExpr.text, isStart]
  | object gap fields => simp [SpelledExpr.text, isStart]
  | document path => simp [SpelledExpr.text, isStart]
  | call function gap around =>
      cases function <;> simp [SpelledExpr.text, Call.text, Call.function, isStart]

theorem opens_text_not_blank (e : SpelledExpr) (rest : List Char) :
    Opens (!isSpaceTabOrBreak ·) (e.text ++ rest) :=
  (e.opens_text rest).apart isSpaceTabOrBreak_of_isStart

/-- A field is read if its key, however it is written, and its value are. -/
theorem field_read {item : Parser Expr} {source rest written : List Char} {key : String}
    {value : Expr} (layout : FieldLayout)
    (hkey : ∀ after, quoted (written ++ after) = .ok (key, after))
    (hopens : Opens (!isSpaceTabOrBreak ·) source) (hvalue : item source = .ok (value, rest)) :
    field item (written ++ (layout.beforeColon.chars ++
      ':' :: (layout.afterColon.chars ++ source))) = .ok ((key, value), rest) := by
  have hcolon : Opens (!isSpaceTabOrBreak ·) (':' :: (layout.afterColon.chars ++ source)) := by
    simp [isSpaceTabOrBreak]
  have hbetween : (do
      let _ ← blanksAndBreaks
      char ':'
      let _ ← blanksAndBreaks : Parser Unit)
      (layout.beforeColon.chars ++ ':' :: (layout.afterColon.chars ++ source)) =
        .ok ((), source) := by
    rw [bind_of_ok (blanksAndBreaks_append layout.beforeColon hcolon), bind_of_ok (char_cons ':' _),
      bind_of_ok (blanksAndBreaks_append layout.afterColon hopens)]
    rfl
  rw [field, bind_of_ok (hkey _), bind_of_ok (commit_of_ok hbetween),
    bind_of_ok (commit_of_ok hvalue)]
  rfl

theorem length_text_pos (e : SpelledExpr) : 0 < e.text.length := by
  cases e with
  | string text => simp [SpelledExpr.text, Spelling.quote]
  | integer value lower upper =>
      simp only [SpelledExpr.text, integerText, List.length_append]
      exact Nat.add_pos_right _ Nat.length_toDigits_pos
  | bool value => cases value <;> simp [SpelledExpr.text, boolName]
  | null => simp [SpelledExpr.text]
  | array gap items => simp [SpelledExpr.text]
  | object gap fields => simp [SpelledExpr.text]
  | document path => simp [SpelledExpr.text]
  | call function gap around =>
      simp only [SpelledExpr.text, Call.text, List.length_append, List.length_cons]
      omega

mutual

/-- An expression is read up to the delimiter after it. -/
theorem expression_text : (e : SpelledExpr) → ∀ {bound : Nat} {rest : List Char},
    e.text.length ≤ bound → Opens isDelimiter rest →
      expression bound (e.text ++ rest) = .ok (e.expr, rest)
  | e, 0, _, hbound, _ => by
    have hpos := e.length_text_pos
    omega
  | .string text, bound + 1, rest, _, _ =>
    expression_of_string (bind_of_ok (Spelling.quoted_quote text rest) _)
  | .integer value lower upper, bound + 1, rest, _, h =>
    expression_of_number (opens_integerText value rest) (number_integerText lower upper h)
  | .bool value, bound + 1, rest, _, h => by
    have hopens : Opens Char.isAlpha ((boolName value).toList ++ rest) := by
      cases value <;> simp [boolName]
    exact expression_of_word hopens (word_bool value h)
  | .null, bound + 1, rest, _, h => by
    have hopens : Opens Char.isAlpha ("null".toList ++ rest) := by simp
    exact expression_of_word hopens (word_null h)
  | .array gap items, bound + 1, rest, hbound, _ => by
    have hlengths : ∀ piece ∈ itemPieces items, piece.core.length ≤ bound := by
      intro piece hpiece
      have hlength := Piece.length_core_le_listText gap hpiece
      simp only [text, List.length_cons, List.length_append] at hbound
      omega
    have hitems := bracketed_listText (itemPieces_readBy items hlengths) '[' rfl
      (expression_misses_of_closing bound rest) gap
    rw [map_value_itemPieces] at hitems
    simp only [text, List.cons_append, List.append_assoc, List.nil_append]
    exact expression_of_array (bind_of_ok hitems _)
  | .object gap fields, bound + 1, rest, hbound, _ => by
    have hlengths : ∀ piece ∈ fieldPieces fields, piece.core.length ≤ bound := by
      intro piece hpiece
      have hlength := Piece.length_core_le_listText gap hpiece
      simp only [text, List.length_cons, List.length_append] at hbound
      omega
    have hmisses : Misses (field (expression bound)) ('}' :: rest) :=
      (Spelling.quoted_misses (by simp)).bind _
    have hfields := bracketed_listText (fieldPieces_readBy fields hlengths) '{' rfl hmisses gap
    rw [map_value_fieldPieces] at hfields
    simp only [text, List.cons_append, List.append_assoc, List.nil_append]
    exact expression_of_object (bind_of_ok hfields _)
  | .document path, bound + 1, rest, _, h => by
    have hopens : Opens Char.isAlpha ("this".toList ++ (pathText path ++ rest)) := by simp
    rw [text, List.append_assoc]
    exact expression_of_word hopens (word_document path h)
  | .call function gap around, bound + 1, rest, _, _ => by
    have hopens : Opens Char.isAlpha (function.text gap around ++ rest) := by
      cases function <;> simp [Call.text, Call.function]
    exact expression_of_word hopens (word_call function gap around rest)

theorem itemPieces_readBy : (items : List (Around × SpelledExpr)) → ∀ {bound : Nat},
    (∀ piece ∈ itemPieces items, piece.core.length ≤ bound) →
      ∀ piece ∈ itemPieces items, piece.ReadBy (expression bound)
  | [], _, _, _, hpiece => by cases hpiece
  | (around, item) :: rest, bound, hbound, piece, hpiece => by
    rcases List.mem_cons.mp hpiece with rfl | hrest
    · exact ⟨item.opens_text_not_blank, expression_text item (hbound _ List.mem_cons_self)⟩
    · exact itemPieces_readBy rest
        (fun other hother => hbound other (List.mem_cons_of_mem _ hother)) piece hrest

theorem fieldPieces_readBy : (fields : List (FieldLayout × String × SpelledExpr)) →
    ∀ {bound : Nat}, (∀ piece ∈ fieldPieces fields, piece.core.length ≤ bound) →
      ∀ piece ∈ fieldPieces fields, piece.ReadBy (field (expression bound))
  | [], _, _, _, hpiece => by cases hpiece
  | (layout, key, value) :: rest, bound, hbound, piece, hpiece => by
    rcases List.mem_cons.mp hpiece with rfl | hrest
    · have hlength : value.text.length ≤ bound := by
        have hcore := hbound _ List.mem_cons_self
        simp only [List.length_append, List.length_cons] at hcore
        omega
      refine ⟨fun rest => by simp [Spelling.quote, isSpaceTabOrBreak], fun hrest => ?_⟩
      simp only [List.append_assoc, List.cons_append]
      exact field_read layout (Spelling.quoted_quote key) (value.opens_text_not_blank _)
        (expression_text value hlength hrest)
    · exact fieldPieces_readBy rest
        (fun other hother => hbound other (List.mem_cons_of_mem _ hother)) piece hrest

end

end SpelledExpr

/-- The parser leads from the text of an expression to its meaning. -/
theorem Expr.parse_text (e : SpelledExpr) {rest : List Char} (h : Opens isDelimiter rest) :
    Expr.parse (e.text ++ rest) = .ok (e.expr, rest) := by
  refine e.expression_text ?_ h
  rw [List.length_append]
  omega

end Remap
