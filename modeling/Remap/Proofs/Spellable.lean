import Remap.Proofs.SpelledExpr

/-!
What a source can say.  Every expression that the parser takes from a source has a spelling, unless
one of its numbers is a double; so a statement about all spellings leaves out no expression that has
a source.
-/

namespace Remap

open Remap.Parser Remap.Expr.Grammar

namespace Expr

mutual

/-- No number in the expression is a double. -/
def Exact : Expr → Prop
  | .literal (.number (.real _)) => False
  | .array items => ExactItems items
  | .object fields => ExactFields fields
  | _ => True

def ExactItems : List Expr → Prop
  | [] => True
  | item :: rest => item.Exact ∧ ExactItems rest

def ExactFields : List (String × Expr) → Prop
  | [] => True
  | (_, field) :: rest => field.Exact ∧ ExactFields rest

end

/-- The expression can be written, unless there is a double in it. -/
def Spellable (expr : Expr) : Prop :=
  expr.Exact → ∃ spelled : SpelledExpr, spelled.expr = expr

namespace Spellable

/-- No white space around an item. -/
def tight : Around :=
  ⟨⟨[], rfl⟩, ⟨[], rfl⟩⟩

theorem exists_items {items : List Expr} (h : ∀ item ∈ items, item.Spellable)
    (hexact : ExactItems items) :
    ∃ spelled : List (Around × SpelledExpr), SpelledExpr.itemExprs spelled = items := by
  induction items with
  | nil => exact ⟨[], rfl⟩
  | cons item rest ih =>
      rw [List.forall_mem_cons] at h
      obtain ⟨first, hfirst⟩ := h.1 hexact.1
      obtain ⟨others, hothers⟩ := ih h.2 hexact.2
      exact ⟨(tight, first) :: others, by rw [SpelledExpr.itemExprs, hfirst, hothers]⟩

theorem exists_fields {fields : List (String × Expr)} (h : ∀ field ∈ fields, field.2.Spellable)
    (hexact : ExactFields fields) :
    ∃ spelled : List (FieldLayout × String × SpelledExpr),
      SpelledExpr.fieldExprs spelled = fields := by
  induction fields with
  | nil => exact ⟨[], rfl⟩
  | cons field rest ih =>
      obtain ⟨key, value⟩ := field
      rw [List.forall_mem_cons] at h
      obtain ⟨first, hfirst⟩ := h.1 hexact.1
      obtain ⟨others, hothers⟩ := ih h.2 hexact.2
      let layout : FieldLayout := ⟨tight, tight.before, tight.after⟩
      exact ⟨(layout, key, first) :: others, by rw [SpelledExpr.fieldExprs, hfirst, hothers]⟩

theorem array {items : List Expr} (h : ∀ item ∈ items, item.Spellable) :
    (Expr.array items).Spellable := by
  intro hexact
  obtain ⟨spelled, rfl⟩ := exists_items h hexact
  exact ⟨.array tight.before spelled, rfl⟩

theorem object {fields : List (String × Expr)} (h : ∀ field ∈ fields, field.2.Spellable) :
    (Expr.object fields).Spellable := by
  intro hexact
  obtain ⟨spelled, rfl⟩ := exists_fields h hexact
  exact ⟨.object tight.before spelled, rfl⟩

end Spellable

end Expr

namespace Expr.Grammar

theorem string_spellable : Yields string Expr.Spellable :=
  (Yields.always quoted).bind fun text _ => Yields.pure fun _ => ⟨.string text, rfl⟩

theorem exists_of_ofInt? {value : Int} {n : Number} (h : Number.ofInt? value = some n) :
    ∃ lower upper, n = .integer value lower upper := by
  rw [Number.ofInt?] at h
  split at h
  · rename_i lower
    split at h
    · rename_i upper
      cases h
      exact ⟨lower, upper, rfl⟩
    · cases h
  · cases h

/-- Without a point the number is an integer with a sign; with one it is a double. -/
theorem number?_spellable {numeral : Numeral} {n : Number} (h : numeral.number? = some n) :
    (Expr.literal (.number n)).Spellable := by
  intro hexact
  rw [Numeral.number?] at h
  split at h
  · simp only [Option.ite_none_right_eq_some] at h
    obtain ⟨hupper, hfits⟩ := h
    obtain ⟨hlower, hword, rfl⟩ := exists_of_ofInt? hfits
    exact ⟨.integer _ hlower hupper, rfl⟩
  · obtain ⟨value, -, rfl⟩ := Option.map_eq_some_iff.mp h
    exact hexact.elim

theorem number_spellable : Yields number Expr.Spellable := by
  intro text expr rest h
  rw [number] at h
  split at h
  · cases h
  · split at h
    · rename_i n hn
      cases h
      exact number?_spellable hn
    · cases h

theorem bracketed_yields {α : Type} {item : Parser α} {P : α → Prop} (opening closing : Char)
    (h : Yields item P) :
    Yields (bracketed opening closing item) fun values => ∀ value ∈ values, P value :=
  (Yields.always _).bind fun _ _ => (Yields.always _).bind fun _ _ =>
    (h.separated comma).bind fun _ hvalues => (Yields.always _).bind fun _ _ =>
      (Yields.always _).bind fun _ _ => Yields.pure hvalues

theorem array_spellable {item : Parser Expr} (h : Yields item Expr.Spellable) :
    Yields (array item) Expr.Spellable :=
  (bracketed_yields '[' ']' h).bind fun _ hitems => Yields.pure (.array hitems)

theorem object_spellable {item : Parser Expr} (h : Yields item Expr.Spellable) :
    Yields (object item) Expr.Spellable := by
  have hfield : Yields (field item) fun field => field.2.Spellable :=
    (Yields.always _).bind fun _ _ => (Yields.always _).bind fun _ _ =>
      h.commit.bind fun _ hvalue => Yields.pure hvalue
  exact (bracketed_yields '{' '}' hfield).bind fun _ hfields => Yields.pure (.object hfields)

theorem token_yields (kind : TokenClass) (inClass : Char → Bool) :
    Yields (token kind inClass) fun chars => chars ≠ [] ∧ chars.all inClass = true := by
  intro text chars rest h
  rw [token] at h
  split at h
  · cases h
  · rename_i c taken htaken
    cases h
    refine ⟨List.cons_ne_nil c taken, ?_⟩
    rw [← htaken]
    exact List.all_takeWhile

/-- A segment names one key, and a path can name that key. -/
theorem keys_segment {segment : List Char} (hne : segment ≠ [])
    (hall : segment.all isSegmentChar = true) :
    ∃ key : PathKey, DotPath.keys (String.ofList segment) = [key.name] := by
  have hdot : '.' ∉ segment := by
    intro hmem
    have hchar := List.all_eq_true.mp hall '.' hmem
    revert hchar
    decide
  refine ⟨⟨String.ofList (DotPath.unescape segment), ?_, ?_⟩, DotPath.keys_of_not_mem hdot⟩
  · simpa using DotPath.unescape_ne_nil hne
  · rw [String.toList_ofList, List.all_eq_true]
    intro c hc
    rcases DotPath.mem_of_mem_unescape hc with hmem | hpoint
    · simp [List.all_eq_true.mp hall c hmem]
    · simp [hpoint]

theorem exists_path {segments : List (List Char)}
    (h : ∀ segment ∈ segments, segment ≠ [] ∧ segment.all isSegmentChar = true) :
    ∃ path : List PathKey, path.map PathKey.name =
      segments.flatMap fun segment => DotPath.keys (String.ofList segment) := by
  induction segments with
  | nil => exact ⟨[], rfl⟩
  | cons segment rest ih =>
      rw [List.forall_mem_cons] at h
      obtain ⟨key, hkey⟩ := keys_segment h.1.1 h.1.2
      obtain ⟨path, hpath⟩ := ih h.2
      exact ⟨key :: path, by rw [List.map_cons, hpath, List.flatMap_cons, hkey]; rfl⟩

theorem documentPath_spellable : Yields documentPath Expr.Spellable := by
  have hsegment : Yields pathSegment fun chars => chars ≠ [] ∧ chars.all isSegmentChar = true :=
    (Yields.always _).bind fun _ _ => ((token_yields .name isSegmentChar).expect _).commit
  refine hsegment.many.bind fun segments hsegments => Yields.pure fun _ => ?_
  obtain ⟨path, hpath⟩ := exists_path hsegments
  exact ⟨.document path, congrArg Expr.document hpath⟩

theorem exists_call_of_ofCall {function : String} {arguments : List String} {expr : Expr}
    (h : ofCall function arguments = .ok expr) : ∃ call : Call, call.expr = expr := by
  rw [ofCall.eq_def] at h
  split at h <;> cases h
  · exact ⟨.var _, rfl⟩
  · exact ⟨.metadata none, rfl⟩
  · exact ⟨.metadata (some _), rfl⟩
  · exact ⟨.content, rfl⟩
  · exact ⟨.apply _, rfl⟩
  · exact ⟨.throw _, rfl⟩

theorem call_spellable (start : List Char) (function : String) :
    Yields (call start function) Expr.Spellable := by
  refine (Yields.always _).bind fun arguments _ => ?_
  cases hcall : ofCall function arguments with
  | ok expr =>
      obtain ⟨call, rfl⟩ := exists_call_of_ofCall hcall
      exact Yields.pure fun _ => ⟨.call call Spellable.tight.before Spellable.tight, rfl⟩
  | error cause =>
      intro text value rest h
      cases h

theorem word_spellable : Yields word Expr.Spellable := by
  intro text expr rest h
  simp only [word] at h
  split at h
  · cases h
  · split at h
    · exact call_spellable _ _ _ _ _ h
    · split at h
      · cases h
        exact fun _ => ⟨.bool true, rfl⟩
      · cases h
        exact fun _ => ⟨.bool false, rfl⟩
      · cases h
        exact fun _ => ⟨.null, rfl⟩
      · exact documentPath_spellable _ _ _ h
      · cases h

theorem expression_spellable (bound : Nat) : Yields (expression bound) Expr.Spellable := by
  induction bound with
  | zero =>
      intro text value rest h
      cases h
  | succ bound ih =>
      exact (string_spellable.orElse (number_spellable.orElse ((array_spellable ih).orElse
        ((object_spellable ih).orElse word_spellable)))).expect _

end Expr.Grammar

/-- An expression without doubles that some source says has a spelling. -/
theorem Expr.exists_spelled {source rest : List Char} {expr : Expr}
    (h : Expr.parse source = .ok (expr, rest)) (hexact : expr.Exact) :
    ∃ spelled : SpelledExpr, spelled.expr = expr :=
  Grammar.expression_spellable source.length source expr rest h hexact

end Remap
