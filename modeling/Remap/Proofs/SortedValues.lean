import Remap.Proofs.Lockstep
import Remap.Proofs.PathLaws
import Remap.Proofs.ReadBack

/-!
Sorted values.  The fields of every object that comes up in a run are in key order: those of the
input document are, because the reader puts them in order, and evaluation, assignment and applied
maps build only such objects out of such objects.
-/

namespace Remap

namespace Entries

variable {α : Type}

theorem sorted_ofList (pairs : List (String × α)) : Sorted (ofList pairs) := by
  have hfold (entries : Entries α) (h : Sorted entries) :
      Sorted (pairs.foldl (fun entries pair => Entries.insert pair.1 pair.2 entries) entries) := by
    induction pairs generalizing entries with
    | nil => exact h
    | cons pair rest ih => exact ih _ (h.insert pair.1 pair.2)
  exact hfold [] .nil

theorem mem_of_mem_ofList {pairs : List (String × α)} {pair : String × α}
    (h : pair ∈ ofList pairs) : pair ∈ pairs := by
  have hfold (entries : Entries α)
      (hmem : pair ∈
        pairs.foldl (fun entries pair => Entries.insert pair.1 pair.2 entries) entries) :
      pair ∈ pairs ∨ pair ∈ entries := by
    clear h
    induction pairs generalizing entries with
    | nil => exact .inr hmem
    | cons first rest ih =>
        rcases ih _ hmem with hrest | hinsert
        · exact .inl (List.mem_cons_of_mem first hrest)
        · rcases mem_insert hinsert with heq | hentry
          · exact .inl (heq ▸ List.mem_cons_self)
          · exact .inr hentry
  exact (hfold [] h).resolve_right List.not_mem_nil

theorem exists_mem_of_find? {key : String} {entries : Entries α} {value : α}
    (h : find? key entries = some value) : (key, value) ∈ entries := by
  induction entries with
  | nil => cases h
  | cons head rest ih =>
      obtain ⟨k, v⟩ := head
      rw [find?] at h
      split at h
      · cases h
      · split at h
        · rename_i heq
          cases h
          exact heq ▸ List.mem_cons_self
        · exact List.mem_cons_of_mem _ (ih h)

/-- No key of sorted entries occurs twice, so each entry is found. -/
theorem Sorted.find?_of_mem {key : String} {entries : Entries α} {value : α} (h : Sorted entries)
    (hmem : (key, value) ∈ entries) : find? key entries = some value := by
  induction entries with
  | nil => exact absurd hmem List.not_mem_nil
  | cons head rest ih =>
      obtain ⟨k, v⟩ := head
      have hhead := (List.pairwise_cons.mp h).1
      rcases List.mem_cons.mp hmem with heq | hrest
      · cases heq
        rw [find?, if_neg (String.lt_irrefl key), if_pos rfl]
      · have hlt : k < key := hhead _ hrest
        have hnot : ¬key < k := fun hkey => String.lt_irrefl k (String.lt_trans hlt hkey)
        have hne : key ≠ k := fun heq => String.lt_irrefl k (heq ▸ hlt)
        rw [find?, if_neg hnot, if_neg hne, ih (List.pairwise_cons.mp h).2 hrest]

end Entries

theorem Dictionary.mem_entries_iff {α : Type} (dictionary : Dictionary α) (key : String)
    (value : α) : (key, value) ∈ dictionary.entries ↔ dictionary.get? key = some value :=
  ⟨dictionary.sorted.find?_of_mem, Entries.exists_mem_of_find?⟩

namespace Value

theorem sortedItems_iff {items : List Value} :
    SortedItems items ↔ ∀ item ∈ items, item.Sorted := by
  induction items with
  | nil => simp [SortedItems]
  | cons item rest ih => rw [SortedItems, ih, List.forall_mem_cons]

theorem sortedFields_iff {fields : List (String × Value)} :
    SortedFields fields ↔ ∀ field ∈ fields, field.2.Sorted := by
  induction fields with
  | nil => simp [SortedFields]
  | cons field rest ih => rw [SortedFields, ih, List.forall_mem_cons]

/-- A value without parts has no fields. -/
theorem sorted_of_depth_eq_zero {value : Value} (h : value.depth = 0) : value.Sorted := by
  cases value with
  | array items | object fields => cases h
  | null | bool _ | number _ | string _ => trivial

theorem sorted_array {items : List Value} (h : ∀ item ∈ items, item.Sorted) :
    (array items).Sorted :=
  sortedItems_iff.mpr h

/-- Fields that are put in order make a sorted object, whatever order they had. -/
theorem sorted_object {fields : List (String × Value)} (h : ∀ field ∈ fields, field.2.Sorted) :
    (object (Entries.ofList fields)).Sorted := by
  refine ⟨Entries.sorted_ofList fields, sortedFields_iff.mpr ?_⟩
  intro field hfield
  exact h field (Entries.mem_of_mem_ofList hfield)

section

variable {document child value found written : Value} {key : String} {path : List String}

theorem Sorted.of_child? (h : document.Sorted) (hchild : document.child? key = some child) :
    child.Sorted := by
  cases document with
  | array items =>
      obtain ⟨index, -, hitem⟩ := Option.bind_eq_some_iff.mp hchild
      exact sortedItems_iff.mp h child (List.mem_of_getElem? hitem)
  | object fields => exact sortedFields_iff.mp h.2 _ (Entries.exists_mem_of_find? hchild)
  | null | bool _ | number _ | string _ => cases hchild

theorem Sorted.of_enter (h : document.Sorted) (henter : document.enter key = .ok child) :
    child.Sorted := by
  rcases enter_cases henter with hchild | ⟨-, -, rfl⟩
  · exact h.of_child? hchild
  · exact ⟨.nil, trivial⟩

theorem Sorted.put (h : document.Sorted) (hchild : child.Sorted) (key : String) :
    (document.put key child).Sorted := by
  cases document with
  | array items =>
      have hitems := sortedItems_iff.mp h
      apply sorted_array
      intro other hother
      cases hindex : arrayIndex? key with
      | none =>
          rw [hindex] at hother
          exact hitems other hother
      | some index =>
          rw [hindex] at hother
          rcases List.mem_or_eq_of_mem_set hother with hold | rfl
          · exact hitems other hold
          · exact hchild
  | object fields =>
      refine ⟨h.1.insert key child, sortedFields_iff.mpr ?_⟩
      intro other hother
      rcases Entries.mem_insert hother with rfl | hold
      · exact hchild
      · exact sortedFields_iff.mp h.2 other hold
  | null | bool _ | number _ | string _ => exact ⟨List.pairwise_singleton _ _, hchild, trivial⟩

theorem Sorted.of_get? (h : document.Sorted) (hget : document.get? path = some found) :
    found.Sorted := by
  induction path generalizing document with
  | nil =>
      rw [get?_nil] at hget
      cases hget
      exact h
  | cons key rest ih =>
      rw [get?_cons] at hget
      obtain ⟨child, hchild, hrest⟩ := Option.bind_eq_some_iff.mp hget
      exact ih (h.of_child? hchild) hrest

theorem Sorted.of_set (hdocument : document.Sorted) (hvalue : value.Sorted)
    (hset : document.set path value = .ok written) : written.Sorted := by
  induction path generalizing document written with
  | nil =>
      rw [set_nil] at hset
      cases hset
      exact hvalue
  | cons key rest ih =>
      obtain ⟨child, below, henter, hbelow, rfl⟩ := set_cons_eq_ok_iff.mp hset
      exact hdocument.put (ih (hdocument.of_enter henter) hbelow) key

end

end Value

/-- The texts of metadata entries are values without fields. -/
theorem Metadata.sorted_toValue (metadata : Metadata) : metadata.toValue.Sorted := by
  refine ⟨(metadata.map Value.string).sorted, Value.sortedFields_iff.mpr ?_⟩
  intro field hfield
  obtain ⟨entry, -, rfl⟩ := List.mem_map.mp hfield
  trivial

namespace Json

/-- What holds of each value that is read holds of a list of them. -/
theorem forall_mem_of_readList {α : Type} {P : α → Prop} {closing : Char} {item : Reader α}
    (hitem : ∀ text value rest, item text = some (value, rest) → P value) {bound : Nat}
    {text rest : List Char} {values : List α}
    (h : readList closing item bound text = some (values, rest)) : ∀ value ∈ values, P value := by
  induction bound generalizing text values with
  | zero => cases h
  | succ bound ih =>
      rw [readList] at h
      obtain ⟨⟨value, after⟩, hvalue, hmore⟩ := Option.bind_eq_some_iff.mp h
      have hfirst := hitem text value after hvalue
      simp only at hmore
      split at hmore
      · cases hmore
      · split at hmore
        · obtain ⟨⟨others, left⟩, hothers, hcons⟩ := Option.bind_eq_some_iff.mp hmore
          cases hcons
          exact List.forall_mem_cons.mpr ⟨hfirst, ih hothers⟩
        · split at hmore
          · cases hmore
            exact List.forall_mem_singleton.mpr hfirst
          · cases hmore

theorem forall_mem_of_readArray {α : Type} {P : α → Prop} {item : Reader α}
    (hitem : ∀ text value rest, item text = some (value, rest) → P value) {text rest : List Char}
    {values : List α} (h : readArray item text = some (values, rest)) :
    ∀ value ∈ values, P value := by
  rw [readArray] at h
  split at h
  · cases h
    exact List.forall_mem_nil P
  · rw [readItems_eq_readList] at h
    exact forall_mem_of_readList hitem h

theorem forall_mem_of_readObject {α : Type} {P : α → Prop} {item : Reader α}
    (hitem : ∀ text value rest, item text = some (value, rest) → P value) {text rest : List Char}
    {fields : List (String × α)} (h : readObject item text = some (fields, rest)) :
    ∀ field ∈ fields, P field.2 := by
  have hfield : ∀ text field rest, readField item text = some (field, rest) → P field.2 := by
    intro text field rest hread
    rw [readField] at hread
    split at hread
    · obtain ⟨⟨key, after⟩, -, hcolon⟩ := Option.bind_eq_some_iff.mp hread
      simp only at hcolon
      split at hcolon
      · obtain ⟨⟨value, left⟩, hvalue, hpair⟩ := Option.bind_eq_some_iff.mp hcolon
        cases hpair
        exact hitem _ value left hvalue
      · cases hcolon
    · cases hread
  rw [readObject] at h
  split at h
  · cases h
    exact List.forall_mem_nil _
  · rw [readFields_eq_readList] at h
    exact forall_mem_of_readList hfield h

/-- What is read is a value without parts, or an array or an object one level down. -/
theorem readValue_eq_some {levels : Nat} {text rest : List Char} {value : Value}
    (h : readValue levels text = some (value, rest)) :
    value.depth = 0 ∨
    (∃ inner after items, levels = inner + 1 ∧
      readArray (readValue inner) after = some (items, rest) ∧ value = .array items) ∨
    ∃ inner after fields, levels = inner + 1 ∧
      readObject (readValue inner) after = some (fields, rest) ∧
      value = .object (Entries.ofList fields) := by
  rw [readValue] at h
  split at h
  · cases h
    exact .inl rfl
  · cases h
    exact .inl rfl
  · cases h
    exact .inl rfl
  · obtain ⟨found, -, hfound⟩ := Option.map_eq_some_iff.mp h
    cases hfound
    exact .inl rfl
  · split at h
    · cases h
    · rename_i inner
      obtain ⟨⟨items, left⟩, hread, hfound⟩ := Option.map_eq_some_iff.mp h
      cases hfound
      exact .inr (.inl ⟨inner, _, items, rfl, hread, rfl⟩)
  · split at h
    · cases h
    · rename_i inner
      obtain ⟨⟨fields, left⟩, hread, hfound⟩ := Option.map_eq_some_iff.mp h
      cases hfound
      exact .inr (.inr ⟨inner, _, fields, rfl, hread, rfl⟩)
  · obtain ⟨found, -, hfound⟩ := Option.map_eq_some_iff.mp h
    cases hfound
    exact .inl rfl

theorem sorted_of_readValue {levels : Nat} {text rest : List Char} {value : Value}
    (h : readValue levels text = some (value, rest)) : value.Sorted := by
  induction levels generalizing text value rest with
  | zero =>
      rcases readValue_eq_some h with hdepth | ⟨inner, _, _, hlevels, _⟩ | ⟨inner, _, _, hlevels, _⟩
      · exact Value.sorted_of_depth_eq_zero hdepth
      · cases hlevels
      · cases hlevels
  | succ levels ih =>
      have hinner : ∀ text value rest, readValue levels text = some (value, rest) → value.Sorted :=
        fun _ _ _ => ih
      rcases readValue_eq_some h with hdepth | ⟨inner, after, items, hlevels, hread, rfl⟩ |
        ⟨inner, after, fields, hlevels, hread, rfl⟩
      · exact Value.sorted_of_depth_eq_zero hdepth
      · cases hlevels
        exact Value.sorted_array (forall_mem_of_readArray hinner hread)
      · cases hlevels
        exact Value.sorted_object (forall_mem_of_readObject hinner hread)

end Json

/-- The document in a part is sorted. -/
theorem Part.sorted_of_document? {part : Part} {document : Value}
    (h : part.document? = some document) : document.Sorted := by
  obtain ⟨text, -, hread⟩ := Option.bind_eq_some_iff.mp h
  rw [Json.read?, Json.whole?] at hread
  split at hread
  · rename_i value rest hvalue
    split at hread
    · cases hread
      exact Json.sorted_of_readValue hvalue
    · cases hread
  · cases hread

/-- The values of all variables are sorted. -/
def SortedVars (vars : Vars) : Prop :=
  ∀ name value, vars.get? name = some value → value.Sorted

/-- The document is sorted, if there is one. -/
def SortedIfAny (document : Option Value) : Prop :=
  ∀ value, document = some value → value.Sorted

theorem sortedIfAny_none : SortedIfAny none :=
  nofun

/-- The literals of an expression are sorted, as those of every expression from a source are. -/
def Expr.SortedLiterals (expr : Expr) : Prop :=
  ∀ value, .literal value ∈ expr.atoms → value.Sorted

namespace Expr

theorem atomsOfFields_eq (fields : List (String × Expr)) :
    atomsOfFields fields = atomsOfItems (fields.map (·.2)) := by
  induction fields with
  | nil => rfl
  | cons field rest ih => rw [atomsOfFields, ih, List.map_cons, atomsOfItems]

/-- What has no parts of its own and reads sorted values is sorted. -/
theorem IsSimple.sorted {expr : Expr} (h : expr.IsSimple) (hliterals : expr.SortedLiterals)
    {input : Input} (hinput : SortedIfAny input.document)
    {state : State} (hvars : SortedVars state.vars) {apply : Apply} {value : Value}
    (heval : (eval input apply expr state).1 = .ok value) : value.Sorted := by
  cases expr with
  | array items | object fields | apply map => exact h.elim
  | literal found =>
      cases heval
      exact hliterals value List.mem_cons_self
  | throw message => cases heval
  | document path =>
      rw [eval] at heval
      split at heval
      · cases heval
      · rename_i whole hwhole
        cases heval
        cases hfound : whole.get? path with
        | none => trivial
        | some found => exact (hinput whole hwhole).of_get? hfound
  | var name =>
      rw [eval] at heval
      split at heval
      · cases heval
      · rename_i found hfound
        cases heval
        exact hvars name value hfound
  | metadata key =>
      rw [eval] at heval
      split at heval
      · cases heval
      · rename_i part hpart
        cases key with
        | none =>
            cases heval
            exact part.metadata.sorted_toValue
        | some key =>
            cases heval
            cases part.metadata.get? key <;> trivial
  | content =>
      rw [eval] at heval
      split at heval
      · cases heval
      · cases heval
        trivial

end Expr

theorem Target.sorted_of_assign {target : Target} {value : Value} {before after : Places}
    (hvalue : value.Sorted) (hvars : SortedVars before.vars) (houtput : SortedIfAny before.output)
    (h : target.assign value before = .ok after) :
    SortedVars after.vars ∧ SortedIfAny after.output := by
  rcases Target.assign_cases h with ⟨name, -, rfl⟩ | ⟨name, -, rfl⟩ | ⟨fields, -, -, rfl⟩ |
    ⟨segments, written, -, hwritten, rfl⟩
  · refine ⟨?_, houtput⟩
    intro other found hfound
    by_cases hother : other = name
    · rw [hother, Dictionary.get?_insert_self] at hfound
      cases hfound
      exact hvalue
    · rw [Dictionary.get?_insert_of_ne _ hother] at hfound
      exact hvars other found hfound
  · exact ⟨hvars, houtput⟩
  · exact ⟨hvars, houtput⟩
  · refine ⟨hvars, ?_⟩
    intro document hdocument
    cases hdocument
    have hbefore : (before.output.getD (.object [])).Sorted := by
      cases hfound : before.output with
      | none => exact ⟨.nil, trivial⟩
      | some found => exact houtput found hfound
    exact hbefore.of_set hvalue hwritten

theorem exists_ok_of_map_eq_ok {ε α β : Type} {f : α → β} {outcome : Except ε α} {result : β}
    (h : outcome.map f = .ok result) : ∃ value, outcome = .ok value ∧ f value = result := by
  cases outcome with
  | error cause => cases h
  | ok value => exact ⟨value, rfl, Except.ok.inj h⟩

namespace Expr

theorem exists_ok_of_resultOf {map : String} {result : Except RunError (Option Value)}
    {value : Value} (h : resultOf map result = .ok value) :
    ∃ output, result = .ok output ∧ output.getD .null = value := by
  cases result with
  | error cause => cases h
  | ok output => exact ⟨output, rfl, Except.ok.inj h⟩

/-- All that evaluation starts from is sorted: the literals in the maps and the input document. -/
structure SortedSources (maps : Dictionary (List (Statement Expr))) (input : Input) : Prop where
  literals (name : String) (body : List (Statement Expr)) : maps.get? name = some body →
    ∀ statement ∈ body, statement.query.SortedLiterals
  document : SortedIfAny input.document

section

variable {maps : Dictionary (List (Statement Expr))} {input : Input}

mutual

/-- Evaluation comes from sorted values to sorted values, one case for each of its rules. -/
theorem Evaluates.sorted {expr : Expr} {state after : State} {trace : Trace}
    {result : Except QueryError Value} (h : SortedSources maps input)
    (hliterals : expr.SortedLiterals) (hvars : SortedVars state.vars) :
    Evaluates maps input expr state trace result after →
      SortedVars after.vars ∧ ∀ value, result = .ok value → value.Sorted
  | .simple _ hsimple => ⟨hvars, fun _ => hsimple.sorted hliterals h.document hvars⟩
  | .array hitems => by
      obtain ⟨hafter, hvalues⟩ := EvaluatesAll.sorted h hliterals hvars hitems
      refine ⟨hafter, ?_⟩
      intro value hvalue
      obtain ⟨values, hresult, rfl⟩ := exists_ok_of_map_eq_ok hvalue
      exact Value.sorted_array (hvalues values hresult)
  | @Evaluates.object _ _ fields _ _ _ _ hfields => by
      have hitems : ∀ value, .literal value ∈ atomsOfItems (fields.map (·.2)) → value.Sorted := by
        rw [← atomsOfFields_eq]
        exact hliterals
      obtain ⟨hafter, hvalues⟩ := EvaluatesAll.sorted h hitems hvars hfields
      refine ⟨hafter, ?_⟩
      intro value hvalue
      obtain ⟨values, hresult, rfl⟩ := exists_ok_of_map_eq_ok hvalue
      apply Value.sorted_object
      intro field hfield
      exact hvalues values hresult field.2 (List.of_mem_zip hfield).2
  | .undefinedMap _ => ⟨hvars, nofun⟩
  | .recursionLimit _ _ => ⟨hvars, nofun⟩
  | .apply hmap _ hbody => by
      have henter : SortedVars state.enter.vars := hvars
      obtain ⟨hafter, hfinal⟩ := Runs.sorted h (h.literals _ _ hmap) henter sortedIfAny_none hbody
      refine ⟨hafter, ?_⟩
      intro value hvalue
      obtain ⟨final, hresult, rfl⟩ := exists_ok_of_resultOf hvalue
      cases final with
      | none => trivial
      | some document => exact hfinal _ hresult document rfl

theorem EvaluatesAll.sorted {items : List Expr} {state after : State} {trace : Trace}
    {result : Except QueryError (List Value)} (h : SortedSources maps input)
    (hliterals : ∀ value, .literal value ∈ atomsOfItems items → value.Sorted)
    (hvars : SortedVars state.vars) :
    EvaluatesAll maps input items state trace result after →
      SortedVars after.vars ∧ ∀ values, result = .ok values → ∀ value ∈ values, value.Sorted
  | .nil => ⟨hvars, fun values hvalues => Except.ok.inj hvalues ▸ List.forall_mem_nil _⟩
  | @EvaluatesAll.stop _ _ item _ _ _ _ _ hitem => by
      have hfirst : item.SortedLiterals := fun value hvalue =>
        hliterals value (List.mem_append_left _ hvalue)
      exact ⟨(Evaluates.sorted h hfirst hvars hitem).1, nofun⟩
  | @EvaluatesAll.cons _ _ item _ _ _ _ _ _ _ _ hitem hrest => by
      have hfirst : item.SortedLiterals := fun value hvalue =>
        hliterals value (List.mem_append_left _ hvalue)
      have hothers := fun value hvalue => hliterals value (List.mem_append_right item.atoms hvalue)
      obtain ⟨hbetween, hvalue⟩ := Evaluates.sorted h hfirst hvars hitem
      obtain ⟨hafter, hvalues⟩ := EvaluatesAll.sorted h hothers hbetween hrest
      refine ⟨hafter, ?_⟩
      intro all hall
      obtain ⟨values, hresult, rfl⟩ := exists_ok_of_map_eq_ok hall
      exact List.forall_mem_cons.mpr ⟨hvalue _ rfl, hvalues values hresult⟩

theorem Runs.sorted {output : Option Value} {statements : List (Statement Expr)}
    {state after : State} {trace : Trace} {result : Except RunError (Option Value)}
    (h : SortedSources maps input) (hliterals : ∀ statement ∈ statements, statement.query.SortedLiterals)
    (hvars : SortedVars state.vars) (houtput : SortedIfAny output) :
    Runs maps input output statements state trace result after →
      SortedVars after.vars ∧ ∀ final, result = .ok final → SortedIfAny final
  | .nil => ⟨hvars, fun final hfinal => Except.ok.inj hfinal ▸ houtput⟩
  | .query hquery => by
      rw [List.forall_mem_cons] at hliterals
      exact ⟨(Evaluates.sorted h hliterals.1 hvars hquery).1, nofun⟩
  | .batch hquery _ => by
      rw [List.forall_mem_cons] at hliterals
      exact ⟨(Evaluates.sorted h hliterals.1 hvars hquery).1, nofun⟩
  | .assignment hquery _ _ => by
      rw [List.forall_mem_cons] at hliterals
      exact ⟨(Evaluates.sorted h hliterals.1 hvars hquery).1, nofun⟩
  | @Runs.cons _ _ _ _ _ _ evaluated _ _ _ _ _ places _ hquery _ hplaces hrest => by
      rw [List.forall_mem_cons] at hliterals
      obtain ⟨hevaluated, hvalue⟩ := Evaluates.sorted h hliterals.1 hvars hquery
      obtain ⟨hkept, hwritten⟩ :=
        Target.sorted_of_assign (hvalue _ rfl) hevaluated houtput hplaces
      have hstate : SortedVars (evaluated.keep input.index places).vars := hkept
      exact Runs.sorted h hliterals.2 hstate hwritten hrest

end

end

end Expr

namespace Plan

/-- All literals of the plan are sorted. -/
def SortedLiterals (plan : Plan Expr) : Prop :=
  (∀ statement ∈ plan.statements, statement.query.SortedLiterals) ∧
    ∀ name body, plan.maps.get? name = some body →
      ∀ statement ∈ body, statement.query.SortedLiterals

/-- The document that a run builds is sorted. -/
theorem SortedLiterals.sorted_of_execPart {plan : Plan Expr} (h : plan.SortedLiterals) {part : Part}
    {index : Nat} {batch : Batch} {document : Value}
    (hrun : (plan.execPart part index batch).1 = .ok (some document)) : document.Sorted := by
  have hsources : Expr.SortedSources plan.maps ⟨part.document?, index⟩ :=
    ⟨h.2, fun _ => Part.sorted_of_document?⟩
  have hpair : run plan.maps ⟨part.document?, index⟩ plan.statements (.start batch) =
      (.ok (some document), (plan.execPart part index batch).2) := Prod.ext hrun rfl
  obtain ⟨trace, htrace⟩ := Expr.exists_runs_iff.mpr hpair
  have hstart : SortedVars (State.start batch).vars := nofun
  exact (htrace.sorted hsources h.1 hstart sortedIfAny_none).2 _ rfl document rfl

end Plan

end Remap
