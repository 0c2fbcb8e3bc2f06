import Remap.Proofs.FailFast
import Remap.Proofs.SeparateParts
import Remap.Proofs.Staging

/-!
Metadata is read live.  Besides variables it is a second state that statements share: an expression
that reads an entry, or all of them, finds what the statements before it have written.  These two
reads are the only way in which such a write can be seen.  Give the value of a metadata statement to
a variable that nothing reads, and the values stay as they are up to the first statement that reads
an entry which it had written.
-/

namespace Remap

namespace Metadata

/-- What reading one entry gives, null where there is none, or reading all of them. -/
def read (metadata : Metadata) (key : Option String) : Value :=
  match key with
  | none => metadata.toValue
  | some key => (metadata.get? key).elim .null .string

/-- The same metadata but for the entries under these keys. -/
structure SameBut (keys : List String) (first second : Metadata) : Prop where
  entry {key : String} : key ∉ keys → first.get? key = second.get? key
  whole : keys = [] → first = second

end Metadata

theorem Dictionary.get?_insert_congr {α : Type} {first second : Dictionary α} {key : String}
    (h : first.get? key = second.get? key) (other : String) (value : α) :
    (first.insert other value).get? key = (second.insert other value).get? key := by
  by_cases hkey : key = other
  · rw [hkey, get?_insert_self, get?_insert_self]
  · rw [get?_insert_of_ne _ hkey, get?_insert_of_ne _ hkey, h]

namespace Places

theorem get?_mergeMetadata_congr {first second : Metadata} {key : String}
    (h : first.get? key = second.get? key) (fields : List (String × Value)) :
    (mergeMetadata first fields).get? key = (mergeMetadata second fields).get? key := by
  induction fields generalizing first second with
  | nil => exact h
  | cons field rest ih => exact ih (Dictionary.get?_insert_congr h field.1 field.2.toText)

theorem get?_mergeMetadata_of_not_mem {key : String} {fields : List (String × Value)}
    (h : key ∉ fields.map (·.1)) (metadata : Metadata) :
    (mergeMetadata metadata fields).get? key = metadata.get? key := by
  induction fields generalizing metadata with
  | nil => rfl
  | cons field rest ih =>
      rw [List.map_cons, List.mem_cons, not_or] at h
      have hrest := ih h.2 (metadata.insert field.1 field.2.toText)
      rw [Dictionary.get?_insert_of_ne _ h.1] at hrest
      exact hrest

end Places

namespace Target

/-- The keys of the metadata entries that writing the value sets. -/
def entries (target : Target) (value : Value) : List String :=
  match target, value with
  | .metadata (some key), _ => [key]
  | .metadata none, .object fields => fields.map (·.1)
  | _, _ => []

theorem get?_writtenTo_congr {first second : Metadata} {key : String}
    (h : first.get? key = second.get? key) (target : Target) (value : Value) :
    (target.writtenTo value first).get? key = (target.writtenTo value second).get? key := by
  cases target with
  | var _ | path _ => exact h
  | metadata name =>
      cases name with
      | some name => exact Dictionary.get?_insert_congr h name value.toText
      | none =>
          cases value with
          | object fields => exact Places.get?_mergeMetadata_congr h fields
          | _ => exact h

/-- A write leaves the metadata the same but for the entries that it sets. -/
theorem sameBut_writtenTo (target : Target) (value : Value) (metadata : Metadata) :
    (target.writtenTo value metadata).SameBut (target.entries value) metadata := by
  cases target with
  | var _ | path _ => exact ⟨fun _ => rfl, fun _ => rfl⟩
  | metadata name =>
      cases name with
      | some name =>
          refine ⟨fun hkey => ?_, fun hnone => absurd hnone (List.cons_ne_nil name [])⟩
          exact Dictionary.get?_insert_of_ne _ (List.ne_of_not_mem_cons hkey) value.toText
      | none =>
          cases value with
          | object fields =>
              refine ⟨fun hkey => ?_, fun hnone => ?_⟩
              · exact Places.get?_mergeMetadata_of_not_mem hkey metadata
              rw [List.map_eq_nil_iff.mp hnone]
              rfl
          | _ => exact ⟨fun _ => rfl, fun _ => rfl⟩

end Target

namespace Metadata.SameBut

variable {keys : List String} {first second : Metadata}

/-- A value that is written to the same target leaves no new difference. -/
theorem writtenTo (h : first.SameBut keys second) (target : Target) (value : Value) :
    (target.writtenTo value first).SameBut keys (target.writtenTo value second) where
  entry hkey := target.get?_writtenTo_congr (h.entry hkey) value
  whole hnone := by rw [h.whole hnone]

theorem read_eq (h : first.SameBut keys second) {key : Option String}
    (hkey : ∀ name, key = some name → name ∉ keys) (hall : key = none → keys = []) :
    first.read key = second.read key := by
  cases key with
  | none => rw [h.whole (hall rfl)]
  | some name => rw [read, read, h.entry (hkey name rfl)]

end Metadata.SameBut

/-- The same variables but for one, and the same part but for the entries under these keys. -/
structure State.SameBut (index : Nat) (name : String) (keys : List String)
    (first second : State) : Prop where
  vars {other : String} : other ≠ name → first.vars.get? other = second.vars.get? other
  part : ∃ part metadata, first.batch.get index = .ok part ∧
    second.batch.get index = .ok { part with metadata } ∧ part.metadata.SameBut keys metadata

namespace Target

theorem vars_of_assign {target : Target} {value : Value} {before after : Places}
    (h : target.assign value before = .ok after) :
    after.vars = match target with
      | .var name => before.vars.insert name value
      | _ => before.vars := by
  rcases Target.assign_cases h with ⟨name, rfl, rfl⟩ | ⟨key, rfl, rfl⟩ | ⟨fields, rfl, rfl, rfl⟩ |
    ⟨segments, written, rfl, -, rfl⟩ <;> rfl

end Target

theorem State.get_keep {state : State} {index : Nat} {part : Part}
    (h : state.batch.get index = .ok part) (places : Places) :
    (state.keep index places).batch.get index = .ok { part with metadata := places.metadata } := by
  rw [State.keep, Batch.get_setMetadata, h]
  rfl

namespace State.SameBut

variable {index : Nat} {name : String} {keys : List String} {first second : State}
  {part : Part} {output output' : Option Value} {places places' : Places} {value : Value}

/-- One assignment in both runs leaves no new difference. -/
theorem keep {part' : Part} {target : Target} (h : first.SameBut index name keys second)
    (hpart : first.batch.get index = .ok part) (hpart' : second.batch.get index = .ok part')
    (hplaces : target.assign value ⟨first.vars, part.metadata, output⟩ = .ok places)
    (hplaces' : target.assign value ⟨second.vars, part'.metadata, output'⟩ = .ok places') :
    (first.keep index places).SameBut index name keys (second.keep index places') := by
  obtain ⟨found, metadata, hfound, hfound', hmetadata⟩ := h.part
  rw [hpart] at hfound
  cases hfound
  rw [hpart'] at hfound'
  cases hfound'
  refine ⟨fun {other} hother => ?_, { part with metadata := places.metadata }, places'.metadata,
    get_keep hpart places, get_keep hpart' places', ?_⟩
  · change places.vars.get? other = places'.vars.get? other
    rw [Target.vars_of_assign hplaces, Target.vars_of_assign hplaces']
    cases target with
    | var bound => exact Dictionary.get?_insert_congr (h.vars hother) bound value
    | metadata _ | path _ => exact h.vars hother
  · change places.metadata.SameBut keys places'.metadata
    rw [Target.metadata_of_assign hplaces, Target.metadata_of_assign hplaces']
    exact hmetadata.writtenTo target value

/-- Where one run writes metadata and the other one a variable, they differ in that variable and in
the entries that were written. -/
theorem of_retargeted {key : Option String} {state : State}
    (hpart : state.batch.get index = .ok part)
    (hplaces : (Target.metadata key).assign value ⟨state.vars, part.metadata, output⟩ = .ok places)
    (hplaces' : (Target.var name).assign value ⟨state.vars, part.metadata, output'⟩ = .ok places') :
    (state.keep index places).SameBut index name ((Target.metadata key).entries value)
      (state.keep index places') := by
  refine ⟨fun {other} hother => ?_, { part with metadata := places.metadata }, places'.metadata,
    get_keep hpart places, get_keep hpart places', ?_⟩
  · change places.vars.get? other = places'.vars.get? other
    rw [Target.vars_of_assign hplaces, Target.vars_of_assign hplaces']
    exact (Dictionary.get?_insert_of_ne _ hother value).symm
  · change places.metadata.SameBut _ places'.metadata
    rw [Target.metadata_of_assign hplaces, Target.metadata_of_assign hplaces']
    exact Target.sameBut_writtenTo _ value part.metadata

end State.SameBut

namespace Expr

/-- The expression reads one of these metadata entries, by its key or among all of them. -/
def ReadsEntry (keys : List String) (expr : Expr) : Prop :=
  (∃ key ∈ keys, .metadata (some key) ∈ expr.atoms) ∨ (keys ≠ [] ∧ .metadata none ∈ expr.atoms)

section

variable {input : Input} {apply : Apply} {expr : Expr}

theorem eval_metadata (apply : Apply) {state : State} {part : Part}
    (hpart : state.batch.get input.index = .ok part) (key : Option String) :
    eval input apply (.metadata key) state = (.ok (part.metadata.read key), state) := by
  rw [eval, hpart]
  cases key <;> rfl

/-- Without applying maps an expression leaves the state alone. -/
theorem eval_state_of_applied_nil (h : expr.applied = []) (state : State) :
    (eval input apply expr state).2 = state := by
  have hstep : expr.InStep (fun before after => before = state ∧ after = state) (fun _ => False)
      input input apply apply := by
    apply inStep_of_atoms
    rintro atom hatom before after ⟨rfl, rfl⟩
    rcases expr.isSimple_or_apply_of_mem_atoms hatom with hsimple | ⟨map, rfl⟩
    · rw [hsimple.eval_eq apply apply]
      exact .same ⟨rfl, rfl⟩
    · rw [expr.apply_mem_atoms_iff, h] at hatom
      cases hatom
  exact ((hstep state state ⟨rfl, rfl⟩).unexcused fun _ _ => id).2.1

/-- Neither the variable nor the entries in which the states differ are read. -/
theorem inStep_of_sameBut (input : Input) (apply : Apply) {name : String} {keys : List String}
    (happlied : expr.applied = []) (hvar : .var name ∉ expr.atoms)
    (hentry : ¬expr.ReadsEntry keys) :
    expr.InStep (State.SameBut input.index name keys) (fun _ => False) input input apply apply := by
  apply inStep_of_atoms
  intro atom hatom before after hstates
  obtain ⟨part, metadata, hpart, hpart', hmetadata⟩ := hstates.part
  cases atom with
  | literal value | throw message => exact .same hstates
  | array items | object fields =>
      rcases expr.isSimple_or_apply_of_mem_atoms hatom with hsimple | ⟨map, hmap⟩
      · exact hsimple.elim
      · cases hmap
  | document path =>
      rw [eval, eval]
      cases input.document <;> exact .same hstates
  | var other =>
      have hother : other ≠ name := fun heq => hvar (heq ▸ hatom)
      rw [eval, eval, hstates.vars hother]
      cases after.vars.get? other <;> exact .same hstates
  | metadata key =>
      have hread : part.metadata.read key = metadata.read key := by
        refine hmetadata.read_eq (fun entry heq hmem => ?_) fun heq => ?_
        · exact hentry (.inl ⟨entry, hmem, heq ▸ hatom⟩)
        · exact not_not.mp fun hkeys => hentry (.inr ⟨hkeys, heq ▸ hatom⟩)
      rw [eval_metadata apply hpart, eval_metadata apply hpart', hread]
      exact .same hstates
  | content =>
      rw [eval, eval, hpart, hpart']
      exact .same hstates
  | apply map =>
      rw [expr.apply_mem_atoms_iff, happlied] at hatom
      cases hatom

end

end Expr

namespace Completes

variable {ε : Type} {eval : ε → State → Outcome QueryError Value} {index : Nat}
  {output output' final final' : Option Value} {state state' after after' : State}
  {before rest : List (Statement ε)} {values values' : List Value}

/-- A run of statements is a run of the first ones and one of the others. -/
theorem exists_of_append
    (h : Completes eval index output state (before ++ rest) values final after) :
    ∃ earlier later reached between, values = earlier ++ later ∧ earlier.length = before.length ∧
      Completes eval index output state before earlier reached between ∧
      Completes eval index reached between rest later final after := by
  induction before generalizing output state values with
  | nil => exact ⟨[], values, output, state, rfl, rfl, .nil, h⟩
  | cons statement before ih =>
      cases h with
      | cons hvalue hpart hplaces hrest =>
          obtain ⟨earlier, later, reached, between, rfl, hlength, hbefore, hlater⟩ := ih hrest
          exact ⟨_ :: earlier, later, reached, between, rfl, congrArg (· + 1) hlength,
            .cons hvalue hpart hplaces hbefore, hlater⟩

/-- Where the values of two runs differ from related states on, an expression up to there tells such
states apart and has another value itself. -/
theorem exists_reader_of_ne {name : String} {keys : List String} {reads : ε → Prop}
    (hstates : state.SameBut index name keys state')
    (heval : ∀ statement ∈ rest, ∀ first second, first.SameBut index name keys second →
      (eval statement.query first).2.SameBut index name keys (eval statement.query second).2 ∧
        (¬reads statement.query →
          (eval statement.query first).1 = (eval statement.query second).1))
    (hfirst : Completes eval index output state rest values final after)
    (hsecond : Completes eval index output' state' rest values' final' after') {place : Nat}
    (hne : values[place]? ≠ values'[place]?) :
    ∃ between reader, between ≤ place ∧ rest[between]? = some reader ∧ reads reader.query ∧
      values[between]? ≠ values'[between]? := by
  induction rest generalizing output output' state state' values values' place with
  | nil =>
      cases hfirst
      cases hsecond
      exact absurd rfl hne
  | cons statement rest ih =>
      rw [List.forall_mem_cons] at heval
      cases hfirst with
      | @cons _ _ _ _ _ value _ _ _ _ _ hvalue hpart hplaces hrest =>
          cases hsecond with
          | @cons _ _ _ _ _ value' _ _ _ _ _ hvalue' hpart' hplaces' hrest' =>
              obtain ⟨hleft, hresult⟩ := heval.1 state state' hstates
              rw [hvalue, hvalue'] at hleft hresult
              by_cases hsame : value = value'
              · cases hsame
                cases place with
                | zero => exact absurd rfl hne
                | succ place =>
                    obtain ⟨between, reader, hle, hreader⟩ := ih
                      (hleft.keep hpart hpart' hplaces hplaces') heval.2 hrest hrest' hne
                    exact ⟨between + 1, reader, Nat.succ_le_succ hle, hreader⟩
              · refine ⟨0, statement, Nat.zero_le place, rfl, ?_, by simpa using hsame⟩
                by_contra hreads
                exact hsame (Except.ok.inj (hresult hreads))

end Completes

namespace Plan

/-- The plan with another target for the statement at a position. -/
def retarget {ε : Type} (plan : Plan ε) (position : Nat) (target : Target) : Plan ε :=
  { plan with statements := plan.statements.modify position ({ · with target }) }

/-- Where a statement reads metadata, its value is what the statements before it have written onto
the metadata of the part. -/
def ReadsLive (plan : Plan Expr) (part : Part) (values : List Value) : Prop :=
  ∀ (position line : Nat) (target : Target) (key : Option String) (value : Value),
    plan.statements[position]? = some ⟨line, target, .metadata key⟩ →
    values[position]? = some value →
      value = (Trace.writtenTo ((plan.statements.zip values).take position) part.metadata).read key

section

variable {plan : Plan Expr} {index : Nat} {batch : Batch} {part : Part}

/-- A statement that reads metadata finds what the statements before it have written. -/
theorem eq_read_of_completes {output final : Option Value} {state after : State}
    {statements : List (Statement Expr)} {values : List Value}
    (h : Completes (plan.evalPart part index) index output state statements values final after)
    (happlied : ∀ statement ∈ statements, statement.query.applied = []) {held : Part}
    (hheld : state.batch.get index = .ok held) {position line : Nat} {target : Target}
    {key : Option String} {value : Value}
    (hstatement : statements[position]? = some ⟨line, target, .metadata key⟩)
    (hvalue : values[position]? = some value) :
    value = (Trace.writtenTo ((statements.zip values).take position) held.metadata).read key := by
  induction h generalizing position held with
  | nil => cases hstatement
  | @cons output final state evaluated after first found places statement rest values hfirst
      hfound hplaces hrest ih =>
      rw [List.forall_mem_cons] at happlied
      cases position with
      | zero =>
          cases hstatement
          cases hvalue
          have hread : plan.evalPart part index (.metadata key) state =
              (.ok (held.metadata.read key), state) :=
            Expr.eval_metadata (applyMap plan.maps ⟨part.document?, index⟩ maxApplyDepth) hheld key
          rw [hread] at hfirst
          cases hfirst
          rfl
      | succ position =>
          have hsame : (plan.evalPart part index statement.query state).2 = state :=
            statement.query.eval_state_of_applied_nil happlied.1 state
          rw [hfirst] at hsame
          subst hsame
          rw [hheld] at hfound
          cases hfound
          have hlater := ih happlied.2 (State.get_keep hheld places) hstatement hvalue
          rwa [Target.metadata_of_assign hplaces] at hlater

theorem readsLive_of_succeeds {values : List Value} (hpart : batch.get index = .ok part)
    (happlied : ∀ statement ∈ plan.statements, statement.query.applied = [])
    (h : plan.Succeeds part index batch values) : plan.ReadsLive part values := by
  obtain ⟨final, after, hcompletes⟩ := h
  intro position line target key value hstatement hvalue
  exact eq_read_of_completes hcompletes happlied hpart hstatement hvalue

variable {name : String} {key : Option String} {line position : Nat} {query : Expr}
  {before after : List (Statement Expr)} {values values' : List Value}

/-- An expression that applies no map leaves the states as they are, with the same differences. -/
theorem evalPart_of_sameBut {keys : List String} (happlied : query.applied = [])
    (hunread : .var name ∉ query.atoms) {first second : State}
    (hstates : first.SameBut index name keys second) :
    (plan.evalPart part index query first).2.SameBut index name keys
        (plan.evalPart part index query second).2 ∧
      (¬query.ReadsEntry keys → (plan.evalPart part index query first).1 =
        (plan.evalPart part index query second).1) := by
  constructor
  · have hleft (state : State) : (plan.evalPart part index query state).2 = state :=
      query.eval_state_of_applied_nil happlied state
    rw [hleft, hleft]
    exact hstates
  · intro hnot
    have hstep := Expr.inStep_of_sameBut ⟨part.document?, index⟩
      (applyMap plan.maps ⟨part.document?, index⟩ maxApplyDepth) happlied hunread hnot
    exact ((hstep first second hstates).unexcused fun _ _ => id).1

/-- Two runs that differ in the target of one statement, metadata in the first and a variable that
nothing reads in the second, differ in their values only from a read of what was written on. -/
theorem exists_values_of_retargeted {output output' final final' : Option Value}
    {state left left' : State}
    (hfirst : Completes (plan.evalPart part index) index output state
      (before ++ ⟨line, .metadata key, query⟩ :: after) values final left)
    (hsecond : Completes (plan.evalPart part index) index output' state
      (before ++ ⟨line, .var name, query⟩ :: after) values' final' left')
    (happlied : ∀ statement ∈ after, statement.query.applied = [])
    (hunread : ∀ statement ∈ after, .var name ∉ statement.query.atoms) :
    ∃ earlier value later later', earlier.length = before.length ∧
      values = earlier ++ value :: later ∧ values' = earlier ++ value :: later' ∧
      ∀ place, later[place]? ≠ later'[place]? →
        ∃ (between : Nat) (reader : Statement Expr), between ≤ place ∧
          after[between]? = some reader ∧
          reader.query.ReadsEntry ((Target.metadata key).entries value) ∧
          later[between]? ≠ later'[between]? := by
  obtain ⟨earlier, rest, reached, between, rfl, hlength, hbefore, hrest⟩ := hfirst.exists_of_append
  obtain ⟨earlier', rest', reached', between', rfl, -, hbefore', hrest'⟩ :=
    hsecond.exists_of_append
  have hrefl : List.Forall₂ Statement.Similar before before :=
    List.forall₂_same.mpr fun statement _ => .refl statement
  obtain ⟨rfl, rfl⟩ := hbefore.eq_of_similar hrefl hbefore'
  cases hrest with
  | cons hvalue hpart hplaces hlater =>
      cases hrest' with
      | cons hvalue' hpart' hplaces' hlater' =>
          rw [hvalue] at hvalue'
          cases hvalue'
          rw [hpart] at hpart'
          cases hpart'
          refine ⟨earlier, _, _, _, hlength, rfl, rfl, fun place hne => ?_⟩
          refine hlater.exists_reader_of_ne (.of_retargeted hpart hplaces hplaces') ?_ hlater' hne
          exact fun statement hmem first second => evalPart_of_sameBut (happlied statement hmem)
            (hunread statement hmem)

theorem statements_retarget {statement : Statement Expr}
    (h : plan.statements[position]? = some statement) (target : Target) :
    plan.statements =
        plan.statements.take position ++ statement :: plan.statements.drop (position + 1) ∧
      (plan.retarget position target).statements =
        plan.statements.take position ++
          { statement with target } :: plan.statements.drop (position + 1) := by
  obtain ⟨hlt, hget⟩ := List.getElem?_eq_some_iff.mp h
  constructor
  · rw [← hget, ← List.drop_eq_getElem_cons hlt, List.take_append_drop]
  · rw [retarget, List.modify_eq_take_cons_drop hlt, hget]

theorem applied_retarget {statement : Statement Expr}
    (happlied : ∀ statement ∈ plan.statements, statement.query.applied = [])
    (h : plan.statements[position]? = some statement) (target : Target) :
    ∀ statement ∈ (plan.retarget position target).statements, statement.query.applied = [] := by
  obtain ⟨hsplit, hsplit'⟩ := statements_retarget h target
  rw [hsplit, List.forall_mem_append, List.forall_mem_cons] at happlied
  rw [hsplit', List.forall_mem_append, List.forall_mem_cons]
  exact happlied

/-- Where the values of two such runs differ, an entry has been read in between that was written. -/
theorem exists_reader_of_ne {statement : Statement Expr}
    (happlied : ∀ statement ∈ plan.statements, statement.query.applied = [])
    (hunread : ∀ statement ∈ plan.statements, .var name ∉ statement.query.atoms)
    (hstatement : plan.statements[position]? = some statement)
    (htarget : statement.target = .metadata key)
    (hfirst : plan.Succeeds part index batch values)
    (hsecond : (plan.retarget position (.var name)).Succeeds part index batch values') :
    ∃ value, values[position]? = some value ∧
      ∀ other, values[other]? ≠ values'[other]? →
        ∃ between reader, position < between ∧ between ≤ other ∧
          plan.statements[between]? = some reader ∧
          reader.query.ReadsEntry ((Target.metadata key).entries value) ∧
          values[between]? ≠ values'[between]? := by
  obtain ⟨final, left, hfirst⟩ := hfirst
  obtain ⟨final', left', hsecond⟩ := hsecond
  obtain ⟨hsplit, hsplit'⟩ := statements_retarget hstatement (.var name)
  obtain ⟨line, target, query⟩ := statement
  cases htarget
  have hlength : (plan.statements.take position).length = position := by
    have hlt := (List.getElem?_eq_some_iff.mp hstatement).1
    rw [List.length_take, Nat.min_eq_left (Nat.le_of_lt hlt)]
  have hafter : ∀ statement ∈ plan.statements.drop (position + 1), statement ∈ plan.statements :=
    fun _ => List.mem_of_mem_drop
  rw [hsplit] at hfirst
  rw [hsplit'] at hsecond
  obtain ⟨earlier, value, later, later', hearlier, rfl, rfl, hreader⟩ :=
    exists_values_of_retargeted hfirst hsecond
      (fun statement hmem => happlied statement (hafter statement hmem))
      (fun statement hmem => hunread statement (hafter statement hmem))
  rw [hlength] at hearlier
  have hupTo : (earlier ++ [value]).length = position + 1 := by
    rw [List.length_append, hearlier, List.length_singleton]
  have hbehind (tail : List Value) (place : Nat) :
      (earlier ++ value :: tail)[position + 1 + place]? = tail[place]? := by
    rw [List.append_cons, List.getElem?_append_right (by omega), hupTo, Nat.add_sub_cancel_left]
  refine ⟨value, by simp [← hearlier], fun other hne => ?_⟩
  have hlater : position + 1 ≤ other := by
    by_contra hle
    have hbefore (tail : List Value) :
        (earlier ++ value :: tail)[other]? = (earlier ++ [value])[other]? := by
      rw [List.append_cons, List.getElem?_append_left (by omega)]
    exact hne ((hbefore later).trans (hbefore later').symm)
  obtain ⟨place, rfl⟩ := Nat.exists_eq_add_of_le hlater
  rw [hbehind, hbehind] at hne
  obtain ⟨between, reader, hle, hget, hreads, hdiffer⟩ := hreader place hne
  rw [List.getElem?_drop] at hget
  refine ⟨position + 1 + between, reader, by omega, by omega, hget, hreads, ?_⟩
  rw [hbehind, hbehind]
  exact hdiffer

end

/-- Metadata statements of a plan that applies no maps share metadata with the statements after
them.  A statement that reads metadata has for its value what the statements before it have written
onto the metadata of the part.  Let a metadata statement bind an unread variable instead: a value
changes only if a statement after it, that one or one before it, reads by its key or among all
entries one which the metadata statement sets, and has another value itself. -/
theorem metadata_is_read_live (plan : Plan Expr) (index : Nat) (batch : Batch) (part : Part)
    (hpart : batch.get index = .ok part)
    (happlied : ∀ statement ∈ plan.statements, statement.query.applied = [])
    (position : Nat) (statement : Statement Expr) (key : Option String)
    (hstatement : plan.statements[position]? = some statement)
    (htarget : statement.target = .metadata key) (name : String)
    (hunread : ∀ statement ∈ plan.statements, .var name ∉ statement.query.atoms)
    (values values' : List Value) (hfirst : plan.Succeeds part index batch values)
    (hsecond : (plan.retarget position (.var name)).Succeeds part index batch values') :
    plan.ReadsLive part values ∧ (plan.retarget position (.var name)).ReadsLive part values' ∧
      ∃ value, values[position]? = some value ∧
        ∀ other, values[other]? ≠ values'[other]? →
          ∃ between reader, position < between ∧ between ≤ other ∧
            plan.statements[between]? = some reader ∧
            reader.query.ReadsEntry ((Target.metadata key).entries value) ∧
            values[between]? ≠ values'[between]? :=
  ⟨readsLive_of_succeeds hpart happlied hfirst,
    readsLive_of_succeeds hpart (applied_retarget happlied hstatement _) hsecond,
    exists_reader_of_ne happlied hunread hstatement htarget hfirst hsecond⟩

/-- An entry is written to metadata, and then read by its key and among all entries. -/
def writesThenReads : Plan Expr where
  maps := .empty
  statements := [⟨1, .metadata (some "k"), .literal (.string "v")⟩,
    ⟨2, .path ["a"], .metadata (some "k")⟩, ⟨3, .path ["b"], .metadata none⟩]

theorem writesThenReads_succeeds :
    writesThenReads.Succeeds (.ofContent [49]) 0 (.ofContents [[49]])
      [.string "v", .string "v", .object [("k", .string "v")]] :=
  ⟨_, _, .cons rfl rfl rfl (.cons rfl rfl rfl (.cons rfl rfl rfl .nil))⟩

theorem retarget_writesThenReads_succeeds :
    (writesThenReads.retarget 0 (.var "x")).Succeeds (.ofContent [49]) 0 (.ofContents [[49]])
      [.string "v", .null, .object []] :=
  ⟨_, _, .cons rfl rfl rfl (.cons rfl rfl rfl (.cons rfl rfl rfl .nil))⟩

/-- Statements share metadata as well as variables: both reads see what was written before. -/
theorem exists_value_changed_by_retargeting :
    ∃ (plan : Plan Expr) (index : Nat) (batch : Batch) (part : Part) (position : Nat)
      (statement : Statement Expr) (key name : String) (values values' : List Value),
      batch.get index = .ok part ∧
      (∀ statement ∈ plan.statements, statement.query.applied = []) ∧
      plan.statements[position]? = some statement ∧ statement.target = .metadata (some key) ∧
      (∀ statement ∈ plan.statements, .var name ∉ statement.query.atoms) ∧
      (plan.mapPart index batch).1 = .ok () ∧
      ((plan.retarget position (.var name)).mapPart index batch).1 = .ok () ∧
      plan.Succeeds part index batch values ∧
      (plan.retarget position (.var name)).Succeeds part index batch values' ∧
      values[position + 1]? ≠ values'[position + 1]? ∧
      values[position + 2]? ≠ values'[position + 2]? := by
  refine ⟨writesThenReads, 0, .ofContents [[49]], .ofContent [49], 0, _, "k", "x", _, _, rfl, ?_,
    rfl, rfl, ?_, rfl, rfl, writesThenReads_succeeds, retarget_writesThenReads_succeeds, ?_, ?_⟩
  · simp [writesThenReads, Expr.applied]
  · simp [writesThenReads, Expr.atoms]
  · simp
  · simp

theorem metadata_is_read_live_of_writesThenReads :
    Value.string "v" = Metadata.read (.insert .empty "k" "v") (some "k") ∧
    ∃ between reader, 0 < between ∧ between ≤ 1 ∧
      writesThenReads.statements[between]? = some reader ∧ reader.query.ReadsEntry ["k"] := by
  have happlied : ∀ statement ∈ writesThenReads.statements, statement.query.applied = [] := by
    simp [writesThenReads, Expr.applied]
  have hunread : ∀ statement ∈ writesThenReads.statements,
      .var "x" ∉ statement.query.atoms := by
    simp [writesThenReads, Expr.atoms]
  obtain ⟨hread, -, _, -, hreader⟩ :=
    metadata_is_read_live writesThenReads 0 (.ofContents [[49]]) (.ofContent [49]) rfl happlied
      0 _ (some "k") rfl rfl "x" hunread _ _ writesThenReads_succeeds
      retarget_writesThenReads_succeeds
  obtain ⟨between, reader, hpositive, hle, hget, hreads, -⟩ := hreader 1 (by simp)
  exact ⟨hread 1 2 (.path ["a"]) (some "k") (.string "v") rfl rfl, between, reader, hpositive, hle,
    hget, hreads⟩

end Plan

end Remap
