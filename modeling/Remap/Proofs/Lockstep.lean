import Remap.Proofs.Derivation

/-!
Two runs side by side.  The same statements are run in two states, with two tables of maps and two
input documents.  As long as what is read on the way is the same in both runs, they stay in step:
they come to the same results and leave states that are related as the first ones were.  The second
run may fall out of step by a failure that is excused from the outset.
-/

namespace Remap

variable {error other α β : Type}

namespace Outcome

/-- Go on from a value; an error is passed on in the words of what comes next. -/
def andThen (outcome : Outcome error α) (wrap : error → other)
    (next : α → State → Outcome other β) : Outcome other β :=
  match outcome with
  | (.ok value, state) => next value state
  | (.error cause, state) => (.error (wrap cause), state)

/-- The same result in related states, or an excused failure of the second run. -/
def Agrees (R : State → State → Prop) (excused : error → Prop)
    (first second : Outcome error α) : Prop :=
  (first.1 = second.1 ∧ R first.2 second.2) ∨ ∃ cause, second.1 = .error cause ∧ excused cause

section

variable {R : State → State → Prop} {excused : error → Prop} {excusedNext : other → Prop}
  {first second : Outcome error α}

theorem Agrees.same {result : Except error α} {before after : State} (h : R before after) :
    Agrees R excused (result, before) (result, after) :=
  .inl ⟨rfl, h⟩

/-- Runs are in step unless the second one fails and is excused. -/
theorem Agrees.unexcused (h : Agrees R excused first second)
    (hnot : ∀ cause, second.1 = .error cause → ¬excused cause) :
    first.1 = second.1 ∧ R first.2 second.2 := by
  rcases h with hsame | ⟨cause, hcause, hexcused⟩
  · exact hsame
  · exact absurd hexcused (hnot cause hcause)

/-- Runs in step stay in step, if what comes next keeps them so and passes on what is excused. -/
theorem Agrees.andThen (h : Agrees R excused first second) {wrap : error → other}
    (hwrap : ∀ cause, excused cause → excusedNext (wrap cause))
    {next next' : α → State → Outcome other β}
    (hnext : ∀ value before after, R before after →
      Agrees R excusedNext (next value before) (next' value after)) :
    Agrees R excusedNext (Outcome.andThen first wrap next) (Outcome.andThen second wrap next') := by
  obtain ⟨result, before⟩ := first
  obtain ⟨result', after⟩ := second
  rcases h with ⟨hresult, hstates⟩ | ⟨cause, hcause, hexcused⟩
  · cases hresult
    cases result with
    | ok value => exact hnext value before after hstates
    | error cause => exact .same hstates
  · cases hcause
    exact .inr ⟨wrap cause, rfl, hwrap cause hexcused⟩

end

end Outcome

open Outcome (Agrees)

namespace Expr

mutual

/-- The parts of an expression that have no parts of their own, in the order of evaluation. -/
def atoms : Expr → List Expr
  | .array items => atomsOfItems items
  | .object fields => atomsOfFields fields
  | expr => [expr]

def atomsOfItems : List Expr → List Expr
  | [] => []
  | item :: rest => item.atoms ++ atomsOfItems rest

def atomsOfFields : List (String × Expr) → List Expr
  | [] => []
  | (_, field) :: rest => field.atoms ++ atomsOfFields rest

end

mutual

theorem isSimple_or_apply_of_mem_atoms : ∀ (expr : Expr) {atom : Expr}, atom ∈ expr.atoms →
    atom.IsSimple ∨ ∃ name, atom = .apply name
  | .array items, _, h => isSimple_or_apply_of_mem_items items h
  | .object fields, _, h => isSimple_or_apply_of_mem_fields fields h
  | .literal _, _, h | .document _, _, h | .var _, _, h | .metadata _, _, h | .content, _, h
  | .throw _, _, h => .inl (by rw [List.mem_singleton.mp h]; trivial)
  | .apply name, _, h => .inr ⟨name, List.mem_singleton.mp h⟩

theorem isSimple_or_apply_of_mem_items : ∀ (items : List Expr) {atom : Expr},
    atom ∈ atomsOfItems items → atom.IsSimple ∨ ∃ name, atom = .apply name
  | [], _, h => absurd h List.not_mem_nil
  | item :: rest, _, h =>
      (List.mem_append.mp h).elim (isSimple_or_apply_of_mem_atoms item)
        (isSimple_or_apply_of_mem_items rest)

theorem isSimple_or_apply_of_mem_fields : ∀ (fields : List (String × Expr)) {atom : Expr},
    atom ∈ atomsOfFields fields → atom.IsSimple ∨ ∃ name, atom = .apply name
  | [], _, h => absurd h List.not_mem_nil
  | (_, field) :: rest, _, h =>
      (List.mem_append.mp h).elim (isSimple_or_apply_of_mem_atoms field)
        (isSimple_or_apply_of_mem_fields rest)

end

mutual

/-- The maps that an expression applies are those that its atoms apply. -/
theorem apply_mem_atoms_iff {name : String} : ∀ expr : Expr,
    .apply name ∈ expr.atoms ↔ name ∈ expr.applied
  | .array items => apply_mem_items_iff items
  | .object fields => apply_mem_fields_iff fields
  | .apply map => by simp [atoms, applied]
  | .literal _ | .document _ | .var _ | .metadata _ | .content | .throw _ => by
      simp [atoms, applied]

theorem apply_mem_items_iff {name : String} : ∀ items : List Expr,
    .apply name ∈ atomsOfItems items ↔ name ∈ appliedItems items
  | [] => by simp [atomsOfItems, appliedItems]
  | item :: rest => by
      rw [atomsOfItems, List.mem_append, apply_mem_atoms_iff item, apply_mem_items_iff rest,
        appliedItems, List.mem_append]

theorem apply_mem_fields_iff {name : String} : ∀ fields : List (String × Expr),
    .apply name ∈ atomsOfFields fields ↔ name ∈ appliedFields fields
  | [] => by simp [atomsOfFields, appliedFields]
  | (_, field) :: rest => by
      rw [atomsOfFields, List.mem_append, apply_mem_atoms_iff field, apply_mem_fields_iff rest,
        appliedFields, List.mem_append]

end

section

variable {input : Input} {apply : Apply}

theorem eval_array_eq_andThen (items : List Expr) (state : State) :
    eval input apply (.array items) state =
      Outcome.andThen (evalItems input apply items state) id
        fun values state => (.ok (.array values), state) := by
  rw [eval]
  rcases evalItems input apply items state with ⟨_ | values, after⟩ <;> rfl

theorem eval_object_eq_andThen (fields : List (String × Expr)) (state : State) :
    eval input apply (.object fields) state =
      Outcome.andThen (evalFields input apply fields state) id
        fun values state => (.ok (.object (Entries.ofList values)), state) := by
  rw [eval]
  rcases evalFields input apply fields state with ⟨_ | values, after⟩ <;> rfl

theorem evalItems_cons (item : Expr) (rest : List Expr) (state : State) :
    evalItems input apply (item :: rest) state =
      Outcome.andThen (eval input apply item state) id fun value state =>
        Outcome.andThen (evalItems input apply rest state) id
          fun values state => (.ok (value :: values), state) := by
  rw [evalItems]
  rcases eval input apply item state with ⟨_ | value, evaluated⟩
  · rfl
  · simp only [Outcome.andThen]
    rcases evalItems input apply rest evaluated with ⟨_ | values, after⟩ <;> rfl

theorem evalFields_cons (key : String) (field : Expr) (rest : List (String × Expr))
    (state : State) :
    evalFields input apply ((key, field) :: rest) state =
      Outcome.andThen (eval input apply field state) id fun value state =>
        Outcome.andThen (evalFields input apply rest state) id
          fun values state => (.ok ((key, value) :: values), state) := by
  rw [evalFields]
  rcases eval input apply field state with ⟨_ | value, evaluated⟩
  · rfl
  · simp only [Outcome.andThen]
    rcases evalFields input apply rest evaluated with ⟨_ | values, after⟩ <;> rfl

end

section

variable {R : State → State → Prop} {excused : QueryError → Prop} {input₁ input₂ : Input}
  {apply₁ apply₂ : Apply}

/-- Both runs evaluate the expression in step. -/
def InStep (R : State → State → Prop) (excused : QueryError → Prop) (input₁ input₂ : Input)
    (apply₁ apply₂ : Apply) (expr : Expr) : Prop :=
  ∀ before after, R before after →
    Agrees R excused (eval input₁ apply₁ expr before) (eval input₂ apply₂ expr after)

mutual

/-- Runs that evaluate the atoms of an expression in step evaluate the expression in step. -/
theorem inStep_of_atoms : ∀ expr : Expr,
    (∀ atom ∈ expr.atoms, InStep R excused input₁ input₂ apply₁ apply₂ atom) →
      InStep R excused input₁ input₂ apply₁ apply₂ expr
  | .literal _, h | .document _, h | .var _, h | .metadata _, h | .content, h | .apply _, h
  | .throw _, h => h _ List.mem_cons_self
  | .array items, h => by
      intro before after hstates
      rw [eval_array_eq_andThen, eval_array_eq_andThen]
      exact (evalItems_agrees items h before after hstates).andThen (fun _ => id)
        fun values before after => .same
  | .object fields, h => by
      intro before after hstates
      rw [eval_object_eq_andThen, eval_object_eq_andThen]
      exact (evalFields_agrees fields h before after hstates).andThen (fun _ => id)
        fun values before after => .same

theorem evalItems_agrees : ∀ items : List Expr,
    (∀ atom ∈ atomsOfItems items, InStep R excused input₁ input₂ apply₁ apply₂ atom) →
      ∀ before after, R before after →
        Agrees R excused (evalItems input₁ apply₁ items before)
          (evalItems input₂ apply₂ items after)
  | [], _, _, _, hstates => .same hstates
  | item :: rest, h, before, after, hstates => by
      rw [atomsOfItems, List.forall_mem_append] at h
      rw [evalItems_cons, evalItems_cons]
      refine (inStep_of_atoms item h.1 before after hstates).andThen (fun _ => id) ?_
      intro value before after hstates
      exact (evalItems_agrees rest h.2 before after hstates).andThen (fun _ => id)
        fun values before after => .same

theorem evalFields_agrees : ∀ fields : List (String × Expr),
    (∀ atom ∈ atomsOfFields fields, InStep R excused input₁ input₂ apply₁ apply₂ atom) →
      ∀ before after, R before after →
        Agrees R excused (evalFields input₁ apply₁ fields before)
          (evalFields input₂ apply₂ fields after)
  | [], _, _, _, hstates => .same hstates
  | (key, field) :: rest, h, before, after, hstates => by
      rw [atomsOfFields, List.forall_mem_append] at h
      rw [evalFields_cons, evalFields_cons]
      refine (inStep_of_atoms field h.1 before after hstates).andThen (fun _ => id) ?_
      intro value before after hstates
      exact (evalFields_agrees rest h.2 before after hstates).andThen (fun _ => id)
        fun values before after => .same

end

end

end Expr

/-- A relation between the states of two runs on the part at `index` that all statements keep:
related states hold the same variables and the same metadata of that part. -/
structure Paired (index : Nat) (R : State → State → Prop) : Prop where
  vars {first second : State} : R first second → first.vars = second.vars
  metadata {first second : State} : R first second →
    (first.batch.get index).map Part.metadata = (second.batch.get index).map Part.metadata
  keep {first second : State} (places : Places) : R first second →
    R (first.keep index places) (second.keep index places)
  enter {first second : State} : R first second → R first.enter second.enter
  leave {first second : State} : R first second → R first.leave second.leave

section

variable {ε : Type} {R : State → State → Prop} {excused : RootCause → Prop} {index : Nat}

/-- What a statement does with the value of its expression, up to the statements after it. -/
def Statement.assignThen (statement : Statement ε) (index : Nat) (output : Option Value)
    (next : Option Value → State → Outcome RunError (Option Value)) (value : Value)
    (state : State) : Outcome RunError (Option Value) :=
  match state.batch.get index with
  | .error error => (.error (.batch error), state)
  | .ok part =>
      match statement.target.assign value ⟨state.vars, part.metadata, output⟩ with
      | .error error => (.error (.assignment statement.line error), state)
      | .ok places => next places.output (state.keep index places)

theorem runFrom_cons (eval : ε → State → Outcome QueryError Value) (output : Option Value)
    (statement : Statement ε) (rest : List (Statement ε)) (state : State) :
    runFrom eval index output (statement :: rest) state =
      Outcome.andThen (eval statement.query state) (.query statement.line)
        (statement.assignThen index output fun output => runFrom eval index output rest) := by
  rw [runFrom]
  rcases eval statement.query state with ⟨_ | value, evaluated⟩ <;> rfl

/-- Assignments stay in step: what they read of a state is the same in related ones. -/
theorem Statement.assignThen_agrees (paired : Paired index R) (statement : Statement ε)
    (output : Option Value) {next next' : Option Value → State → Outcome RunError (Option Value)}
    (hnext : ∀ output before after, R before after →
      Agrees R (excused ·.root) (next output before) (next' output after))
    (value : Value) (before after : State) (hstates : R before after) :
    Agrees R (excused ·.root) (statement.assignThen index output next value before)
      (statement.assignThen index output next' value after) := by
  have hvars := paired.vars hstates
  have hmetadata := paired.metadata hstates
  cases hfirst : before.batch.get index with
  | error cause =>
      cases hsecond : after.batch.get index with
      | error cause' =>
          rw [hfirst, hsecond] at hmetadata
          cases hmetadata
          simp only [assignThen, hfirst, hsecond]
          exact .same hstates
      | ok part' =>
          rw [hfirst, hsecond] at hmetadata
          cases hmetadata
  | ok part =>
      cases hsecond : after.batch.get index with
      | error cause' =>
          rw [hfirst, hsecond] at hmetadata
          cases hmetadata
      | ok part' =>
          rw [hfirst, hsecond] at hmetadata
          have hsame : part.metadata = part'.metadata := Except.ok.inj hmetadata
          simp only [assignThen, hfirst, hsecond, hvars, hsame]
          cases statement.target.assign value ⟨after.vars, part'.metadata, output⟩ with
          | error cause => exact .same hstates
          | ok places => exact hnext places.output _ _ (paired.keep places hstates)

/-- Runs that evaluate each expression in step carry out the statements in step. -/
theorem runFrom_agrees (paired : Paired index R)
    {eval eval' : ε → State → Outcome QueryError Value} {statements : List (Statement ε)}
    (heval : ∀ statement ∈ statements, ∀ before after, R before after →
      Agrees R (excused ·.root) (eval statement.query before) (eval' statement.query after))
    (output : Option Value) (before after : State) (hstates : R before after) :
    Agrees R (excused ·.root) (runFrom eval index output statements before)
      (runFrom eval' index output statements after) := by
  induction statements generalizing output before after with
  | nil => exact .same hstates
  | cons statement rest ih =>
      rw [List.forall_mem_cons] at heval
      rw [runFrom_cons, runFrom_cons]
      apply (heval.1 before after hstates).andThen
      · exact fun _ => id
      · exact statement.assignThen_agrees paired output (ih heval.2)

end

/-- Two runs on the part at `index` that stay in step on expressions all of whose atoms are such:
what such an atom reads agrees, and both tables have the same maps under the names that such an atom
applies, with such atoms only. -/
structure Lockstep (index : Nat) (R : State → State → Prop) (excused : RootCause → Prop)
    (such : Expr → Prop) (maps₁ maps₂ : Dictionary (List (Statement Expr)))
    (document₁ document₂ : Option Value) : Prop extends Paired index R where
  reads {atom : Expr} (apply₁ apply₂ : Apply) : such atom → atom.IsSimple →
    atom.InStep R (excused ·.root) ⟨document₁, index⟩ ⟨document₂, index⟩ apply₁ apply₂
  maps {name : String} : such (.apply name) → maps₁.get? name = maps₂.get? name
  bodies {name : String} {body : List (Statement Expr)} : such (.apply name) →
    maps₁.get? name = some body → ∀ statement ∈ body, ∀ atom ∈ statement.query.atoms, such atom

namespace Lockstep

variable {index : Nat} {R : State → State → Prop} {excused : RootCause → Prop}
  {such : Expr → Prop} {maps₁ maps₂ : Dictionary (List (Statement Expr))}
  {document₁ document₂ : Option Value} {room₁ room₂ : Nat}

/-- Runs that apply such maps in step evaluate such expressions in step. -/
theorem evalQuery_inStep
    (h : Lockstep index R excused such maps₁ maps₂ document₁ document₂) {apply₁ apply₂ : Apply}
    (happly : ∀ name, such (.apply name) → ∀ before after, R before after →
      Agrees R (excused ·.root) (apply₁ name before) (apply₂ name after))
    {expr : Expr} (hexpr : ∀ atom ∈ expr.atoms, such atom) :
    expr.InStep R (excused ·.root) ⟨document₁, index⟩ ⟨document₂, index⟩ apply₁ apply₂ := by
  apply Expr.inStep_of_atoms
  intro atom hatom
  rcases expr.isSimple_or_apply_of_mem_atoms hatom with hsimple | ⟨name, rfl⟩
  · exact h.reads apply₁ apply₂ (hexpr atom hatom) hsimple
  · exact happly name (hexpr _ hatom)

/-- Maps are applied in step, by induction on the room of the second run.  The first one may have
more room, if running out of it is excused. -/
theorem applyMap_agrees
    (h : Lockstep index R excused such maps₁ maps₂ document₁ document₂) (hle : room₂ ≤ room₁)
    (hlimit : room₂ < room₁ → ∀ map, excused (.recursionLimit map)) {name : String}
    (hname : such (.apply name)) (before after : State) (hstates : R before after) :
    Agrees R (excused ·.root) (applyMap maps₁ ⟨document₁, index⟩ room₁ name before)
      (applyMap maps₂ ⟨document₂, index⟩ room₂ name after) := by
  induction room₂ generalizing room₁ name before after with
  | zero =>
      have hmaps := h.maps hname
      cases hmap : maps₁.get? name with
      | none =>
          rw [Expr.applyMap_undefined hmap, Expr.applyMap_undefined (hmaps.symm.trans hmap)]
          exact .same hstates
      | some body =>
          rw [hmap] at hmaps
          cases room₁ with
          | zero =>
              simp only [applyMap, hmap, ← hmaps]
              exact .same hstates
          | succ room₁ =>
              rw [applyMap]
              simp only [← hmaps]
              exact .inr ⟨_, rfl, hlimit (Nat.succ_pos room₁) name⟩
  | succ room₂ ih =>
      obtain ⟨room₁, rfl⟩ := Nat.exists_eq_add_of_le' (Nat.lt_of_lt_of_le (Nat.succ_pos room₂) hle)
      have hmaps := h.maps hname
      cases hmap : maps₁.get? name with
      | none =>
          rw [Expr.applyMap_undefined hmap, Expr.applyMap_undefined (hmaps.symm.trans hmap)]
          exact .same hstates
      | some body =>
          have hinner : ∀ name, such (.apply name) → ∀ before after, R before after →
              Agrees R (excused ·.root) (applyMap maps₁ ⟨document₁, index⟩ room₁ name before)
                (applyMap maps₂ ⟨document₂, index⟩ room₂ name after) := fun _ =>
            ih (Nat.le_of_succ_le_succ hle) fun hlt => hlimit (Nat.succ_lt_succ hlt)
          have heval : ∀ statement ∈ body, ∀ before after, R before after →
              Agrees R (excused ·.root)
                (Expr.eval ⟨document₁, index⟩ (applyMap maps₁ ⟨document₁, index⟩ room₁)
                  statement.query before)
                (Expr.eval ⟨document₂, index⟩ (applyMap maps₂ ⟨document₂, index⟩ room₂)
                  statement.query after) := fun statement hstatement =>
            h.evalQuery_inStep hinner (h.bodies hname hmap statement hstatement)
          have hrun := runFrom_agrees h.toPaired heval none before.enter after.enter
            (h.enter hstates)
          rw [Expr.applyMap_succ hmap, Expr.applyMap_succ (hmaps.symm.trans hmap)]
          rcases hrun with ⟨hresult, hleft⟩ | ⟨cause, hcause, hexcused⟩
          · exact .inl ⟨congrArg (Expr.resultOf name) hresult, h.leave hleft⟩
          · exact .inr ⟨.apply name cause, congrArg (Expr.resultOf name) hcause, hexcused⟩

/-- Expressions are evaluated in step. -/
theorem eval_inStep
    (h : Lockstep index R excused such maps₁ maps₂ document₁ document₂) (hle : room₂ ≤ room₁)
    (hlimit : room₂ < room₁ → ∀ map, excused (.recursionLimit map)) {expr : Expr}
    (hexpr : ∀ atom ∈ expr.atoms, such atom) :
    expr.InStep R (excused ·.root) ⟨document₁, index⟩ ⟨document₂, index⟩
      (applyMap maps₁ ⟨document₁, index⟩ room₁) (applyMap maps₂ ⟨document₂, index⟩ room₂) :=
  h.evalQuery_inStep (fun _ => h.applyMap_agrees hle hlimit) hexpr

/-- Statements are run in step. -/
theorem run_agrees
    (h : Lockstep index R excused such maps₁ maps₂ document₁ document₂) (hle : room₂ ≤ room₁)
    (hlimit : room₂ < room₁ → ∀ map, excused (.recursionLimit map))
    {statements : List (Statement Expr)}
    (hstatements : ∀ statement ∈ statements, ∀ atom ∈ statement.query.atoms, such atom)
    (output : Option Value) (before after : State) (hstates : R before after) :
    Agrees R (excused ·.root)
      (runFrom (Expr.eval ⟨document₁, index⟩ (applyMap maps₁ ⟨document₁, index⟩ room₁)) index output
        statements before)
      (runFrom (Expr.eval ⟨document₂, index⟩ (applyMap maps₂ ⟨document₂, index⟩ room₂)) index output
        statements after) := by
  apply runFrom_agrees h.toPaired _ output before after hstates
  exact fun statement hstatement => h.eval_inStep hle hlimit (hstatements statement hstatement)

end Lockstep

end Remap
