import Remap.Proofs.EncodedText
import Remap.Proofs.SourceLiterals

/-!
Documents in parts.  A document that is written into a part is read back from it, unless it nests
deeper than the reader goes; the printer has no such limit.  So a run can leave a document that the
next run on the same part does not find.
-/

namespace Remap

namespace Json

/-- What is printed is read back, if it does not nest too deep. -/
theorem read?_print {value : Value} (hsorted : value.Sorted) (hexact : value.Exact) :
    read? (print value) = if value.depth ≤ nestingLimit then some value else none := by
  have hread := readValue_print value hsorted hexact nestingLimit Opens.nil
  rw [List.append_nil] at hread
  rw [read?, whole?, hread, readBack]
  by_cases hdepth : value.depth ≤ nestingLimit
  · rw [if_pos hdepth, if_pos hdepth]
    rfl
  · rw [if_neg hdepth, if_neg hdepth]

end Json

theorem Part.document?_withDocument (part : Part) {document : Value} (hsorted : document.Sorted)
    (hexact : document.Exact) :
    (part.withDocument document).document? =
      if document.depth ≤ Json.nestingLimit then some document else none := by
  rw [Part.document?, Part.withDocument, Json.readBytes?, Utf8.decode?, Utf8.decode_encode]
  exact Json.read?_print hsorted hexact

namespace Batch

variable {batch : Batch} {index : Nat} {part : Part}

theorem get_commit_some (h : batch.get index = .ok part) (document : Value) :
    (batch.commit index (some document)).get index = .ok (part.withDocument document) := by
  rw [get_eq_ok_iff, commit, List.getElem?_modify_eq, get_eq_ok_iff.mp h]
  rfl

theorem write_eq_commit (h : batch.get index = .ok part) (document : Value) :
    batch.write index document = .ok (batch.commit index (some document)) :=
  modify_of_get h _

theorem commit_eq_set (h : batch.get index = .ok part) (document : Value) :
    batch.commit index (some document) =
      ⟨batch.parts.set index (part.withDocument document)⟩ := by
  have hwrite := write_eq_commit h document
  rw [write, modify, h] at hwrite
  exact (Except.ok.inj hwrite).symm

theorem read_of_get (h : batch.get index = .ok part) :
    batch.read index = part.document?.elim (.error .notJson) .ok := by
  rw [read, h]
  simp only [bind, Except.bind]
  cases part.document? <;> rfl

/-- Reading after writing. -/
theorem read_commit (h : batch.get index = .ok part) {document : Value}
    (hsorted : document.Sorted) (hexact : document.Exact) :
    (batch.commit index (some document)).read index =
      if document.depth ≤ Json.nestingLimit then .ok document else .error .notJson := by
  rw [read_of_get (get_commit_some h document), part.document?_withDocument hsorted hexact]
  by_cases hdepth : document.depth ≤ Json.nestingLimit
  · rw [if_pos hdepth, if_pos hdepth]
    rfl
  · rw [if_neg hdepth, if_neg hdepth]
    rfl

end Batch

/-- A document without doubles that is written into a part is read back as it was, if it nests no
deeper than the reader goes, and otherwise the part does not count as JSON; other parts and all
metadata stay as they were.  So what a run commits is the input document of the next run on the part
exactly if it does not nest too deep, and otherwise the next run has no input document.  Sorted
fields are all that is asked of the literals of a plan, and those of every parsed plan have them. -/
theorem stored_document_reads_back :
    (∀ (batch : Batch) (index : Nat) (part : Part) (document : Value),
      batch.get index = .ok part → document.Sorted → document.Exact →
      ∃ written, batch.write index document = .ok written ∧
        (document.depth ≤ Json.nestingLimit → written.read index = .ok document) ∧
        (Json.nestingLimit < document.depth → written.read index = .error .notJson) ∧
        written.size = batch.size ∧
        (∀ other, other ≠ index → written.parts[other]? = batch.parts[other]?) ∧
        written.parts.map Part.metadata = batch.parts.map Part.metadata) ∧
    (∀ (plan next : Plan Expr) (batch : Batch) (index : Nat) (part : Part) (document : Value),
      batch.get index = .ok part → plan.SortedLiterals →
      plan.Commits part index batch document → document.Exact →
      ∃ later, (plan.mapPart index batch).2.get index = .ok later ∧
        (document.depth ≤ Json.nestingLimit → later.document? = some document ∧
          ∀ path state, next.evalPart later index (.document path) state =
            (.ok ((document.get? path).getD .null), state)) ∧
        (Json.nestingLimit < document.depth → later.document? = none ∧
          ∀ path state, next.evalPart later index (.document path) state =
            (.error .noDocument, state))) ∧
    ∀ (file : Option String) (source : List Char) (plan : Plan Expr),
      Plan.parse file source = .ok plan → plan.SortedLiterals := by
  refine ⟨?_, ?_, fun _ _ _ => Plan.sortedLiterals_of_parse⟩
  · intro batch index part document hpart hsorted hexact
    have hkept := batch.commit_kept index (some document)
    have hread := Batch.read_commit hpart hsorted hexact
    refine ⟨_, Batch.write_eq_commit hpart document, ?_, ?_, hkept.size, hkept.others,
      batch.map_metadata_commit index (some document)⟩
    · intro hdepth
      rw [hread, if_pos hdepth]
    · intro hdepth
      rw [hread, if_neg (Nat.not_le_of_lt hdepth)]
  · intro plan next batch index part document hpart hliterals hcommits hexact
    have hsorted := hliterals.sorted_of_execPart hcommits.1
    obtain ⟨left, hleft⟩ := (plan.execPart_framed part index batch).exists_get_eq_ok hpart
    have hlater := left.document?_withDocument hsorted hexact
    have hget : (plan.mapPart index batch).2.get index = .ok (left.withDocument document) := by
      rw [hcommits.2]
      exact Batch.get_commit_some hleft document
    refine ⟨_, hget, ?_, ?_⟩
    · intro hdepth
      rw [if_pos hdepth] at hlater
      refine ⟨hlater, ?_⟩
      intro path state
      rw [Plan.evalPart, hlater]
      rfl
    · intro hdepth
      rw [if_neg (Nat.not_le_of_lt hdepth)] at hlater
      refine ⟨hlater, ?_⟩
      intro path state
      rw [Plan.evalPart, hlater]
      rfl

/-- Null in so many arrays. -/
def nestedArrays : Nat → Value
  | 0 => .null
  | levels + 1 => .array [nestedArrays levels]

theorem depth_nestedArrays (levels : Nat) : (nestedArrays levels).depth = levels := by
  induction levels with
  | zero => rfl
  | succ levels ih =>
      rw [nestedArrays, Value.depth, Value.depthItems, Value.depthItems, ih, Nat.max_zero]

theorem sorted_nestedArrays (levels : Nat) : (nestedArrays levels).Sorted := by
  induction levels with
  | zero => trivial
  | succ levels ih => exact ⟨ih, trivial⟩

theorem exact_nestedArrays (levels : Nat) : (nestedArrays levels).Exact := by
  induction levels with
  | zero => trivial
  | succ levels ih => exact ⟨ih, trivial⟩

/-- Puts the input document into one more array. -/
def wrapsInput : Plan Expr where
  maps := .empty
  statements := [⟨1, .path [], .array [.document []]⟩]

theorem commits_wrapsInput {part : Part} {levels : Nat}
    (h : part.document? = some (nestedArrays levels)) :
    wrapsInput.Commits part 0 ⟨[part]⟩ (nestedArrays (levels + 1)) := by
  rw [Plan.commits_iff rfl, Plan.execPart, h]
  cases levels <;> rfl

/-- A run on the deepest document that can be read leaves one that cannot. -/
theorem stored_document_reads_back_of_wrapsInput :
    ∃ written, (Batch.ofContents [[65], [66]]).write 1 (nestedArrays 127) = .ok written ∧
      written.read 1 = .ok (nestedArrays 127) ∧ written.parts[0]? = some (.ofContent [65]) ∧
      ∀ part, written.get 1 = .ok part →
        ∃ later, (wrapsInput.mapPart 0 ⟨[part]⟩).2.get 0 = .ok later ∧ later.document? = none := by
  obtain ⟨hwrites, hruns, -⟩ := stored_document_reads_back
  obtain ⟨written, hwrite, hread, -, -, hothers, -⟩ := hwrites (.ofContents [[65], [66]]) 1
    (.ofContent [66]) (nestedArrays 127) rfl (sorted_nestedArrays 127) (exact_nestedArrays 127)
  have hdepth : (nestedArrays 127).depth ≤ Json.nestingLimit := Nat.le_of_eq (depth_nestedArrays 127)
  refine ⟨written, hwrite, hread hdepth, hothers 0 (by decide), ?_⟩
  intro part hpart
  have hdocument : part.document? = some (nestedArrays 127) := by
    have hfound := hread hdepth
    rw [Batch.read_of_get hpart] at hfound
    cases hpartDocument : part.document? with
    | none =>
        rw [hpartDocument] at hfound
        cases hfound
    | some document =>
        rw [hpartDocument] at hfound
        exact congrArg some (Except.ok.inj hfound)
  have hliterals : wrapsInput.SortedLiterals := by
    refine ⟨?_, nofun⟩
    rw [wrapsInput, List.forall_mem_singleton]
    exact .array (List.forall_mem_singleton.mpr (.of_atoms rfl nofun))
  obtain ⟨later, hget, -, hdeep⟩ := hruns wrapsInput wrapsInput ⟨[part]⟩ 0 part (nestedArrays 128)
    rfl hliterals (commits_wrapsInput hdocument) (exact_nestedArrays 128)
  have hdeeper : Json.nestingLimit < (nestedArrays 128).depth := by
    rw [depth_nestedArrays]
    decide
  exact ⟨later, hget, (hdeep hdeeper).1⟩

end Remap
