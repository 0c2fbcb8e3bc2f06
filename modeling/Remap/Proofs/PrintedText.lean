import Remap.Json.Printer
import Remap.Text.Blank

/-!
The characters of JSON text.  None of them is a control character, since strings escape those and
nothing else could write one, so a document is printed on one line; and one of them is not blank.
-/

namespace Remap

/-- The characters from U+0020 on. -/
def isPrinted (c : Char) : Bool :=
  0x20 ≤ c.toNat

theorem isPrinted_of_isDigit {c : Char} (h : c.isDigit = true) : isPrinted c = true := by
  simp only [Char.isDigit, Bool.and_eq_true, decide_eq_true_eq, ge_iff_le, UInt32.le_iff_toNat_le] at h
  have hlow : 48 ≤ c.toNat := h.1
  rw [isPrinted, decide_eq_true_eq]
  omega

/-- A text without control characters in which something can be seen. -/
structure Legible (text : List Char) : Prop where
  printed : ∀ c ∈ text, isPrinted c = true
  visible : ∃ c ∈ text, isBlank c = false

namespace Legible

variable {first second text : List Char} {c : Char}

theorem cons (hprinted : isPrinted c = true) (hvisible : isBlank c = false)
    (h : ∀ d ∈ text, isPrinted d = true) : Legible (c :: text) where
  printed := List.forall_mem_cons.mpr ⟨hprinted, h⟩
  visible := ⟨c, List.mem_cons_self, hvisible⟩

theorem prepend (h : Legible text) (hfirst : ∀ c ∈ first, isPrinted c = true) :
    Legible (first ++ text) where
  printed := List.forall_mem_append.mpr ⟨hfirst, h.printed⟩
  visible := by
    obtain ⟨c, hc, hvisible⟩ := h.visible
    exact ⟨c, List.mem_append_right first hc, hvisible⟩

theorem lineFeed_not_mem (h : Legible text) : '\n' ∉ text := by
  intro hmem
  exact absurd (h.printed '\n' hmem) (by decide)

theorem isBlankText_eq_false (h : Legible text) : isBlankText text = false := by
  obtain ⟨c, hc, hvisible⟩ := h.visible
  rw [isBlankText, List.all_eq_false]
  exact ⟨c, hc, by simp [hvisible]⟩

end Legible

namespace Json

theorem isPrinted_hexDigit (n : Nat) : isPrinted (hexDigit n) = true := by
  have hall : ∀ digit < 16, isPrinted (Nat.digitChar digit) = true := by decide
  exact hall (n % 16) (Nat.mod_lt n (by decide))

theorem printed_escapeChar (c : Char) : ∀ d ∈ escapeChar c, isPrinted d = true := by
  fun_cases escapeChar c with
  | case8 => simp [isPrinted_hexDigit]; decide
  | case9 => simp_all [isPrinted]
  | _ => exact List.all_eq_true.mp (by decide)

theorem legible_quote (text : List Char) : Legible (quote text) := by
  refine .cons (by decide) (by decide) ?_
  rw [List.forall_mem_append]
  refine ⟨fun c hc => ?_, List.all_eq_true.mp (by decide)⟩
  obtain ⟨d, -, hd⟩ := List.mem_flatMap.mp hc
  exact printed_escapeChar d c hd

theorem printed_toDigits (n : Nat) : ∀ c ∈ Nat.toDigits 10 n, isPrinted c = true :=
  fun _ hc => isPrinted_of_isDigit (Nat.isDigit_of_mem_toDigits (by decide) (by decide) hc)

theorem legible_toDigits (n : Nat) : Legible (Nat.toDigits 10 n) := by
  refine ⟨printed_toDigits n, ?_⟩
  obtain ⟨c, rest, hdigits⟩ := List.exists_cons_of_ne_nil (Nat.toDigits_ne_nil (b := 10) (n := n))
  have hdigit : c.isDigit = true :=
    Nat.isDigit_of_mem_toDigits (by decide) (by decide) (hdigits ▸ List.mem_cons_self)
  refine ⟨c, hdigits ▸ List.mem_cons_self, ?_⟩
  simp only [Char.isDigit, Bool.and_eq_true, decide_eq_true_eq, ge_iff_le,
    UInt32.le_iff_toNat_le] at hdigit
  have hbounds : 48 ≤ c.toNat ∧ c.toNat ≤ 57 := hdigit
  simp only [isBlank, Bool.or_eq_false_iff, Bool.and_eq_false_iff, decide_eq_false_iff_not,
    beq_eq_false_iff_ne]
  omega

theorem legible_integerText (value : Int) : Legible (integerText value) := by
  rw [integerText]
  split
  · exact .cons (by decide) (by decide) (printed_toDigits value.natAbs)
  · exact legible_toDigits value.natAbs

section

variable {digits : List Char} (h : ∀ c ∈ digits, isPrinted c = true)

include h

theorem legible_plainDecimal (lead : Int) : Legible (plainDecimal digits lead) := by
  have hzeros (n : Nat) : ∀ c ∈ List.replicate n '0', isPrinted c = true := by
    intro c hc
    rw [List.eq_of_mem_replicate hc]
    decide
  cases lead with
  | ofNat n =>
      rw [plainDecimal]
      refine .prepend (.cons (by decide) (by decide) ?_) ?_
      · split
        · exact List.all_eq_true.mp (by decide)
        · exact fun c hc => h c (List.mem_of_mem_drop hc)
      · rw [List.forall_mem_append]
        exact ⟨fun c hc => h c (List.mem_of_mem_take hc), hzeros _⟩
  | negSucc n =>
      rw [plainDecimal]
      refine .cons (by decide) (by decide) (List.forall_mem_cons.mpr ⟨by decide, ?_⟩)
      rw [List.forall_mem_append]
      exact ⟨hzeros n, h⟩

theorem legible_scientificDecimal (lead : Int) : Legible (scientificDecimal digits lead) := by
  rw [scientificDecimal.eq_def]
  refine .prepend (.cons (by decide) (by decide) (List.forall_mem_cons.mpr ⟨?_, ?_⟩)) ?_
  · split <;> decide
  · exact printed_toDigits lead.natAbs
  · split
    · exact nofun
    · exact h
    · rw [List.forall_mem_cons] at h ⊢
      exact ⟨h.1, List.forall_mem_cons.mpr ⟨by decide, h.2⟩⟩

end

theorem printed_significantDigits (d : Decimal) : ∀ c ∈ d.significantDigits, isPrinted c = true := by
  intro c hc
  rw [Decimal.significantDigits, List.mem_reverse] at hc
  exact printed_toDigits d.digits c (List.mem_reverse.mp ((List.dropWhile_sublist _).mem hc))

theorem legible_realText (x : Binary64) : Legible (realText x) := by
  have hsign : ∀ c ∈ (if x.negative then ['-'] else []), isPrinted c = true := by
    split <;> exact List.all_eq_true.mp (by decide)
  have hdigits := printed_significantDigits x.shortest
  by_cases hzero : x.isZero = true
  · rw [realText, if_pos hzero]
    exact .prepend (.cons (by decide) (by decide) (List.all_eq_true.mp (by decide))) hsign
  · rw [realText, if_neg hzero]
    dsimp only
    by_cases hplain : plainExponents.1 ≤ x.shortest.lead ∧ x.shortest.lead ≤ plainExponents.2
    · rw [if_pos hplain]
      exact (legible_plainDecimal hdigits _).prepend hsign
    · rw [if_neg hplain]
      exact (legible_scientificDecimal hdigits _).prepend hsign

theorem legible_numberText (n : Number) : Legible (numberText n) := by
  cases n with
  | integer value lower upper => exact legible_integerText value
  | real x => exact legible_realText x

mutual

/-- A document is printed on one line that is not blank. -/
theorem legible_print : (value : Value) → Legible (print value)
  | .null => .cons (by decide) (by decide) (List.all_eq_true.mp (by decide))
  | .bool true => .cons (by decide) (by decide) (List.all_eq_true.mp (by decide))
  | .bool false => .cons (by decide) (by decide) (List.all_eq_true.mp (by decide))
  | .number n => legible_numberText n
  | .string s => legible_quote s.toList
  | .array items => by
    refine .cons (by decide) (by decide) ?_
    rw [List.forall_mem_append]
    exact ⟨printed_printItems items, List.all_eq_true.mp (by decide)⟩
  | .object fields => by
    refine .cons (by decide) (by decide) ?_
    rw [List.forall_mem_append]
    exact ⟨printed_printFields fields, List.all_eq_true.mp (by decide)⟩

theorem printed_printItems : (items : List Value) → ∀ c ∈ printItems items, isPrinted c = true
  | [] => nofun
  | [item] => (legible_print item).printed
  | item :: second :: rest => by
    rw [printItems, List.forall_mem_append, List.forall_mem_cons]
    · exact ⟨(legible_print item).printed, by decide, printed_printItems (second :: rest)⟩
    · simp

theorem printed_printFields : (fields : List (String × Value)) →
    ∀ c ∈ printFields fields, isPrinted c = true
  | [] => nofun
  | [(key, field)] => by
    rw [printFields, List.forall_mem_append, List.forall_mem_cons]
    exact ⟨(legible_quote key.toList).printed, by decide, (legible_print field).printed⟩
  | (key, field) :: second :: rest => by
    rw [printFields, List.append_assoc, List.forall_mem_append, List.cons_append,
      List.forall_mem_cons, List.forall_mem_append, List.forall_mem_cons]
    · exact ⟨(legible_quote key.toList).printed, by decide, (legible_print field).printed,
        by decide, printed_printFields (second :: rest)⟩
    · simp

end

end Json

end Remap
