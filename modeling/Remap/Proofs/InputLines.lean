import Remap.Proofs.EncodedText
import Remap.Stream.Lines

/-!
Lines of bytes.  Each line but the last ends with its one line feed, so bytes may be split into
lines piece by piece and lines that are joined come back.  A byte of an encoded text is a line feed
only where the text has one.
-/

namespace Remap

/-- Bytes up to and with the first line feed. -/
def IsLine (line : Bytes) : Prop :=
  ∃ body, line = body ++ [lineFeed] ∧ lineFeed ∉ body

theorem splitLines_append_lineFeed {body : Bytes} (h : lineFeed ∉ body) (rest : Bytes) :
    splitLines (body ++ lineFeed :: rest) = (body ++ [lineFeed]) :: splitLines rest := by
  induction body with
  | nil => rw [List.nil_append, splitLines, if_pos rfl, List.nil_append]
  | cons byte body ih =>
      rw [List.mem_cons, not_or] at h
      rw [List.cons_append, splitLines, if_neg (Ne.symm h.1), ih h.2]
      rfl

/-- Lines that are joined come back. -/
theorem splitLines_flatten {lines : List Bytes} (h : ∀ line ∈ lines, IsLine line) (rest : Bytes) :
    splitLines (lines.flatten ++ rest) = lines ++ splitLines rest := by
  induction lines with
  | nil => rfl
  | cons line lines ih =>
      rw [List.forall_mem_cons] at h
      obtain ⟨⟨body, rfl, hbody⟩, hlines⟩ := h
      simp only [List.flatten_cons, List.append_assoc, List.cons_append, List.nil_append]
      rw [splitLines_append_lineFeed hbody, ih hlines]

/-- Every line before another one ends with its line feed. -/
theorem isLine_of_splitLines {bytes line : Bytes} {earlier later : List Bytes}
    (h : splitLines bytes = earlier ++ line :: later) : ∀ other ∈ earlier, IsLine other := by
  induction bytes generalizing earlier with
  | nil => simp [splitLines] at h
  | cons byte bytes ih =>
      cases earlier with
      | nil => exact List.forall_mem_nil _
      | cons first earlier =>
          rw [splitLines] at h
          split at h
          · rename_i hfeed
            obtain ⟨rfl, hlines⟩ := List.cons.inj h
            exact List.forall_mem_cons.mpr ⟨⟨[], by simp [hfeed], List.not_mem_nil⟩, ih hlines⟩
          · rename_i hother
            split at h
            · simp at h
            · rename_i head lines hsplit
              obtain ⟨rfl, rfl⟩ := List.cons.inj h
              have hlines : ∀ other ∈ head :: earlier, IsLine other := ih hsplit
              obtain ⟨⟨body, rfl, hbody⟩, hearlier⟩ := List.forall_mem_cons.mp hlines
              refine List.forall_mem_cons.mpr ⟨⟨byte :: body, rfl, ?_⟩, hearlier⟩
              rw [List.mem_cons, not_or]
              exact ⟨Ne.symm hother, hbody⟩

/-- Bytes are split into lines piece by piece where a piece ends with a line feed. -/
theorem splitLines_append (front rest : Bytes) :
    splitLines (front ++ lineFeed :: rest) = splitLines (front ++ [lineFeed]) ++ splitLines rest := by
  induction front with
  | nil => rw [List.nil_append, List.nil_append, splitLines, if_pos rfl]; rfl
  | cons byte front ih =>
      rw [List.cons_append, List.cons_append, splitLines, splitLines, ih]
      split
      · rfl
      · cases hfront : splitLines (front ++ [lineFeed]) with
        | nil =>
            have hflatten := flatten_splitLines (front ++ [lineFeed])
            simp [hfront] at hflatten
        | cons head lines => rfl

theorem count_flatten {lines : List Bytes} (h : ∀ line ∈ lines, IsLine line) :
    lines.flatten.count lineFeed = lines.length := by
  induction lines with
  | nil => rfl
  | cons line lines ih =>
      rw [List.forall_mem_cons] at h
      obtain ⟨⟨body, rfl, hbody⟩, hlines⟩ := h
      rw [List.flatten_cons, List.count_append, ih hlines, List.count_append,
        List.count_eq_zero.mpr hbody, List.count_singleton_self, List.length_cons]
      omega

theorem lineFeed_mem_utf8EncodeChar_iff {c : Char} :
    lineFeed ∈ String.utf8EncodeChar c ↔ c = '\n' := by
  constructor
  · intro h
    -- Only the one byte of a small code point is below 0x80.
    have hbyte {n : Nat} (hn : 128 ≤ n ∧ n < 256) : lineFeed ≠ UInt8.ofNat n := by
      have hfeed : lineFeed.toNat = 10 := rfl
      rw [ne_eq, ← UInt8.toNat_inj, Utf8.toNat_ofNat_of_lt hn.2]
      omega
    rw [String.utf8EncodeChar, show c.val.toNat = c.toNat from rfl] at h
    split at h
    · rename_i hone
      rw [List.mem_singleton, ← UInt8.toNat_inj, Utf8.toNat_ofNat_of_lt (by omega)] at h
      exact Char.toNat_inj.mp h.symm
    · exfalso
      split at h
      · simp only [List.mem_cons, List.not_mem_nil, or_false] at h
        rcases h with h | h <;> exact hbyte (by omega) h
      · split at h <;> simp only [List.mem_cons, List.not_mem_nil, or_false] at h
        · rcases h with h | h | h <;> exact hbyte (by omega) h
        · rcases h with h | h | h | h <;> exact hbyte (by omega) h
  · rintro rfl
    decide

theorem lineFeed_mem_encode_iff {text : List Char} : lineFeed ∈ Utf8.encode text ↔ '\n' ∈ text := by
  rw [Utf8.encode, List.mem_flatMap]
  constructor
  · rintro ⟨c, hc, hbyte⟩
    rwa [lineFeed_mem_utf8EncodeChar_iff.mp hbyte] at hc
  · exact fun h => ⟨'\n', h, lineFeed_mem_utf8EncodeChar_iff.mpr rfl⟩

/-- A line has its line feed at its end or, at the end of the bytes, none. -/
theorem isLine_or_not_mem {bytes line : Bytes} (h : line ∈ splitLines bytes) :
    IsLine line ∨ lineFeed ∉ line := by
  obtain ⟨earlier, later, hsplit⟩ := List.append_of_mem h
  cases later with
  | cons next later =>
      have hnext : splitLines bytes = (earlier ++ [line]) ++ next :: later := by simpa using hsplit
      exact .inl (isLine_of_splitLines hnext line (by simp))
  | nil =>
      -- The last line is the only one of its own bytes.
      have hbytes : bytes = earlier.flatten ++ line := by
        rw [← flatten_splitLines bytes, hsplit]
        simp
      have halone : splitLines line = [line] := by
        rw [hbytes, splitLines_flatten (isLine_of_splitLines hsplit)] at hsplit
        exact List.append_cancel_left hsplit
      by_cases hmem : lineFeed ∈ line
      · obtain ⟨body, rest, rfl, hbody⟩ := List.eq_append_cons_of_mem hmem
        rw [splitLines_append_lineFeed hbody] at halone
        exact .inl ⟨body, (List.cons.inj halone).1.symm, hbody⟩
      · exact .inr hmem

theorem mem_of_mem_dropLineEnd {body : Bytes} {byte : UInt8}
    (h : byte ∈ dropLineEnd (body ++ [lineFeed])) : byte ∈ body := by
  induction body with
  | nil => simp [dropLineEnd] at h
  | cons first body ih =>
      rw [List.cons_append, dropLineEnd, if_neg (by simp)] at h
      split at h
      · cases h
      · rcases List.mem_cons.mp h with rfl | hrest
        · exact List.mem_cons_self
        · exact List.mem_cons_of_mem first (ih hrest)

theorem lineFeed_not_mem_dropLineEnd {bytes line : Bytes} (h : line ∈ splitLines bytes) :
    lineFeed ∉ dropLineEnd line := by
  rcases isLine_or_not_mem h with ⟨body, rfl, hbody⟩ | hnone
  · exact fun hmem => hbody (mem_of_mem_dropLineEnd hmem)
  · rwa [dropLineEnd_of_not_mem hnone]

end Remap
