import Remap.Text.Utf8

/-!
The bytes of a text read back.  The pieces of the bytes that encode a character are that character,
whatever bytes follow, so both readings of the bytes of a text give the text.  And a character is a
piece of no other bytes than its own, so the bytes that are UTF-8 are those that encode a text.
-/

namespace Remap.Utf8

variable {front : Begun} {byte : UInt8} {rest : Bytes}

/-- A byte that continues a character, but does not end it. -/
theorem piecesFrom_continue (hlow : front.low ≤ byte.toNat) (hhigh : byte.toNat ≤ front.high)
    (hmissing : front.missing ≠ 0) :
    piecesFrom (some front) (byte :: rest) = piecesFrom (some (front.extend byte)) rest := by
  rw [piecesFrom, if_pos ⟨hlow, hhigh⟩, if_neg hmissing]

/-- The byte that ends a character. -/
theorem piecesFrom_end {c : Char} (hlow : front.low ≤ byte.toNat) (hhigh : byte.toNat ≤ front.high)
    (hmissing : front.missing = 0) (hbits : front.bits * 64 + (byte.toNat - 0x80) = c.toNat) :
    piecesFrom (some front) (byte :: rest) = .char c :: piecesFrom none rest := by
  rw [piecesFrom, if_pos ⟨hlow, hhigh⟩, if_pos hmissing, Begun.extend]
  simp only [hbits, Char.ofNat_toNat]

theorem piecesFrom_begin (h : lead byte = .begun front) :
    piecesFrom none (byte :: rest) = piecesFrom (some front) rest := by
  rw [piecesFrom, h]

theorem toNat_ofNat_of_lt {n : Nat} (h : n < 256) : (UInt8.ofNat n).toNat = n := by
  rw [UInt8.toNat_ofNat', Nat.mod_eq_of_lt h]

/-- The pieces of an encoded character, one case for each number of bytes. -/
theorem piecesFrom_utf8EncodeChar (c : Char) (rest : Bytes) :
    piecesFrom none (String.utf8EncodeChar c ++ rest) = .char c :: piecesFrom none rest := by
  have hvalid : c.toNat < 0xD800 ∨ 0xDFFF < c.toNat ∧ c.toNat < 0x110000 := c.valid
  have hcontinuation (n : Nat) : (UInt8.ofNat (n % 64 + 128)).toNat = n % 64 + 128 :=
    toNat_ofNat_of_lt (by omega)
  rw [String.utf8EncodeChar, show c.val.toNat = c.toNat from rfl]
  split
  · rename_i hone
    have hlead : lead (UInt8.ofNat c.toNat) = .whole c := by
      rw [lead, toNat_ofNat_of_lt (by omega), if_pos (by omega), Char.ofNat_toNat]
    rw [List.singleton_append, piecesFrom, hlead]
  split
  · have hlead : lead (UInt8.ofNat (c.toNat / 64 % 32 + 192)) =
        .begun ⟨1, 0, 0x80, 0xBF, c.toNat / 64⟩ := by
      rw [lead, toNat_ofNat_of_lt (by omega), if_neg (by omega), if_neg (by omega),
        if_pos (by omega)]
      simp only [Lead.begun.injEq, Begun.mk.injEq, true_and]
      omega
    simp only [List.cons_append, List.nil_append]
    rw [piecesFrom_begin hlead]
    refine piecesFrom_end ?_ ?_ rfl ?_ <;> simp only [hcontinuation] <;> omega
  split
  · have hlead : lead (UInt8.ofNat (c.toNat / 4096 % 16 + 224)) =
        .begun ⟨1, 1, if c.toNat / 4096 % 16 + 224 = 0xE0 then 0xA0 else 0x80,
          if c.toNat / 4096 % 16 + 224 = 0xED then 0x9F else 0xBF, c.toNat / 4096⟩ := by
      rw [lead, toNat_ofNat_of_lt (by omega), if_neg (by omega), if_neg (by omega),
        if_neg (by omega), if_pos (by omega)]
      simp only [Lead.begun.injEq, Begun.mk.injEq, true_and]
      omega
    simp only [List.cons_append, List.nil_append]
    rw [piecesFrom_begin hlead, piecesFrom_continue, piecesFrom_end]
    all_goals simp only [Begun.extend, hcontinuation]
    all_goals (try split) <;> omega
  · have hlead : lead (UInt8.ofNat (c.toNat / 262144 % 8 + 240)) =
        .begun ⟨1, 2, if c.toNat / 262144 % 8 + 240 = 0xF0 then 0x90 else 0x80,
          if c.toNat / 262144 % 8 + 240 = 0xF4 then 0x8F else 0xBF, c.toNat / 262144⟩ := by
      rw [lead, toNat_ofNat_of_lt (by omega), if_neg (by omega), if_neg (by omega),
        if_neg (by omega), if_neg (by omega), if_pos (by omega)]
      simp only [Lead.begun.injEq, Begun.mk.injEq, true_and]
      omega
    simp only [List.cons_append, List.nil_append]
    rw [piecesFrom_begin hlead, piecesFrom_continue, piecesFrom_continue, piecesFrom_end]
    all_goals simp only [Begun.extend, hcontinuation]
    all_goals (try split) <;> omega

theorem pieces_encode (text : List Char) : pieces (encode text) = text.map .char := by
  induction text with
  | nil => rfl
  | cons c text ih =>
      rw [pieces] at ih ⊢
      rw [encode_cons, piecesFrom_utf8EncodeChar, ih, List.map_cons]

theorem charsFrom_map_char (index : Nat) (text : List Char) :
    charsFrom index (text.map .char) = .ok text := by
  induction text generalizing index with
  | nil => rfl
  | cons c text ih =>
      rw [List.map_cons, charsFrom, ih]
      rfl

/-- The bytes of a text are UTF-8 and write the text. -/
theorem decode_encode (text : List Char) : decode (encode text) = .ok text := by
  rw [decode, pieces_encode, charsFrom_map_char]

theorem decodeLossy_encode (text : List Char) : decodeLossy (encode text) = text :=
  decodeLossy_eq_of_decode (decode_encode text)

section

variable {bytes : Bytes} {c : Char} {later : List Piece}

theorem toNat_ofNat_of_isValidChar {n : Nat} (h : n.isValidChar) : (Char.ofNat n).toNat = n := by
  rw [Char.ofNat, dif_pos h]
  rfl

/-- A byte at the start of a character is the character, begins one of two, three or four bytes, or
is out of place. -/
theorem lead_cases (byte : UInt8) :
    (byte.toNat < 0x80 ∧ lead byte = .whole (Char.ofNat byte.toNat)) ∨
    (0xC2 ≤ byte.toNat ∧ byte.toNat < 0xE0 ∧
      lead byte = .begun ⟨1, 0, 0x80, 0xBF, byte.toNat - 0xC0⟩) ∨
    (0xE0 ≤ byte.toNat ∧ byte.toNat < 0xF0 ∧
      lead byte = .begun ⟨1, 1, if byte.toNat = 0xE0 then 0xA0 else 0x80,
        if byte.toNat = 0xED then 0x9F else 0xBF, byte.toNat - 0xE0⟩) ∨
    (0xF0 ≤ byte.toNat ∧ byte.toNat < 0xF5 ∧
      lead byte = .begun ⟨1, 2, if byte.toNat = 0xF0 then 0x90 else 0x80,
        if byte.toNat = 0xF4 then 0x8F else 0xBF, byte.toNat - 0xF0⟩) ∨
    lead byte = .stray := by
  fun_cases lead byte with
  | case1 n h => exact .inl ⟨h, rfl⟩
  | case2 n _ _ => exact .inr (.inr (.inr (.inr rfl)))
  | case3 n _ hlow hhigh => exact .inr (.inl ⟨Nat.le_of_not_lt hlow, hhigh, rfl⟩)
  | case4 n _ _ hlow hhigh => exact .inr (.inr (.inl ⟨Nat.le_of_not_lt hlow, hhigh, rfl⟩))
  | case5 n _ _ _ hlow hhigh => exact .inr (.inr (.inr (.inl ⟨Nat.le_of_not_lt hlow, hhigh, rfl⟩)))
  | case6 n _ _ _ _ _ => exact .inr (.inr (.inr (.inr rfl)))

/-- What stands where a character has begun is a byte that may follow, and the character ends there
or goes on. -/
theorem exists_next_of_char (h : piecesFrom (some front) bytes = .char c :: later) :
    ∃ byte rest, bytes = byte :: rest ∧ front.low ≤ byte.toNat ∧ byte.toNat ≤ front.high ∧
      if front.missing = 0 then
        c = Char.ofNat (front.extend byte).bits ∧ later = piecesFrom none rest
      else piecesFrom (some (front.extend byte)) rest = .char c :: later := by
  cases bytes with
  | nil => simp [piecesFrom] at h
  | cons byte rest =>
      rw [piecesFrom] at h
      split at h
      · rename_i hbounds
        refine ⟨byte, rest, rfl, hbounds.1, hbounds.2, ?_⟩
        split
        · rename_i hmissing
          rw [if_pos hmissing, List.cons.injEq, Piece.char.injEq] at h
          exact ⟨h.1.symm, h.2.symm⟩
        · rename_i hmissing
          rwa [if_neg hmissing] at h
      · cases h

theorem ofNat_eq_of_toNat_eq {n : Nat} (h : byte.toNat = n) : UInt8.ofNat n = byte := by
  rw [← h, UInt8.ofNat_toNat]

theorem utf8EncodeChar_one {first : UInt8} (hfirst : first.toNat < 0x80) :
    String.utf8EncodeChar (Char.ofNat first.toNat) = [first] := by
  have hc := toNat_ofNat_of_isValidChar (.inl (by omega) : first.toNat.isValidChar)
  rw [String.utf8EncodeChar, show (Char.ofNat first.toNat).val.toNat = first.toNat from hc,
    if_pos (by omega), ofNat_eq_of_toNat_eq rfl]

theorem utf8EncodeChar_two {first second : UInt8} (hfirst : 0xC2 ≤ first.toNat ∧ first.toNat < 0xE0)
    (hsecond : 0x80 ≤ second.toNat ∧ second.toNat ≤ 0xBF) {n : Nat}
    (hn : n = (first.toNat - 0xC0) * 64 + (second.toNat - 0x80)) :
    String.utf8EncodeChar (Char.ofNat n) = [first, second] := by
  have hc := toNat_ofNat_of_isValidChar (.inl (by omega) : n.isValidChar)
  rw [String.utf8EncodeChar, show (Char.ofNat n).val.toNat = n from hc,
    if_neg (by omega), if_pos (by omega), ofNat_eq_of_toNat_eq (by omega : first.toNat = _),
    ofNat_eq_of_toNat_eq (by omega : second.toNat = _)]

theorem utf8EncodeChar_three {first second third : UInt8}
    (hfirst : 0xE0 ≤ first.toNat ∧ first.toNat < 0xF0)
    (hlow : (if first.toNat = 0xE0 then 0xA0 else 0x80) ≤ second.toNat)
    (hhigh : second.toNat ≤ if first.toNat = 0xED then 0x9F else 0xBF)
    (hthird : 0x80 ≤ third.toNat ∧ third.toNat ≤ 0xBF) {n : Nat}
    (hn : n = ((first.toNat - 0xE0) * 64 + (second.toNat - 0x80)) * 64 + (third.toNat - 0x80)) :
    String.utf8EncodeChar (Char.ofNat n) = [first, second, third] := by
  have hvalid : n.isValidChar := by
    rw [Nat.isValidChar]
    split at hlow <;> split at hhigh <;> omega
  have hlarge : 0x800 ≤ n ∧ n < 0x10000 := by
    split at hlow <;> split at hhigh <;> omega
  have hsecond : 0x80 ≤ second.toNat ∧ second.toNat ≤ 0xBF := by
    split at hlow <;> split at hhigh <;> omega
  have hc := toNat_ofNat_of_isValidChar hvalid
  rw [String.utf8EncodeChar, show (Char.ofNat n).val.toNat = n from hc,
    if_neg (by omega), if_neg (by omega), if_pos (by omega),
    ofNat_eq_of_toNat_eq (by omega : first.toNat = _),
    ofNat_eq_of_toNat_eq (by omega : second.toNat = _),
    ofNat_eq_of_toNat_eq (by omega : third.toNat = _)]

theorem utf8EncodeChar_four {first second third fourth : UInt8}
    (hfirst : 0xF0 ≤ first.toNat ∧ first.toNat < 0xF5)
    (hlow : (if first.toNat = 0xF0 then 0x90 else 0x80) ≤ second.toNat)
    (hhigh : second.toNat ≤ if first.toNat = 0xF4 then 0x8F else 0xBF)
    (hthird : 0x80 ≤ third.toNat ∧ third.toNat ≤ 0xBF)
    (hfourth : 0x80 ≤ fourth.toNat ∧ fourth.toNat ≤ 0xBF) {n : Nat}
    (hn : n = (((first.toNat - 0xF0) * 64 + (second.toNat - 0x80)) * 64 +
      (third.toNat - 0x80)) * 64 + (fourth.toNat - 0x80)) :
    String.utf8EncodeChar (Char.ofNat n) = [first, second, third, fourth] := by
  have hlarge : 0x10000 ≤ n ∧ n < 0x110000 := by
    split at hlow <;> split at hhigh <;> omega
  have hsecond : 0x80 ≤ second.toNat ∧ second.toNat ≤ 0xBF := by
    split at hlow <;> split at hhigh <;> omega
  have hc := toNat_ofNat_of_isValidChar (.inr ⟨by omega, hlarge.2⟩ : n.isValidChar)
  rw [String.utf8EncodeChar, show (Char.ofNat n).val.toNat = n from hc,
    if_neg (by omega), if_neg (by omega), if_neg (by omega),
    ofNat_eq_of_toNat_eq (by omega : first.toNat = _),
    ofNat_eq_of_toNat_eq (by omega : second.toNat = _),
    ofNat_eq_of_toNat_eq (by omega : third.toNat = _),
    ofNat_eq_of_toNat_eq (by omega : fourth.toNat = _)]

/-- The bytes in front of which a character stands are its bytes and others after them. -/
theorem exists_utf8EncodeChar_of_char (h : piecesFrom none bytes = .char c :: later) :
    ∃ rest, bytes = String.utf8EncodeChar c ++ rest ∧ later = piecesFrom none rest := by
  cases bytes with
  | nil => simp [piecesFrom] at h
  | cons first rest =>
      rw [piecesFrom] at h
      rcases lead_cases first with ⟨hfirst, hlead⟩ | ⟨hlow, hhigh, hlead⟩ | ⟨hlow, hhigh, hlead⟩ |
        ⟨hlow, hhigh, hlead⟩ | hlead
      · simp only [hlead] at h
        rw [List.cons.injEq, Piece.char.injEq] at h
        refine ⟨rest, ?_, h.2.symm⟩
        rw [← h.1, utf8EncodeChar_one hfirst, List.singleton_append]
      · simp only [hlead] at h
        obtain ⟨second, rest, rfl, hsecond, hsecond', hc, hlater⟩ := exists_next_of_char h
        refine ⟨rest, ?_, hlater⟩
        rw [hc]
        exact congrArg (· ++ rest) (utf8EncodeChar_two ⟨hlow, hhigh⟩ ⟨hsecond, hsecond'⟩ rfl).symm
      · simp only [hlead] at h
        obtain ⟨second, rest, rfl, hsecond, hsecond', h⟩ := exists_next_of_char h
        obtain ⟨third, rest, rfl, hthird, hthird', hc, hlater⟩ := exists_next_of_char h
        refine ⟨rest, ?_, hlater⟩
        rw [hc]
        exact congrArg (· ++ rest)
          (utf8EncodeChar_three ⟨hlow, hhigh⟩ hsecond hsecond' ⟨hthird, hthird'⟩ rfl).symm
      · simp only [hlead] at h
        obtain ⟨second, rest, rfl, hsecond, hsecond', h⟩ := exists_next_of_char h
        obtain ⟨third, rest, rfl, hthird, hthird', h⟩ := exists_next_of_char h
        obtain ⟨fourth, rest, rfl, hfourth, hfourth', hc, hlater⟩ := exists_next_of_char h
        refine ⟨rest, ?_, hlater⟩
        rw [hc]
        exact congrArg (· ++ rest) (utf8EncodeChar_four ⟨hlow, hhigh⟩ hsecond hsecond'
          ⟨hthird, hthird'⟩ ⟨hfourth, hfourth'⟩ rfl).symm
      · simp only [hlead] at h
        cases h

theorem piecesFrom_some_ne_nil (front : Begun) (bytes : Bytes) :
    piecesFrom (some front) bytes ≠ [] := by
  induction bytes generalizing front with
  | nil => simp [piecesFrom]
  | cons byte rest ih =>
      rw [piecesFrom]
      split
      · split
        · exact List.cons_ne_nil _ _
        · exact ih _
      · exact List.cons_ne_nil _ _

/-- Bytes are in pieces if there are any. -/
theorem eq_nil_of_pieces (h : piecesFrom none bytes = []) : bytes = [] := by
  cases bytes with
  | nil => rfl
  | cons byte rest =>
      rw [piecesFrom] at h
      split at h
      · cases h
      · exact absurd h (piecesFrom_some_ne_nil _ rest)
      · cases h

theorem encode_of_pieces {text : List Char} (h : pieces bytes = text.map .char) :
    encode text = bytes := by
  induction text generalizing bytes with
  | nil => rw [eq_nil_of_pieces h, encode_nil]
  | cons c text ih =>
      obtain ⟨rest, rfl, hlater⟩ := exists_utf8EncodeChar_of_char h
      rw [encode_cons, ih hlater.symm]

/-- Bytes are UTF-8 exactly if they are the bytes of a text, and there is one such text. -/
theorem decode_eq_ok_iff {text : List Char} : decode bytes = .ok text ↔ bytes = encode text := by
  constructor
  · exact fun h => (encode_of_pieces (charsFrom_eq_ok h)).symm
  · rintro rfl
    exact decode_encode text

end

end Remap.Utf8
