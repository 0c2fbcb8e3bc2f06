import Remap.Parser.Token

/-!
How the combinators go on.  A parser succeeds, it misses, so that another form may be tried, or it
fails for good; each combinator is described by what its parts do.
-/

namespace Remap.Parser

variable {α β : Type} {p q : Parser α} {text rest : List Char} {value : α}

/-- The form is not there, and other forms may be tried. -/
def Misses (p : Parser α) (text : List Char) : Prop :=
  ∃ failure, p text = .error failure ∧ failure.committed = false

theorem misses_miss (cause : Cause) (text : List Char) : Misses (miss cause : Parser α) text :=
  ⟨⟨false, text, cause⟩, rfl, rfl⟩

theorem bind_of_ok (h : p text = .ok (value, rest)) (next : α → Parser β) :
    (p >>= next) text = next value rest := by
  rw [bind_apply, h]

theorem Misses.bind (h : Misses p text) (next : α → Parser β) : Misses (p >>= next) text := by
  obtain ⟨failure, herror, hfree⟩ := h
  exact ⟨failure, by rw [bind_apply, herror], hfree⟩

theorem orElse_of_ok {result : α × List Char} (h : p text = .ok result) (q : Parser α) :
    (p <|> q) text = .ok result := by
  change Parser.orElse p q text = _
  rw [Parser.orElse, h]

theorem orElse_of_misses {result : α × List Char} (h : Misses p text) (hq : q text = .ok result) :
    (p <|> q) text = .ok result := by
  obtain ⟨failure, herror, hfree⟩ := h
  change Parser.orElse p q text = _
  simp [Parser.orElse, herror, hfree, hq]

/-- What an alternative takes, its first form takes, or its second where the first misses. -/
theorem orElse_eq_ok {result : α × List Char} (h : (p <|> q) text = .ok result) :
    p text = .ok result ∨ Misses p text ∧ q text = .ok result := by
  change Parser.orElse p q text = _ at h
  rw [Parser.orElse] at h
  split at h
  · rename_i hfirst
    rw [h] at hfirst
    exact .inl hfirst
  · rename_i first hfirst
    split at h
    · cases h
    · rename_i hfree
      split at h
      · rename_i hsecond
        rw [h] at hsecond
        exact .inr ⟨⟨first, hfirst, by simpa using hfree⟩, hsecond⟩
      · cases h

theorem bind_of_error {failure : Failure} (h : p text = .error failure) (next : α → Parser β) :
    (p >>= next) text = .error failure := by
  rw [bind_apply, h]

theorem orElse_of_committed {failure : Failure} (h : p text = .error failure)
    (hcommitted : failure.committed = true) (q : Parser α) : (p <|> q) text = .error failure := by
  change Parser.orElse p q text = _
  simp [Parser.orElse, h, hcommitted]

theorem orElse_of_misses_committed {failure : Failure} (h : Misses p text)
    (hq : q text = .error failure) (hcommitted : failure.committed = true) :
    (p <|> q) text = .error failure := by
  obtain ⟨first, herror, hfree⟩ := h
  change Parser.orElse p q text = _
  simp [Parser.orElse, herror, hfree, hq, hcommitted]

/-- A form that does not miss is the one that is tried. -/
theorem orElse_of_not_misses (h : ¬Misses p text) (q : Parser α) : (p <|> q) text = p text := by
  cases hresult : p text with
  | ok result => exact orElse_of_ok hresult q
  | error failure =>
      have hcommitted : failure.committed = true := by
        simpa using fun hfree => h ⟨failure, hresult, hfree⟩
      exact orElse_of_committed hresult hcommitted q

/-- Where the first form misses and the second does not, the second is tried. -/
theorem orElse_of_misses_not_misses (h : Misses p text) (hq : ¬Misses q text) :
    (p <|> q) text = q text := by
  cases hresult : q text with
  | ok result => exact orElse_of_misses h hresult
  | error failure =>
      have hcommitted : failure.committed = true := by
        simpa using fun hfree => hq ⟨failure, hresult, hfree⟩
      exact orElse_of_misses_committed h hresult hcommitted

/-- Of two forms that are missed at the same place the second is reported. -/
theorem orElse_of_missed {first second : Failure} (h : p text = .error first)
    (hfirst : first.committed = false) (hq : q text = .error second)
    (hsecond : second.committed = false) (hplace : second.rest = first.rest) :
    (p <|> q) text = .error second := by
  change Parser.orElse p q text = _
  simp [Parser.orElse, h, hfirst, hq, hsecond, Failure.furthest, hplace]

theorem commit_of_error {failure : Failure} (h : p text = .error failure)
    (hcommitted : failure.committed = true) : commit p text = .error failure := by
  obtain ⟨committed, place, cause⟩ := failure
  cases hcommitted
  rw [commit, h]

theorem commit_of_failed {failure : Failure} (h : p text = .error failure) :
    commit p text = .error { failure with committed := true } := by
  rw [commit, h]

theorem Misses.orElse (hp : Misses p text) (hq : Misses q text) : Misses (p <|> q) text := by
  obtain ⟨first, hfirst, hfree₁⟩ := hp
  obtain ⟨second, hsecond, hfree₂⟩ := hq
  refine ⟨first.furthest second, ?_, ?_⟩
  · change Parser.orElse p q text = _
    simp [Parser.orElse, hfirst, hfree₁, hsecond, hfree₂]
  · rw [Failure.furthest]
    split <;> assumption

/-- An alternative is missed only if both of its forms are. -/
theorem misses_orElse_iff : Misses (p <|> q) text ↔ Misses p text ∧ Misses q text := by
  refine ⟨?_, fun ⟨hp, hq⟩ => hp.orElse hq⟩
  rintro ⟨failure, herror, hfree⟩
  change Parser.orElse p q text = _ at herror
  rw [Parser.orElse] at herror
  split at herror
  · cases herror
  · rename_i first hfirst
    split at herror
    · rename_i hcommitted
      cases herror
      rw [hfree] at hcommitted
      cases hcommitted
    · rename_i hfirstFree
      split at herror
      · cases herror
      · rename_i second hsecond
        refine ⟨⟨first, hfirst, by simpa using hfirstFree⟩, second, hsecond, ?_⟩
        split at herror
        · cases herror
          exact hfree
        · rename_i hsecondFree
          simpa using hsecondFree

theorem misses_peek_iff : Misses (peek p) text ↔ Misses p text := by
  rw [Misses, Misses, peek]
  cases p text <;> simp

theorem commit_of_ok {result : α × List Char} (h : p text = .ok result) :
    commit p text = .ok result := by
  rw [commit, h]

theorem peek_of_ok (h : p text = .ok (value, rest)) : peek p text = .ok (value, text) := by
  rw [peek, h]

theorem expect_of_ok {result : α × List Char} (h : p text = .ok result) (label : String) :
    expect label p text = .ok result := by
  rw [expect, h]

theorem Misses.expect (h : Misses p text) (label : String) : Misses (expect label p) text := by
  obtain ⟨failure, herror, hfree⟩ := h
  by_cases hplace : failure.rest.length = text.length
  · exact ⟨⟨false, text, .expected label⟩, by simp [Parser.expect, herror, hfree, hplace], rfl⟩
  · exact ⟨failure, by simp [Parser.expect, herror, hplace], hfree⟩

theorem misses_expect_iff {label : String} : Misses (expect label p) text ↔ Misses p text := by
  refine ⟨?_, fun h => h.expect label⟩
  rintro ⟨failure, herror, hfree⟩
  rw [Parser.expect] at herror
  split at herror
  · cases herror
  · rename_i found hfound
    split at herror
    · rename_i hmissed
      exact ⟨found, hfound, hmissed.1⟩
    · cases herror
      exact ⟨_, hfound, hfree⟩

/-- What is missed at the beginning is named. -/
theorem expect_of_missed {failure : Failure} (h : p text = .error failure)
    (hfree : failure.committed = false) (hplace : failure.rest = text) (label : String) :
    expect label p text = .error ⟨false, text, .expected label⟩ := by
  simp [Parser.expect, h, hfree, hplace]

/-- What has failed for good keeps its name. -/
theorem expect_of_committed {failure : Failure} (h : p text = .error failure)
    (hcommitted : failure.committed = true) (label : String) :
    expect label p text = .error failure := by
  simp [Parser.expect, h, hcommitted]

theorem optional_of_ok (h : p text = .ok (value, rest)) :
    optional p text = .ok (some value, rest) := by
  rw [optional, h]

theorem optional_of_misses (h : Misses p text) : optional p text = .ok (none, text) := by
  obtain ⟨failure, herror, hfree⟩ := h
  simp [optional, herror, hfree]

/-- Each success takes at least one character. -/
def Progresses (p : Parser α) : Prop :=
  ∀ text value rest, p text = .ok (value, rest) → rest.length < text.length

theorem Progresses.orElse (hp : Progresses p) (hq : Progresses q) : Progresses (p <|> q) := by
  intro text value rest h
  rcases orElse_eq_ok h with hfirst | ⟨-, hsecond⟩
  · exact hp _ _ _ hfirst
  · exact hq _ _ _ hsecond

theorem Progresses.bind (hp : Progresses p) {next : α → Parser β}
    (hnext : ∀ value, Progresses (next value)) : Progresses (p >>= next) := by
  intro text value rest h
  rw [bind_apply] at h
  split at h
  · rename_i first middle hfirst
    have hmiddle := hp _ _ _ hfirst
    have hrest := hnext first _ _ _ h
    omega
  · cases h

theorem Progresses.commit (hp : Progresses p) : Progresses (commit p) := by
  intro text value rest h
  rw [Parser.commit] at h
  split at h
  · rename_i result hresult
    rw [h] at hresult
    exact hp _ _ _ hresult
  · cases h

theorem Progresses.expect (hp : Progresses p) (label : String) : Progresses (expect label p) := by
  intro text value rest h
  rw [Parser.expect] at h
  split at h
  · rename_i result hresult
    rw [h] at hresult
    exact hp _ _ _ hresult
  · split at h <;> cases h

/-- A parser that may stand in a repetition: it neither takes nothing nor insists at the end. -/
structure Repeatable (p : Parser α) : Prop where
  progress : Progresses p
  atEnd : Misses p []

theorem manyUpTo_of_misses (h : Misses p text) (bound : Nat) :
    manyUpTo p bound text = .ok ([], text) := by
  obtain ⟨failure, herror, hfree⟩ := h
  cases bound with
  | zero => rfl
  | succ bound => simp [manyUpTo, herror, hfree]

/-- Once the bound is the length of the text, more of it changes nothing. -/
theorem manyUpTo_eq_of_length_le (hp : Repeatable p) {first second : Nat}
    (hfirst : text.length ≤ first) (hsecond : text.length ≤ second) :
    manyUpTo p first text = manyUpTo p second text := by
  induction first generalizing text second with
  | zero =>
      have hnil : text = [] := List.length_eq_zero_iff.mp (Nat.le_zero.mp hfirst)
      subst hnil
      rw [manyUpTo_of_misses hp.atEnd, manyUpTo_of_misses hp.atEnd]
  | succ first ih =>
      cases second with
      | zero =>
          have hnil : text = [] := List.length_eq_zero_iff.mp (Nat.le_zero.mp hsecond)
          subst hnil
          rw [manyUpTo_of_misses hp.atEnd, manyUpTo_of_misses hp.atEnd]
      | succ second =>
          simp only [manyUpTo]
          cases hok : p text with
          | error failure => rfl
          | ok result =>
              obtain ⟨value, rest⟩ := result
              have hlt := hp.progress _ _ _ hok
              simp only
              rw [ih (by omega) (show rest.length ≤ second by omega)]

theorem many_of_misses (h : Misses p text) : many p text = .ok ([], text) :=
  manyUpTo_of_misses h text.length

theorem many_of_ok (hp : Repeatable p) {values : List α} {after : List Char}
    (h : p text = .ok (value, rest)) (hrest : many p rest = .ok (values, after)) :
    many p text = .ok (value :: values, after) := by
  have hlt := hp.progress _ _ _ h
  obtain ⟨bound, hbound⟩ : ∃ bound, text.length = bound + 1 := ⟨text.length - 1, by omega⟩
  have hmany : manyUpTo p bound rest = .ok (values, after) := by
    rw [manyUpTo_eq_of_length_le hp (by omega) (Nat.le_refl rest.length)]
    exact hrest
  rw [many, hbound]
  simp only [manyUpTo, h, hmany]

/-- Whatever the parser takes from a text has a property. -/
def Yields (p : Parser α) (P : α → Prop) : Prop :=
  ∀ text value rest, p text = .ok (value, rest) → P value

namespace Yields

variable {P : α → Prop} {Q : β → Prop}

theorem mono {P' : α → Prop} (h : Yields p P) (himp : ∀ value, P value → P' value) :
    Yields p P' :=
  fun text value rest hok => himp value (h text value rest hok)

theorem always (p : Parser α) : Yields p fun _ => True :=
  fun _ _ _ _ => trivial

theorem pure (h : P value) : Yields (pure value) P := by
  intro text other rest hok
  cases hok
  exact h

theorem bind {next : α → Parser β} (hp : Yields p P)
    (hnext : ∀ value, P value → Yields (next value) Q) : Yields (p >>= next) Q := by
  intro text value rest hok
  rw [bind_apply] at hok
  split at hok
  · rename_i first middle hfirst
    exact hnext first (hp _ _ _ hfirst) _ _ _ hok
  · cases hok

theorem orElse (hp : Yields p P) (hq : Yields q P) : Yields (p <|> q) P := by
  intro text value rest hok
  rcases orElse_eq_ok hok with hfirst | ⟨-, hsecond⟩
  · exact hp _ _ _ hfirst
  · exact hq _ _ _ hsecond

theorem abort (place : List Char) (cause : Cause) : Yields (abort place cause : Parser α) P := by
  intro text value rest hok
  cases hok

theorem commit (hp : Yields p P) : Yields (commit p) P := by
  intro text value rest hok
  rw [Parser.commit] at hok
  split at hok
  · rename_i hresult
    rw [hok] at hresult
    exact hp _ _ _ hresult
  · cases hok

theorem expect (hp : Yields p P) (label : String) : Yields (expect label p) P := by
  intro text value rest hok
  rw [Parser.expect] at hok
  split at hok
  · rename_i hresult
    rw [hok] at hresult
    exact hp _ _ _ hresult
  · split at hok <;> cases hok

theorem manyUpTo (hp : Yields p P) (bound : Nat) :
    Yields (manyUpTo p bound) fun values => ∀ value ∈ values, P value := by
  induction bound with
  | zero =>
      intro text values rest hok
      cases hok
      exact nofun
  | succ bound ih =>
      intro text values rest hok
      simp only [Parser.manyUpTo] at hok
      split at hok
      · rename_i first middle hfirst
        split at hok
        · rename_i others last hothers
          cases hok
          exact List.forall_mem_cons.mpr ⟨hp _ _ _ hfirst, ih _ _ _ hothers⟩
        · cases hok
      · split at hok <;> cases hok
        exact nofun

theorem many (hp : Yields p P) : Yields (many p) fun values => ∀ value ∈ values, P value :=
  fun text values rest hok => hp.manyUpTo text.length text values rest hok

theorem separatedUpTo (separator : Parser β) (hp : Yields p P) (bound : Nat) :
    Yields (separatedUpTo separator p bound) fun values => ∀ value ∈ values, P value := by
  induction bound with
  | zero =>
      intro text values rest hok
      cases hok
      exact nofun
  | succ bound ih =>
      intro text values rest hok
      simp only [Parser.separatedUpTo] at hok
      split at hok
      · split at hok <;> cases hok
        exact nofun
      · split at hok
        · split at hok <;> cases hok
          exact nofun
        · rename_i first middle hfirst
          split at hok
          · rename_i others last hothers
            cases hok
            exact List.forall_mem_cons.mpr ⟨hp _ _ _ hfirst, ih _ _ _ hothers⟩
          · cases hok

theorem separated (separator : Parser β) (hp : Yields p P) :
    Yields (separated separator p) fun values => ∀ value ∈ values, P value := by
  intro text values rest hok
  rw [Parser.separated] at hok
  split at hok
  · split at hok <;> cases hok
    exact nofun
  · rename_i first middle hfirst
    split at hok
    · rename_i others last hothers
      cases hok
      exact List.forall_mem_cons.mpr ⟨hp _ _ _ hfirst, hp.separatedUpTo separator _ _ _ _ hothers⟩
    · cases hok

end Yields

/-- All failures are final. -/
def Insists (p : Parser α) : Prop :=
  ∀ text failure, p text = .error failure → failure.committed = true

namespace Insists

theorem pure (value : α) : Insists (pure value) := by
  intro text failure h
  cases h

theorem abort (place : List Char) (cause : Cause) : Insists (abort place cause : Parser α) := by
  intro text failure h
  cases h
  rfl

theorem commit (p : Parser α) : Insists (commit p) := by
  intro text failure h
  rw [Parser.commit] at h
  split at h
  · cases h
  · cases h
    rfl

theorem bind (hp : Insists p) {next : α → Parser β} (hnext : ∀ value, Insists (next value)) :
    Insists (p >>= next) := by
  intro text failure h
  rw [bind_apply] at h
  split at h
  · rename_i value rest hvalue
    exact hnext value _ _ h
  · rename_i found hfound
    cases h
    exact hp _ _ hfound

end Insists

/-- Before parts that insist only the first part of a form can miss. -/
theorem misses_bind_iff {next : α → Parser β} (hnext : ∀ value, Insists (next value)) :
    Misses (p >>= next) text ↔ Misses p text := by
  constructor
  · rintro ⟨failure, herror, hfree⟩
    rw [bind_apply] at herror
    split at herror
    · rename_i value rest hvalue
      rw [hnext value _ _ herror] at hfree
      cases hfree
    · rename_i found hfound
      cases herror
      exact ⟨_, hfound, hfree⟩
  · exact fun h => h.bind next

/-- No failure is final. -/
def Recovers (p : Parser α) : Prop :=
  ∀ text failure, p text = .error failure → failure.committed = false

namespace Recovers

theorem orElse (hp : Recovers p) (hq : Recovers q) : Recovers (p <|> q) := by
  intro text failure h
  change Parser.orElse p q text = _ at h
  rw [Parser.orElse] at h
  split at h
  · cases h
  · rename_i first hfirst
    simp only [hp _ _ hfirst, Bool.false_eq_true, ↓reduceIte] at h
    split at h
    · cases h
    · rename_i second hsecond
      simp only [hq _ _ hsecond, Bool.false_eq_true, ↓reduceIte, Except.error.injEq] at h
      rw [← h, Failure.furthest]
      split
      · exact hq _ _ hsecond
      · exact hp _ _ hfirst

theorem exists_ok (hp : Recovers p) (h : ¬Misses p text) : ∃ result, p text = .ok result := by
  cases hresult : p text with
  | ok result => exact ⟨result, rfl⟩
  | error failure => exact absurd ⟨failure, hresult, hp _ _ hresult⟩ h

theorem exists_manyUpTo (hp : Recovers p) (bound : Nat) (text : List Char) :
    ∃ values rest, manyUpTo p bound text = .ok (values, rest) := by
  induction bound generalizing text with
  | zero => exact ⟨[], text, rfl⟩
  | succ bound ih =>
      simp only [Parser.manyUpTo]
      cases h : p text with
      | error failure => exact ⟨[], text, by simp [hp _ _ h]⟩
      | ok result =>
          obtain ⟨values, rest, hmore⟩ := ih result.2
          exact ⟨result.1 :: values, rest, by simp [hmore]⟩

/-- A repetition of what can fail only recoverably succeeds. -/
theorem exists_many (hp : Recovers p) (text : List Char) :
    ∃ values rest, many p text = .ok (values, rest) :=
  hp.exists_manyUpTo text.length text

end Recovers

/-- A repetition takes one more value or ends. -/
theorem manyUpTo_succ (p : Parser α) (bound : Nat) :
    manyUpTo p (bound + 1) = do
      match ← optional p with
      | none => return []
      | some value => return value :: (← manyUpTo p bound) := by
  funext text
  simp only [manyUpTo, bind_apply, optional]
  cases p text with
  | error failure => cases hfree : failure.committed <;> simp [hfree]
  | ok result =>
      simp only [bind_apply]
      cases manyUpTo p bound result.2 <;> rfl

/-- A list goes on with a separator and an item together, or ends. -/
theorem separatedUpTo_succ (separator : Parser β) (item : Parser α) (bound : Nat) :
    separatedUpTo separator item (bound + 1) = do
      match ← optional (do let _ ← separator; item) with
      | none => return []
      | some value => return value :: (← separatedUpTo separator item bound) := by
  funext text
  simp only [separatedUpTo, bind_apply, optional]
  cases separator text with
  | error failure => cases hfree : failure.committed <;> simp [hfree]
  | ok found =>
      simp only
      cases item found.2 with
      | error failure => cases hfree : failure.committed <;> simp [hfree]
      | ok result =>
          simp only [bind_apply]
          cases separatedUpTo separator item bound result.2 <;> rfl

theorem separated_apply (separator : Parser β) (item : Parser α) (text : List Char) :
    separated separator item text = (do
      match ← optional item with
      | none => return []
      | some value =>
          let rest ← here
          return value :: (← separatedUpTo separator item rest.length) : Parser (List α)) text := by
  simp only [separated, bind_apply, optional]
  cases item text with
  | error failure => cases hfree : failure.committed <;> simp [hfree]
  | ok result =>
      simp only [bind_apply, here]
      cases separatedUpTo separator item result.2.length result.2 <;> rfl

end Remap.Parser
