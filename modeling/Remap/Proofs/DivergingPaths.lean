import Remap.Proofs.OneKey

/-!
Diverging paths.  Two paths that part at keys of different places have nothing to do with each
other: what is at the one stays as it is when the other is written, and writes at both can be done in
either order, whether they are refused or not.
-/

namespace Remap

/-- Neither path goes on where the other ends, and the keys at which they part are not two texts of
one index. -/
structure Diverge (first second : List String) : Prop where
  not_prefix : ¬ first <+: second
  not_extends : ¬ second <+: first
  index_ne (position : Nat) {index : Nat} {key other : String} :
    first.take position = second.take position → first[position]? = some key →
      second[position]? = some other → key ≠ other → arrayIndex? key = some index →
        arrayIndex? other ≠ some index

/-- The paths part, seen from the front: at their first keys, or below a key that they share. -/
inductive PathsPart : List String → List String → Prop
  | here {key other : String} (h : KeysApart key other) (rest others : List String) :
      PathsPart (key :: rest) (other :: others)
  | later {rest others : List String} (key : String) (h : PathsPart rest others) :
      PathsPart (key :: rest) (key :: others)

variable {first second rest others : List String} {key other : String}

theorem PathsPart.symm (h : PathsPart first second) : PathsPart second first := by
  induction h with
  | here h rest others => exact .here h.symm others rest
  | later key _ ih => exact .later key ih

namespace Diverge

/-- Below a key that they share the paths still diverge. -/
theorem tail (h : Diverge (key :: rest) (key :: others)) : Diverge rest others where
  not_prefix hprefix := h.not_prefix (List.cons_prefix_cons.mpr ⟨rfl, hprefix⟩)
  not_extends hextends := h.not_extends (List.cons_prefix_cons.mpr ⟨rfl, hextends⟩)
  index_ne position _ _ _ htake := h.index_ne (position + 1) (congrArg (key :: ·) htake)

theorem pathsPart (h : Diverge first second) : PathsPart first second := by
  induction first generalizing second with
  | nil => exact absurd List.nil_prefix h.not_prefix
  | cons key rest ih =>
      cases second with
      | nil => exact absurd List.nil_prefix h.not_extends
      | cons other others =>
          by_cases hkey : key = other
          · subst hkey
            exact .later key (ih h.tail)
          · exact .here ⟨hkey, h.index_ne 0 rfl rfl rfl hkey⟩ rest others

end Diverge

theorem PathsPart.diverge (h : PathsPart first second) : Diverge first second := by
  induction h with
  | here h rest others =>
      refine ⟨fun hprefix => ?_, fun hextends => ?_, fun position _ _ _ htake hfirst hsecond => ?_⟩
      · exact h.ne (List.cons_prefix_cons.mp hprefix).1
      · exact h.ne (List.cons_prefix_cons.mp hextends).1.symm
      · cases position with
        | zero =>
            cases hfirst
            cases hsecond
            exact fun _ => h.index_ne
        | succ position => exact absurd (List.cons.inj htake).1 h.ne
  | later key _ ih =>
      refine ⟨fun hprefix => ?_, fun hextends => ?_,
        fun position _ _ _ htake hfirst hsecond hne => ?_⟩
      · exact ih.not_prefix (List.cons_prefix_cons.mp hprefix).2
      · exact ih.not_extends (List.cons_prefix_cons.mp hextends).2
      · cases position with
        | zero =>
            cases hfirst
            cases hsecond
            exact absurd rfl hne
        | succ position => exact ih.index_ne position (List.cons.inj htake).2 hfirst hsecond hne

/-- Paths that diverge are those that part at some place. -/
theorem diverge_iff_pathsPart : Diverge first second ↔ PathsPart first second :=
  ⟨Diverge.pathsPart, PathsPart.diverge⟩

namespace Value

/-- What is at one path stays there when the other one is written. -/
theorem get?_setInPlace_of_part (h : PathsPart first second) (document value : Value) :
    (document.setInPlace first value).2.get? second = document.get? second := by
  induction h generalizing document with
  | @here key other hapart rest others =>
      cases henter : document.enter key with
      | error fault => rw [setInPlace_of_enter_eq_error henter]
      | ok child =>
          rw [setInPlace_of_enter_eq_ok henter, get?_cons, get?_cons, child?_put_of_apart hapart]
  | @later rest others key hpart ih =>
      cases henter : document.enter key with
      | error fault => rw [setInPlace_of_enter_eq_error henter]
      | ok child =>
          rw [setInPlace_of_enter_eq_ok henter, get?_cons, get?_cons, child?_put henter,
            Option.bind_some, ih child]
          rcases enter_cases henter with hchild | ⟨hmissing, -, rfl⟩
          · rw [hchild, Option.bind_some]
          · -- an object that the walk made has nothing at the other path
            rw [hmissing]
            cases hpart <;> rfl

section

variable (h : KeysApart key other)

include h

/-- A write that goes through one key lets the other key in as before. -/
theorem enter_setInPlace_of_apart (document : Value) (rest : List String) (value : Value) :
    (document.setInPlace (key :: rest) value).2.enter other = document.enter other := by
  cases henter : document.enter key with
  | error fault => rw [setInPlace_of_enter_eq_error henter]
  | ok child => rw [setInPlace_of_enter_eq_ok henter, enter_put_of_apart h]

/-- A value put at one key makes no difference to a write that goes through the other. -/
theorem setInPlace_put_of_apart (document child : Value) (others : List String) (value : Value) :
    (document.put key child).setInPlace (other :: others) value =
      ((document.setInPlace (other :: others) value).1,
        (document.setInPlace (other :: others) value).2.put key child) := by
  have hput := enter_put_of_apart h document child
  cases hother : document.enter other with
  | error fault =>
      rw [setInPlace_of_enter_eq_error hother, setInPlace_of_enter_eq_error (hput.trans hother)]
  | ok found =>
      rw [setInPlace_of_enter_eq_ok hother, setInPlace_of_enter_eq_ok (hput.trans hother),
        put_comm h]

end

/-- A write after one at the other path ends as it would have without it, and leaves the document
that the other order leaves. -/
theorem setInPlace_setInPlace_of_part (h : PathsPart first second) (document value later : Value) :
    (document.setInPlace first value).2.setInPlace second later =
      ((document.setInPlace second later).1,
        ((document.setInPlace second later).2.setInPlace first value).2) := by
  induction h generalizing document with
  | @here key other hapart rest others =>
      have hkept := enter_setInPlace_of_apart hapart.symm document others later
      cases henter : document.enter key with
      | error fault =>
          rw [setInPlace_of_enter_eq_error henter,
            setInPlace_of_enter_eq_error (hkept.trans henter)]
      | ok child =>
          rw [setInPlace_of_enter_eq_ok henter, setInPlace_put_of_apart hapart,
            setInPlace_of_enter_eq_ok (hkept.trans henter)]
  | @later rest others key _ ih =>
      cases henter : document.enter key with
      | error fault => simp only [setInPlace_of_enter_eq_error henter]
      | ok child =>
          have hagain (written : Value) : (document.put key written).enter key = .ok written :=
            enter_of_child? (child?_put henter written)
          rw [setInPlace_of_enter_eq_ok henter, setInPlace_of_enter_eq_ok (hagain _),
            setInPlace_of_enter_eq_ok henter, setInPlace_of_enter_eq_ok (hagain _), ih child,
            put_put, put_put]

/-- Of two diverging paths, a write at the one leaves what is at the other, and writes at both, each
tried whatever became of the other, have the same results and leave the same document in either
order. -/
theorem diverging_writes_commute (h : Diverge first second) (document value later : Value) :
    (∀ written, document.set first value = .ok written →
        written.get? second = document.get? second) ∧
      ((document.setInPlace first value).2.setInPlace second later).2 =
          ((document.setInPlace second later).2.setInPlace first value).2 ∧
        ((document.setInPlace first value).2.setInPlace second later).1 =
            (document.setInPlace second later).1 ∧
          ((document.setInPlace second later).2.setInPlace first value).1 =
            (document.setInPlace first value).1 := by
  have hforth := setInPlace_setInPlace_of_part h.pathsPart document value later
  have hback := setInPlace_setInPlace_of_part h.pathsPart.symm document later value
  refine ⟨fun written hset => ?_, ?_, ?_, ?_⟩
  · have hkept := get?_setInPlace_of_part h.pathsPart document value
    rwa [set_eq_ok_iff.mp hset] at hkept
  · rw [hforth]
  · rw [hforth]
  · rw [hback]

/-- One write goes through an item of an array, and the other one is refused by the array. -/
theorem diverging_writes_commute_of_outOfBounds :
    let document : Value := .object [("items", .array [.bool true])]
    let first := ["items", "0", "a"]
    let second := ["items", "07"]
    let written : Value := .object [("items", .array [.object [("a", .null)]])]
    Diverge first second ∧ document.setInPlace first .null = (.ok (), written) ∧
      written.setInPlace second .null = (.error ⟨second, .outOfBounds 7 1⟩, written) ∧
        document.setInPlace second .null = (.error ⟨second, .outOfBounds 7 1⟩, document) := by
  intro document first second written
  have hzero : arrayIndex? "0" = some 0 := by decide +kernel
  have hseven : arrayIndex? "07" = some 7 := by decide +kernel
  have hapart : KeysApart "0" "07" := by
    refine ⟨by decide, fun {index} hfirst hsecond => ?_⟩
    rw [hzero] at hfirst
    rw [hseven] at hsecond
    cases hfirst
    cases hsecond
  have hdiverge : Diverge first second := diverge_iff_pathsPart.mpr (.later "items" (.here hapart _ _))
  obtain ⟨-, hdocument, hsecond, -⟩ := diverging_writes_commute hdiverge document .null .null
  have hfirst : document.setInPlace first .null = (.ok (), written) := rfl
  have hrefused : document.setInPlace second .null =
      (.error ⟨second, .outOfBounds 7 1⟩, document) := rfl
  rw [hfirst, hrefused] at hdocument hsecond
  rw [hfirst] at hdocument
  exact ⟨hdiverge, hfirst, Prod.ext hsecond hdocument, hrefused⟩

end Value

end Remap
