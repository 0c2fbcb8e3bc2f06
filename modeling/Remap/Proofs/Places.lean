import Remap.Mapping.Source
import Remap.Proofs.Regions
import Remap.Proofs.StatementForms

/-!
Places within a text.  A parser never goes back behind the beginning of its text: what remains after
it, the place at which it fails and the places that it records have no more characters before the
end than the whole text has.
-/

namespace Remap

namespace Parser

variable {α : Type} {p : Parser α} {P : α → Prop} {limit : Nat}

/-- What remains or where the parse failed is within the last characters of a text, and what was
taken has a property. -/
def Ends (limit : Nat) (P : α → Prop) : Except Failure (α × List Char) → Prop
  | .ok (value, rest) => rest.length ≤ limit ∧ P value
  | .error failure => failure.rest.length ≤ limit

/-- From the last characters of a text the parser does not get out of them. -/
def Within (limit : Nat) (p : Parser α) (P : α → Prop) : Prop :=
  ∀ text, text.length ≤ limit → Ends limit P (p text)

/-- The parser stays within the last characters of a text, whatever it takes. -/
abbrev Confined (limit : Nat) (p : Parser α) : Prop :=
  Within limit p fun _ => True

end Parser

/-- A region of a mapping promises for its statements what it promises for its tokens: where a name
collides a definition begins, and where a segment is empty a place is reached. -/
structure SourceRegion extends Region where
  collision {place : List Char} {name : String} : Place place → "map".toList <+: place →
    Fault place (.mapCollision name)
  emptySegment {place : List Char} {path : String} : Place place →
    Fault place (.emptyPathSegment path)

variable {ε : Type}

mutual

/-- The places that an item records. -/
def Item.places : Item ε → List Nat
  | .map _ body => placesIn body
  | .assign remaining _ _ => [remaining]

def Item.placesIn : List (Item ε) → List Nat
  | [] => []
  | item :: rest => item.places ++ placesIn rest

end

namespace Item

open Remap.Parser

/-- All places that the items record have a property. -/
def EachPlace (P : Nat → Prop) (items : List (Item ε)) : Prop :=
  ∀ place ∈ placesIn items, P place

namespace EachPlace

variable {P P' : Nat → Prop}

theorem cons {first : Item ε} {others : List (Item ε)} (hfirst : EachPlace P [first])
    (hothers : EachPlace P others) : EachPlace P (first :: others) := by
  intro place hplace
  rw [placesIn, List.mem_append] at hplace
  rcases hplace with hmem | hmem
  · exact hfirst place (by simpa [placesIn] using hmem)
  · exact hothers place hmem

theorem assign {remaining : Nat} (h : P remaining) (target : Target) (expr : ε) :
    EachPlace P [.assign remaining target expr] := by
  intro place hplace
  simp only [placesIn, places, List.append_nil, List.mem_singleton] at hplace
  rwa [hplace]

theorem map {name : String} {body : List (Item ε)} (h : EachPlace P body) :
    EachPlace P [.map name body] := by
  intro place hplace
  simp only [placesIn, places, List.append_nil] at hplace
  exact h place hplace

end EachPlace

section

variable {query : Parser ε}

/-- A place is as many characters before the end as a place of the region. -/
def Reaches (region : Region) (remaining : Nat) : Prop :=
  ∃ start, region.Place start ∧ start.length = remaining

section

variable {region : Region} (hquery : region.Admits query)

include hquery

theorem assigned_admitted : region.Admits (assigned query) :=
  ((region.run_admitted isSpaceOrTab).bind fun _ _ => (region.char_admitted '=').bind fun _ _ =>
    (region.run_admitted isSpaceOrTab).bind fun _ _ => Region.admits_pure ()).commit.bind fun _ _ =>
      hquery.commit

theorem letForm_keeps :
    region.Keeps (letForm query) fun item => EachPlace (Reaches region) [item] :=
  Region.Keeps.here.bind fun _ hstart => (region.keyword_admitted "let").bind fun _ _ =>
    (region.token_admitted .blanks isSpaceOrTab).bind fun _ _ =>
      (region.name_admitted.expect "variable-name").commit.bind fun _ _ =>
        (assigned_admitted hquery).bind fun _ _ => .pure (.assign ⟨_, hstart, rfl⟩ _ _)

theorem metaForm_keeps :
    region.Keeps (metaForm query) fun item => EachPlace (Reaches region) [item] := by
  have hboundary : region.Admits metaBoundary :=
    ((region.token_admitted .blanks isSpaceOrTab).bind fun _ _ => .pure trivial).orElse
      (region.keyword_admitted "=")
  exact Region.Keeps.here.bind fun _ hstart => (region.keyword_admitted "meta").bind fun _ _ =>
    hboundary.peek.bind fun _ _ => (region.run_admitted isSpaceOrTab).bind fun _ _ =>
      region.name_admitted.optional.bind fun _ _ =>
        (assigned_admitted hquery).bind fun _ _ => .pure (.assign ⟨_, hstart, rfl⟩ _ _)

end

section

variable {region : SourceRegion} (hquery : region.Admits query)

include hquery

omit hquery in
theorem targetPath_admitted (region : SourceRegion) : region.Admits targetPath := by
  refine Region.Keeps.here.bind fun start hstart =>
    (region.name_admitted.expect "target-path").bind fun path _ => ?_
  split
  · exact .pure trivial
  · rename_i offset _
    refine .abort (region.emptySegment ?_)
    split
    · exact hstart
    · exact region.place_of_suffix hstart (List.drop_suffix offset start)

theorem pathForm_keeps :
    region.Keeps (pathForm query) fun item => EachPlace (Reaches region.toRegion) [item] :=
  Region.Keeps.here.bind fun _ hstart => (targetPath_admitted region).bind fun _ _ =>
    (assigned_admitted hquery).bind fun _ _ => .pure (.assign ⟨_, hstart, rfl⟩ _ _)

theorem assignment_keeps :
    region.Keeps (assignment query) fun item => EachPlace (Reaches region.toRegion) [item] :=
  (letForm_keeps hquery).orElse ((metaForm_keeps hquery).orElse (pathForm_keeps hquery))

end

section

variable {region : SourceRegion} {item : Scoped (Item ε)}
  (hitem : ∀ registry, region.Keeps (item registry) fun result => EachPlace (Reaches region.toRegion) [result.1])

include hitem

theorem moreInBlock_keeps (bound : Nat) (registry : Registry) :
    region.Keeps (moreInBlock item bound registry) fun result =>
      EachPlace (Reaches region.toRegion) result.1 := by
  induction bound generalizing registry with
  | zero => exact .pure nofun
  | succ bound ih =>
      rw [moreInBlock]
      refine ((region.run_admitted isSpaceOrTab).bind fun _ _ =>
        region.lineBreak_admitted).optional.bind fun found _ => ?_
      cases found with
      | none => exact .pure nofun
      | some taken =>
          refine region.blankLines_admitted.bind fun _ _ => Region.Keeps.here.bind fun rest _ => ?_
          split
          · exact .pure nofun
          · refine (hitem registry).bind fun first hfirst => ?_
            exact (ih first.2).bind fun others hothers => .pure (hfirst.cons hothers)

theorem block_keeps (registry : Registry) :
    region.Keeps (block item registry) fun result =>
      EachPlace (Reaches region.toRegion) result.1 := by
  refine (region.char_admitted '{').bind fun _ _ => region.blankLines_admitted.bind fun _ _ => ?_
  refine (hitem registry).bind fun first hfirst => Region.Keeps.here.bind fun rest _ => ?_
  refine (moreInBlock_keeps hitem rest.length first.2).bind fun others hothers => ?_
  exact region.blankLines_admitted.bind fun _ _ => (region.char_admitted '}').bind fun _ _ =>
    .pure (hfirst.cons hothers)

omit hitem in
theorem collide_admitted {start : List Char} (h : region.Place start)
    (hmap : "map".toList <+: start) (name : String) (taken : Prop) [Decidable taken] :
    region.Admits (collide start name taken) := by
  rw [collide]
  split
  · exact .abort (region.collision h hmap)
  · exact .pure trivial

theorem mapForm_keeps (registry : Registry) :
    region.Keeps (mapForm item registry) fun result =>
      EachPlace (Reaches region.toRegion) [result.1] := by
  intro text htext
  have hkeyword : region.Admits mapKeyword := (region.keyword_admitted "map").bind fun _ _ =>
    (region.token_admitted .blanks isSpaceOrTab).bind fun _ _ => Region.admits_pure ()
  by_cases hmap : "map".toList <+: text
  · -- Wherever the definition collides, its text begins with the keyword.
    rw [mapForm, bind_of_ok (here_eq_ok text)]
    refine hkeyword.bind ?_ text htext
    refine fun _ _ => (region.name_admitted.expect "map-name").commit.bind fun name _ => ?_
    refine (collide_admitted htext hmap name _).bind fun _ _ => ?_
    refine (region.run_admitted isSpaceOrTab).bind fun _ _ => ?_
    refine (block_keeps hitem (registry.enter name)).commit.bind fun read hread => ?_
    exact (collide_admitted htext hmap name _).bind fun _ _ => .pure hread.map
  · have hnone : after? "map".toList text = none := by
      cases hafter : after? "map".toList text with
      | none => rfl
      | some rest => exact absurd ⟨rest, (after?_eq_some.mp hafter).symm⟩ hmap
    rw [mapForm_of_none hnone]
    exact region.plain htext trivial

end

section

variable {region : SourceRegion} (hquery : region.Admits query)

include hquery

theorem itemUpTo_keeps (bound : Nat) (registry : Registry) :
    region.Keeps (itemUpTo query bound registry) fun result =>
      EachPlace (Reaches region.toRegion) [result.1] := by
  induction bound generalizing registry with
  | zero => exact .miss trivial
  | succ bound ih =>
      exact (mapForm_keeps ih registry).orElse
        ((assignment_keeps hquery).bind fun _ hitem => .pure hitem)

theorem programUpTo_keeps (bound : Nat) (registry : Registry) :
    region.Keeps (programUpTo query bound registry) (EachPlace (Reaches region.toRegion)) := by
  induction bound generalizing registry with
  | zero => exact .miss trivial
  | succ bound ih =>
      have hparse : region.Keeps (parse query registry) fun result =>
          EachPlace (Reaches region.toRegion) [result.1] :=
        fun text htext => itemUpTo_keeps hquery text.length registry text htext
      have hend : region.Admits atEnd := Region.Keeps.here.bind fun _ _ => .pure trivial
      rw [programUpTo]
      refine hparse.bind fun first hfirst => (region.run_admitted isSpaceOrTab).bind fun _ _ => ?_
      refine hend.bind fun ended _ => ?_
      split
      · exact .pure hfirst
      · refine (region.lineBreak_admitted.expect "end of statement").bind fun _ _ => ?_
        refine region.blankLines_admitted.bind fun _ _ => hend.bind fun ended _ => ?_
        split
        · exact .pure hfirst
        · exact (ih first.2).bind fun others hothers => .pure (hfirst.cons hothers)

/-- Every failure of a parse, and every place that it records, is as the region promises. -/
theorem program_keeps : region.Keeps (program query) (EachPlace (Reaches region.toRegion)) :=
  region.blankLines_admitted.bind fun _ _ => Region.Keeps.here.bind fun rest _ =>
    programUpTo_keeps hquery rest.length .empty

end

end

end Item

/-- The last characters of a text, as many as a limit allows. -/
def SourceRegion.last (limit : Nat) : SourceRegion where
  Place text := text.length ≤ limit
  Fault place _ := place.length ≤ limit
  place_of_suffix htext hsuffix := Nat.le_trans hsuffix.length_le htext
  missing hplace _ := hplace
  plain hplace _ := hplace
  collision hplace _ := hplace
  emptySegment hplace := hplace

section

open Remap.Parser

variable {α : Type} {limit : Nat}

theorem within_iff_keeps {p : Parser α} {P : α → Prop} :
    Within limit p P ↔ (SourceRegion.last limit).Keeps p P := by
  refine forall₂_congr fun text _ => ?_
  cases p text <;> rfl

theorem Expr.parse_confined (limit : Nat) : Confined limit Expr.parse :=
  within_iff_keeps.mpr (Expr.parse_admitted _)

namespace Item

/-- All places that the items record are within the last characters of a text. -/
def PlacedWithin (limit : Nat) (items : List (Item ε)) : Prop :=
  ∀ place ∈ placesIn items, place ≤ limit

theorem PlacedWithin.cons {first : Item ε} {others : List (Item ε)}
    (hfirst : PlacedWithin limit [first]) (hothers : PlacedWithin limit others) :
    PlacedWithin limit (first :: others) :=
  EachPlace.cons hfirst hothers

theorem PlacedWithin.assign {remaining : Nat} (h : remaining ≤ limit) (target : Target)
    (expr : ε) : PlacedWithin limit [.assign remaining target expr] :=
  EachPlace.assign (P := (· ≤ limit)) h target expr

theorem PlacedWithin.map {name : String} {body : List (Item ε)} (h : PlacedWithin limit body) :
    PlacedWithin limit [.map name body] :=
  EachPlace.map h

/-- Every place that a parse records or fails at is within the text. -/
theorem program_within {query : Parser ε} (hquery : Confined limit query) :
    Within limit (program query) (PlacedWithin limit) := by
  refine within_iff_keeps.mpr ((program_keeps (within_iff_keeps.mp hquery)).mono ?_)
  rintro items hplaces place hplace
  obtain ⟨start, hstart, rfl⟩ := hplaces place hplace
  exact hstart

end Item

end

end Remap
