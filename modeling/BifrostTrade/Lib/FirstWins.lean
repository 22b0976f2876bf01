import Mathlib.Data.Set.Insert

/-!
# Columns that are filled once

A record of columns that may be empty, filled with `COALESCE(column, value)` from one record after
another.  Every column keeps the first value it got, so that the columns may come from different
records: they stay those of one record exactly when every record filled in either has all the
values that are there, or brings no column a first value (`oneSource_fill_iff`).
-/

namespace FirstWins

variable {C V : Type*} {g h h' : C → Option V}

/-- `COALESCE(g, h)` in every column. -/
def fill (g h : C → Option V) (c : C) : Option V := (g c).or (h c)

/-- All values of `g` are those of `h`. -/
def PartOf (g h : C → Option V) : Prop := ∀ c x, g c = some x → h c = some x

/-- `g` has a value wherever `h` has one. -/
def Covers (g h : C → Option V) : Prop := ∀ c, g c = none → h c = none

/-- The values of `g`, if any, are those of one of the sources. -/
def OneSource (sources : Set (C → Option V)) (g : C → Option V) : Prop :=
  (∀ c, g c = none) ∨ ∃ h ∈ sources, PartOf g h

theorem PartOf.trans {i : C → Option V} (hgh : PartOf g h) (hhi : PartOf h i) : PartOf g i :=
  fun c x hx => hhi c x (hgh c x hx)

theorem partOf_fill (g h : C → Option V) : PartOf g (fill g h) := fun c x hx => by
  rw [fill, hx, Option.some_or]

theorem fill_of_partOf (hgh : PartOf g h) : fill g h = h := by
  funext c
  cases hc : g c with
  | none => rw [fill, hc, Option.none_or]
  | some x => rw [fill, hc, Option.some_or, hgh c x hc]

theorem fill_of_covers (hgh : Covers g h) : fill g h = g := by
  funext c
  cases hc : g c with
  | none => rw [fill, hc, Option.none_or, hgh c hc]
  | some x => rw [fill, hc, Option.some_or]

/-- Once covered, always covered. -/
theorem Covers.fill (hgh : Covers g h') (h : C → Option V) : Covers (fill g h) h' := by
  intro c hc
  rw [FirstWins.fill, Option.or_eq_none_iff] at hc
  exact hgh c hc.1

theorem covers_fill (g h : C → Option V) : Covers (fill g h) h := by
  intro c hc
  rw [fill, Option.or_eq_none_iff] at hc
  exact hc.2

theorem OneSource.mono {sources sources' : Set (C → Option V)} (hsub : sources ⊆ sources')
    (hg : OneSource sources g) : OneSource sources' g :=
  hg.imp_right fun ⟨h, hmem, hpart⟩ => ⟨h, hsub hmem, hpart⟩

/-- What was filled from sources before has one source after the next fill exactly when that is of
all the values there, or adds none. -/
theorem oneSource_fill_iff {sources : Set (C → Option V)} (hcover : ∀ h' ∈ sources, Covers g h')
    (hone : OneSource sources g) :
    OneSource (insert h sources) (fill g h) ↔ PartOf g h ∨ Covers g h := by
  constructor
  · rintro (hnone | ⟨h', hmem, hpart⟩)
    · exact .inr fun c _ => (Option.or_eq_none_iff.1 (hnone c)).2
    · rcases hmem with rfl | hmem
      · exact .inl ((partOf_fill g h').trans hpart)
      · right
        intro c hc
        -- a column that comes in would be one of an earlier source, which has left none empty
        cases hx : h c with
        | none => rfl
        | some x =>
          have hfill : fill g h c = some x := by rw [fill, hc, Option.none_or, hx]
          have hold := hcover h' hmem c hc
          rw [hpart c x hfill] at hold
          cases hold
  · rintro (hpart | hcovers)
    · exact .inr ⟨h, Set.mem_insert h sources, by rw [fill_of_partOf hpart]; exact fun _ _ hx => hx⟩
    · rw [fill_of_covers hcovers]
      exact hone.mono (Set.subset_insert h sources)

end FirstWins
