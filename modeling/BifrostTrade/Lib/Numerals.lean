import Mathlib.Data.Nat.Cast.Defs

/-!
# Numerals of a field

A numeral over a field carries the proof that it is at least two.  The proofs of the numerals that
definitions use are named here, so that a numeral is the same term in each of them.
-/

namespace Numerals

scoped instance two : Nat.AtLeastTwo 2 := ⟨by decide⟩
scoped instance three : Nat.AtLeastTwo 3 := ⟨by decide⟩
scoped instance four : Nat.AtLeastTwo 4 := ⟨by decide⟩
scoped instance five : Nat.AtLeastTwo 5 := ⟨by decide⟩
scoped instance ten : Nat.AtLeastTwo 10 := ⟨by decide⟩
scoped instance fifteen : Nat.AtLeastTwo 15 := ⟨by decide⟩
scoped instance twenty : Nat.AtLeastTwo 20 := ⟨by decide⟩
scoped instance hundred : Nat.AtLeastTwo 100 := ⟨by decide⟩
scoped instance daysOfYear : Nat.AtLeastTwo 365 := ⟨by decide⟩
scoped instance thousand : Nat.AtLeastTwo 1000 := ⟨by decide⟩

end Numerals
