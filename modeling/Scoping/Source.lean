/-!
# Positions in source text

A declaration is located by the range of text that declares it. Positions are only carried,
compared and printed here; no arithmetic is done on them.

## Main definitions

* `Scoping.Location`, `Scoping.Range` — a point and a stretch of source text
* `Scoping.Located` — a value together with the range it was written at
-/

namespace Scoping

/-- A point in the source text. Points are ordered by row, then by column. -/
structure Location where
  row : Nat
  column : Nat
deriving DecidableEq, Ord

instance : ToString Location where
  toString l := s!"{l.row}:{l.column}"

/-- A stretch of source text. Ranges are ordered by their start, then by their end. -/
structure Range where
  start : Location
  stop : Location
deriving DecidableEq, Ord

/-- The stretch of row `row` from column `first` to column `last`. -/
def Range.onRow (row first last : Nat) : Range where
  start := { row, column := first }
  stop := { row, column := last }

instance : ToString Range where
  toString r := s!"{r.start}-{r.stop}"

/-- A value together with the range it was written at. The range comes first in the order. -/
structure Located (α : Type) where
  range : Range
  value : α
deriving DecidableEq, Ord

end Scoping
