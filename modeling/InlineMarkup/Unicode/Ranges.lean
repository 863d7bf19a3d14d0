/-!
# InlineMarkup.Unicode.Ranges

Sets of code points, written as lists of closed intervals.  The character
classes of the neighbouring modules are tables of this form; a class decides
the ASCII characters directly and consults its table for the others only.
-/

namespace InlineMarkup.Unicode

/-- A set of code points: the union of the closed intervals listed. -/
abbrev Ranges := List (Nat × Nat)

namespace Ranges

/-- Whether the code point `n` lies in one of the intervals. -/
def holds (ranges : Ranges) (n : Nat) : Bool :=
  ranges.any fun r => r.1 ≤ n && n ≤ r.2

/-- Whether `n` lies in one of the intervals at an even distance from its
lower end.  Scripts that alternate capital and small letters are listed once
and read this way. -/
def holdsAlternate (ranges : Ranges) (n : Nat) : Bool :=
  ranges.any fun r => r.1 ≤ n && n ≤ r.2 && (n - r.1) % 2 == 0

theorem holds_iff {ranges : Ranges} {n : Nat} :
    ranges.holds n = true ↔ ∃ r ∈ ranges, r.1 ≤ n ∧ n ≤ r.2 := by
  simp [holds]

end Ranges

end InlineMarkup.Unicode
