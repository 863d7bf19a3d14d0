import InlineMarkup.Unicode.Ranges

/-!
# InlineMarkup.Unicode.Space

White space in the sense of the Unicode property `White_Space`: 25 code
points, among them the line feed, the no-break space and the ideographic
space.  The zero-width space and the byte order mark are not among them.
-/

namespace InlineMarkup.Unicode

/-- The code points of white space. -/
def spaceRanges : Ranges :=
  [(0x9, 0xD), (0x20, 0x20), (0x85, 0x85), (0xA0, 0xA0), (0x1680, 0x1680), (0x2000, 0x200A),
    (0x2028, 0x2029), (0x202F, 0x202F), (0x205F, 0x205F), (0x3000, 0x3000)]

/-- Whether `c` is white space. -/
def isSpace (c : Char) : Bool := spaceRanges.holds c.toNat

end InlineMarkup.Unicode
