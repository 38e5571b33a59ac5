/-! # White space

The characters with the Unicode property White_Space, and their removal from the two ends
of a text.
-/

namespace PolyEq

/-- The Unicode property White_Space. -/
def isWhiteSpace (c : Char) : Bool :=
  let n := c.toNat
  (0x9 ≤ n && n ≤ 0xD) || n == 0x20 || n == 0x85 || n == 0xA0 || n == 0x1680 ||
    (0x2000 ≤ n && n ≤ 0x200A) || n == 0x2028 || n == 0x2029 || n == 0x202F || n == 0x205F ||
    n == 0x3000

/-- No-break and ideographic spaces have the property, the zero-width space does not. -/
example : isWhiteSpace '\u00a0' && isWhiteSpace '\u3000' && !isWhiteSpace '\u200b' := by decide

def trimStart (text : List Char) : List Char :=
  text.dropWhile isWhiteSpace

def trimEnd (text : List Char) : List Char :=
  (text.reverse.dropWhile isWhiteSpace).reverse

def trim (text : List Char) : List Char :=
  trimEnd (trimStart text)

end PolyEq
