import Dockerfile.Text.PrintableTable

/-!
# Character classes

Which characters a quoted text shows as they are, and which characters count as white space.
-/

namespace Dockerfile

/-- A character that is shown as it is; of the spaces only the ASCII one. -/
def isPrintable (c : Char) : Bool :=
  let n := c.toNat
  if n < 0x80 then 0x20 ≤ n && n < 0x7f
  else
    let ranges :=
      if n < 0x2000 then Printable.low
      else if n < 0x10000 then Printable.middle
      else Printable.high
    ranges.any fun range => range.1 ≤ n && n ≤ range.2

def isWhiteSpace (c : Char) : Bool :=
  let n := c.toNat
  (0x09 ≤ n && n ≤ 0x0d) || n == 0x20 || n == 0x85 || n == 0xa0 || n == 0x1680 ||
    (0x2000 ≤ n && n ≤ 0x200a) || n == 0x2028 || n == 0x2029 || n == 0x202f || n == 0x205f ||
    n == 0x3000

end Dockerfile
