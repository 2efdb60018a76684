import GraphCodec.Binary.Basic
import GraphCodec.Decimal.Numeral

/-!
# Reading binary numbers from decimal text

`Binary.ofDecimal` rounds an exact decimal once, to the closest number of the format.  Exponents
far outside the format's range are decided without computing the power of ten.
`Binary.ofText?` reads the text of a number: a numeral, or the name of an infinity or of the value
that is not a number, in any letter case and with an optional sign.
-/

namespace GraphCodec.Binary

/-- The number closest to a signed decimal.  Beyond `10 ^ (2 ^ exponentBits)`, and below its
inverse, every positive decimal rounds to infinity and to zero. -/
def ofDecimal (f : BinaryFormat) (negative : Bool) (d : Decimal) : Binary f :=
  let bound : Int := 2 ^ f.exponentBits
  if d.digits = 0 then ofRank f negative 0
  else if bound < d.exponent then .infinite negative
  else if d.exponent + (Decimal.digitsOf d.digits).length < -bound then ofRank f negative 0
  else ofRatio f negative d.ratio.1 d.ratio.2

/-- The number closest to a numeral. -/
def ofNumeral (f : BinaryFormat) (n : Numeral) : Binary f :=
  ofDecimal f n.negative n.magnitude

/-- Reads the text of a number. -/
def ofText? (f : BinaryFormat) (text : String) : Option (Binary f) :=
  let (negative, unsigned) := Numeral.splitSign text.toList
  match String.ofList (unsigned.map Char.toLower) with
  | "inf" | "infinity" => some (.infinite negative)
  | "nan" => some .nan
  | _ => (Numeral.read? text.toList).map (ofNumeral f)

end GraphCodec.Binary
