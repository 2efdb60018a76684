import GraphCodec.Decimal.Basic

/-!
# Laying out a decimal number

A decimal is written positionally, always with a fraction (`1.0`, `0.00001`), when the exponent
of its first digit lies in the layout's range, and otherwise in scientific form with an explicit
sign on the exponent and no padding (`1e+16`, `1.5e-7`).
-/

namespace GraphCodec

/-- The exponents of the first digit for which a number is written positionally. -/
structure DecimalLayout where
  least : Int
  greatest : Int

namespace DecimalLayout

open Decimal

/-- The positional form, given the digits, their count of whole places and the exponent of the
last digit. -/
def positional (ds : List Char) (exponent : Int) : List Char :=
  let places : Int := ds.length + exponent
  if 0 ≤ exponent then ds ++ List.replicate exponent.toNat '0' ++ ['.', '0']
  else if 0 < places then ds.take places.toNat ++ '.' :: ds.drop places.toNat
  else '0' :: '.' :: (List.replicate (-places).toNat '0' ++ ds)

/-- The scientific form, given the digits and the exponent of the first one. -/
def scientific (ds : List Char) (leading : Int) : List Char :=
  let mantissa := match ds with
    | d :: [] => [d]
    | d :: rest => d :: '.' :: rest
    | [] => []
  let sign := if leading < 0 then '-' else '+'
  mantissa ++ 'e' :: sign :: digitsOf leading.natAbs

/-- The text of a decimal number with the given sign. -/
def render (l : DecimalLayout) (negative : Bool) (d : Decimal) : String :=
  let ds := digitsOf d.digits
  let leading : Int := d.exponent + (ds.length - 1)
  let body :=
    if l.least ≤ leading ∧ leading ≤ l.greatest then positional ds d.exponent
    else scientific ds leading
  String.ofList (if negative then '-' :: body else body)

end DecimalLayout

end GraphCodec
