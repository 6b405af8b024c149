import Atmark.Decimal.Shortest

/-!
The text of a number: its shortest digits, written with a point in place or with a power of ten.
-/
namespace Atmark.Decimal

/-- How digits are laid out. -/
inductive Style where
  /-- With the point in its place, however many zeros that takes. -/
  | positional
  /-- With a power of ten if the exponent of the first digit is below `least` or not below `bound`. -/
  | general (least bound : Int)
  deriving DecidableEq, Repr

/-- The digits without the zeros at the end; zero has the digit zero. -/
def Digits.trimmed (d : Digits) : Text :=
  match (Text.ofNat d.digits).reverse.dropWhile (· = 0x30) with
  | [] => [0x30]
  | ds => ds.reverse

/-- How many digits stand before the point. -/
def Digits.point (d : Digits) : Int :=
  if d.digits = 0 then 1 else (Text.ofNat d.digits).length + d.exponent

/-- Zeros. -/
def zeros (n : Nat) : Text := List.replicate n 0x30

/-- Digits with so many of them before the point. -/
def positionalText (ds : Text) : Int → Text
  | .ofNat 0 => utf8 "0." ++ ds
  | .ofNat (n + 1) =>
    if ds.length ≤ n + 1 then ds ++ zeros (n + 1 - ds.length)
    else ds.take (n + 1) ++ utf8 "." ++ ds.drop (n + 1)
  | .negSucc n => utf8 "0." ++ zeros (n + 1) ++ ds

/-- A sign and at least two digits. -/
def exponentText (e : Int) : Text :=
  let ds := Text.ofNat e.natAbs
  (if e < 0 then utf8 "-" else utf8 "+") ++ zeros (2 - ds.length) ++ ds

/-- Digits of which the first counts for a power of ten. -/
def scientificText (ds : Text) (e : Int) : Text :=
  (match ds with
    | d :: r => d :: (if r.isEmpty then [] else utf8 "." ++ r)
    | [] => []) ++ utf8 "e" ++ exponentText e

/-- The text of digits in a style. -/
def Digits.write (d : Digits) : Style → Text
  | .positional => positionalText d.trimmed d.point
  | .general least bound =>
    let e := d.point - 1
    if e < least || bound ≤ e then scientificText d.trimmed e else positionalText d.trimmed d.point

/-- The text of a number of a format. -/
def Format.write (f : Format) (style : Style) : Number → Text
  | .finite negative m q => (if negative then utf8 "-" else []) ++ (f.shortest m q).write style
  | .infinite negative => utf8 (if negative then "-Inf" else "+Inf")
  | .undefined => utf8 "NaN"

end Atmark.Decimal
