import Atmark.Text.Case

/-!
Binary floating-point numbers as exact values `m · 2^q`, and the number that a decimal text means: the
nearest one of the format, with a tie going to the even significand.
-/
namespace Atmark.Decimal

/-- A binary format: the width of the significand and the range of the exponent. -/
structure Format where
  width : Nat
  least : Int
  greatest : Int
  deriving DecidableEq, Repr

/-- Numbers of 64 bits. -/
def double : Format := ⟨53, -1074, 971⟩

/-- Numbers of 32 bits. -/
def single : Format := ⟨24, -149, 104⟩

/-- A number of some format. -/
inductive Number where
  | finite (negative : Bool) (m : Nat) (q : Int)
  | infinite (negative : Bool)
  | undefined
  deriving DecidableEq, Repr

/-- The power of a base as a fraction. -/
def power (base : Nat) : Int → Nat × Nat
  | .ofNat n => (base.pow n, 1)
  | .negSucc n => (1, base.pow (n + 1))

/-- The nearest integer to a fraction, the even one of two. -/
def roundDiv (num den : Nat) : Nat :=
  let q := num / den
  let twice := 2 * (num % den)
  if twice < den || (twice = den && q % 2 = 0) then q else q + 1

/-- The exponent at which a positive fraction has a significand of full width, if the exponent may be
so small. -/
def Format.exponent (f : Format) (num den : Nat) : Int :=
  let q : Int := (num.log2 : Int) - (den.log2 : Int) - f.width
  let (a, b) := power 2 q
  max f.least (if num * b / (den * a) < Nat.pow 2 f.width then q else q + 1)

/-- The number of the format nearest to a fraction. -/
def Format.round (f : Format) (negative : Bool) (num den : Nat) : Number :=
  if num = 0 then .finite negative 0 f.least
  else
    let q := f.exponent num den
    let (a, b) := power 2 q
    let m := roundDiv (num * b) (den * a)
    let (m, q) := if m = Nat.pow 2 f.width then (Nat.pow 2 (f.width - 1), q + 1) else (m, q)
    if f.greatest < q then .infinite negative else .finite negative m q

/-- The digits at the beginning of a text. -/
def digitRun (t : Text) : Text × Text :=
  let isDigit (b : UInt8) : Bool := 0x30 ≤ b && b ≤ 0x39
  (t.takeWhile isDigit, t.dropWhile isDigit)

/-- The number that digits write. -/
def digitsValue (ds : Text) : Nat := ds.foldl (fun n b => n * 10 + (b.toNat - 0x30)) 0

/-- A sign and what follows. -/
def signed : Text → Bool × Text
  | 0x2D :: r => (true, r)
  | 0x2B :: r => (false, r)
  | t => (false, t)

/-- The exponent at the end of a text. -/
def readExponent? : Text → Option Int
  | [] => some 0
  | b :: r =>
    if b = 0x65 || b = 0x45 then
      let (negative, ds) := signed r
      let (run, rest) := digitRun ds
      if run.isEmpty || !rest.isEmpty then none
      else some (if negative then -(digitsValue run : Int) else digitsValue run)
    else none

/-- The significant digits and the decimal exponent of a text without sign. -/
def readDecimal? (t : Text) : Option (Nat × Int) := do
  let (whole, r) := digitRun t
  let (part, r) := match r with
    | 0x2E :: r => digitRun r
    | _ => ([], r)
  if whole.isEmpty && part.isEmpty then none
  let e ← readExponent? r
  return (digitsValue (whole ++ part), e - part.length)

/-- The exponents beyond which every number of a format is zero or infinite, for digits of moderate
number. -/
def exponentBound : Int := 5000

/-- The number that a text means in a format. -/
def Format.read? (f : Format) (t : Text) : Option Number :=
  let (negative, r) := signed t
  let word := Text.lower r
  if word = utf8 "inf" || word = utf8 "infinity" then some (.infinite negative)
  else if Text.lower t = utf8 "nan" then some .undefined
  else (readDecimal? r).map fun (digits, e) =>
    let (a, b) := power 10 (max (-exponentBound) (min exponentBound e))
    f.round negative (digits * a) b

end Atmark.Decimal
