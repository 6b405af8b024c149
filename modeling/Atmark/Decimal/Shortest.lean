import Atmark.Decimal.Number

/-!
The fewest decimal digits that read back as a number. The reals that round to `m · 2^q` form an
interval around it. The decimal grids are tried from coarse to fine, and the first grid with a point in
the interval gives the digits; of two such points the nearer one is taken.
-/
namespace Atmark.Decimal

/-- A decimal value `digits · 10^exponent`. -/
structure Digits where
  digits : Nat
  exponent : Int
  deriving DecidableEq, Repr

/-- The reals that round to a number, in quarters of its last place. -/
structure Interval where
  value : Nat
  low : Nat
  high : Nat
  /-- The ends belong to it. -/
  closed : Bool
  /-- A quarter of the last place, as a fraction. -/
  unit : Nat × Nat

/-- The interval of `m · 2^q`. Below a power of two the numbers lie closer together. -/
def Format.interval (f : Format) (m : Nat) (q : Int) : Interval :=
  { value := 4 * m
    low := if m = Nat.pow 2 (f.width - 1) && f.least < q then 4 * m - 1 else 4 * m - 2
    high := 4 * m + 2
    closed := m % 2 = 0
    unit := power 2 (q - 2) }

/-- The point `c · 10^k` in the units of the interval, as a fraction. -/
def Interval.scaled (i : Interval) (c : Nat) (k : Int) : Nat × Nat :=
  let (a, b) := power 10 k
  (c * a * i.unit.2, b * i.unit.1)

/-- The point `c · 10^k` lies in the interval. -/
def Interval.holds (i : Interval) (c : Nat) (k : Int) : Bool :=
  let (num, den) := i.scaled c k
  if i.closed then i.low * den ≤ num && num ≤ i.high * den
  else i.low * den < num && num < i.high * den

/-- The point `c · 10^k` is below the value, and at most as far from it as the next point. -/
def Interval.nearer (i : Interval) (c : Nat) (k : Int) : Bool :=
  let (num, den) := i.scaled c k
  let (num', _) := i.scaled (c + 1) k
  let below := i.value * den - num
  let above := num' - i.value * den
  below < above || (below = above && c % 2 = 0)

/-- The point of the grid of exponent `k` that stands for the number, if there is one. -/
def Interval.candidate? (i : Interval) (k : Int) : Option Nat :=
  let (a, b) := power 10 k
  let c := i.value * i.unit.1 * b / (i.unit.2 * a)
  match i.holds c k, i.holds (c + 1) k with
  | true, true => some (if i.nearer c k then c else c + 1)
  | true, false => some c
  | false, true => some (c + 1)
  | false, false => none

/-- The exponent of the first power of ten above a positive fraction. -/
def magnitude (num den : Nat) : Int :=
  if den ≤ num then (Nat.toDigits 10 (num / den)).length
  else 1 - (Nat.toDigits 10 ((den - 1) / num)).length

/-- The candidate of the first grid that has one, with `n` grids to try; else the value at hand. -/
def Interval.search (i : Interval) (k : Int) : Nat → Digits
  | 0 => ⟨0, k⟩
  | n + 1 => match i.candidate? k with
    | some c => ⟨c, k⟩
    | none => i.search (k - 1) n

/-- The fewest digits that read back as `m · 2^q`; seventeen are always enough. -/
def Format.shortest (f : Format) (m : Nat) (q : Int) : Digits :=
  if m = 0 then ⟨0, 0⟩
  else
    let i := f.interval m q
    let (a, b) := power 2 q
    i.search (magnitude (m * a) b - 1) 18

end Atmark.Decimal
