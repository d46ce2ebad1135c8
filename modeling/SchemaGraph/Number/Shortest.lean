import SchemaGraph.Number.Binary64

/-!
The shortest decimal that reads back as a given binary64 number, and its layout. The grids of the
powers of ten are tried from the coarsest down; the first that has a point in the interval of reals
rounding to the number gives the digits, and of two points the nearer.
-/

namespace SchemaGraph

structure Decimal where
  digits : Nat
  exponent : Int
deriving DecidableEq, Inhabited

namespace Binary64

/-! ### The interval of a number -/

/-- The reals from `lower · 2 ^ scale` to `upper · 2 ^ scale` around `value · 2 ^ scale`. -/
structure Interval where
  lower : Nat
  value : Nat
  upper : Nat
  scale : Int
  closed : Bool

/-- The reals that round to the magnitude of `x`: half a unit to both sides, a quarter below the
first number of a binary order; an even mantissa takes the ends. -/
def interval (x : Binary64) : Interval where
  lower := 4 * x.mantissa - if x.mantissa = Nat.pow 2 52 ∧ x.exponent ≠ -1074 then 1 else 2
  value := 4 * x.mantissa
  upper := 4 * x.mantissa + 2
  scale := x.exponent - 2
  closed := x.mantissa % 2 == 0

namespace Interval

/-- What a unit of the interval is multiplied with to be compared with points of the grid
`10 ^ k`. -/
def unit (i : Interval) (k : Int) : Nat := Nat.pow 2 i.scale.toNat * Nat.pow 10 (-k).toNat

/-- What a point of the grid `10 ^ k` is multiplied with to be compared with units. -/
def step (i : Interval) (k : Int) : Nat := Nat.pow 10 k.toNat * Nat.pow 2 (-i.scale).toNat

def contains (i : Interval) (d : Nat) (k : Int) : Bool :=
  let point := d * i.step k
  let lower := i.lower * i.unit k
  let upper := i.upper * i.unit k
  if i.closed then lower ≤ point && point ≤ upper else lower < point && point < upper

/-- The point below or at the value, on the grid `10 ^ k`. -/
def below (i : Interval) (k : Int) : Nat := i.value * i.unit k / i.step k

/-- Of the value's two neighbours on the grid `10 ^ k`, the one to write: the nearer one in the
interval, the even one if both are as near. -/
def point? (i : Interval) (k : Int) : Option Nat :=
  let d := i.below k
  match i.contains d k, i.contains (d + 1) k with
  | false, false => none
  | true, false => some d
  | false, true => some (d + 1)
  | true, true =>
    let twice := 2 * (i.value * i.unit k - d * i.step k)
    if twice < i.step k then some d
    else if i.step k < twice then some (d + 1)
    else some (d + d % 2)

/-- The first point on the grids `10 ^ k`, `10 ^ (k - 1)`, …. The value itself lies on the grid
where the search ends. -/
def search (i : Interval) (k : Int) : Decimal :=
  if k ≤ min i.scale 0 then ⟨i.below k, k⟩
  else
    match i.point? k with
    | some d => ⟨d, k⟩
    | none => search i (k - 1)
termination_by (k - min i.scale 0).toNat
decreasing_by omega

/-- A power of ten above the whole interval: a binary digit is worth less than `30103 / 100000`
decimal ones. -/
def top (i : Interval) : Int := ((Nat.log2 i.upper : Int) + 1 + i.scale) * 30103 / 100000 + 1

end Interval

/-- The shortest decimal that reads back as the magnitude of `x`, the nearest if there are more. -/
def shortest (x : Binary64) : Decimal :=
  if x.isZero then ⟨0, 0⟩ else x.interval.search x.interval.top

end Binary64

/-! ### Layout -/

/-- Which orders of magnitude are written without an exponent. -/
structure DecimalLayout where
  leastPositional : Int
  leastScientific : Int

namespace Decimal

def digitChars (d : Decimal) : List Char := Nat.toDigits 10 d.digits

def order (d : Decimal) : Int := d.exponent + (d.digitChars.length : Int) - 1

/-- Positional text with at least one digit on both sides of the point. -/
def positional (d : Decimal) : List Char :=
  let ds := d.digitChars
  if 0 ≤ d.exponent then ds ++ List.replicate d.exponent.toNat '0' ++ ['.', '0']
  else if 0 ≤ d.order then
    let places := (d.order + 1).toNat
    ds.take places ++ '.' :: ds.drop places
  else '0' :: '.' :: (List.replicate (-d.order - 1).toNat '0' ++ ds)

/-- Scientific text: a point only between digits, the exponent with its sign. -/
def scientific (d : Decimal) : List Char :=
  let mantissa := match d.digitChars with
    | [] => []
    | [c] => [c]
    | c :: rest => c :: '.' :: rest
  let sign := if d.order < 0 then '-' else '+'
  mantissa ++ 'e' :: sign :: Nat.toDigits 10 d.order.natAbs

/-- Positional from the layout's least positional order up to its least scientific one. -/
def render (layout : DecimalLayout) (d : Decimal) : List Char :=
  if d.digits = 0 ∨ layout.leastPositional ≤ d.order ∧ d.order < layout.leastScientific then
    d.positional
  else d.scientific

end Decimal

namespace Binary64

/-- The sign, if negative, and the shortest decimal in the given layout. -/
def render (layout : DecimalLayout) (x : Binary64) : List Char :=
  let magnitude := x.shortest.render layout
  if x.negative then '-' :: magnitude else magnitude

end Binary64

end SchemaGraph
