import SchemaGraph.Number.Binary64

/-!
Decimal literals and the numbers they stand for. A literal without fraction and exponent that fits
64 bits stays an exact integer. Any other is a binary64 number, made in two rounded steps: the
leading digits that fit 64 bits become a number, which a power of ten then scales.
-/

namespace SchemaGraph

/-- An exact integer or a binary64 number. -/
inductive Number where
  | int (value : Int)
  | float (value : Binary64)
deriving DecidableEq, Inhabited

/-- The parts of a literal such as `-12.50e3`, digit by digit. -/
structure Literal where
  negative : Bool := false
  whole : List Nat
  fraction : Option (List Nat) := none
  power : Option Int := none
deriving DecidableEq

namespace Literal

/-! ### Spelling -/

def digit? (c : Char) : Option Nat :=
  if '0' ≤ c ∧ c ≤ '9' then some (c.toNat - '0'.toNat) else none

/-- The digits at the head of the text, and what follows them. -/
def digits : List Char → List Nat × List Char
  | [] => ([], [])
  | c :: rest =>
    match digit? c with
    | some d => let (ds, rest) := digits rest; (d :: ds, rest)
    | none => ([], c :: rest)

def ofDigits (ds : List Nat) : Nat := ds.foldl (fun n d => 10 * n + d) 0

/-- A sign at the head: `true` for minus. -/
def sign : List Char → Bool × List Char
  | '-' :: rest => (true, rest)
  | '+' :: rest => (false, rest)
  | rest => (false, rest)

/-- The exponent part, if there is one: `e` or `E`, a sign or none, digits. -/
def readPower : List Char → Option (Option Int × List Char)
  | c :: rest =>
    if c = 'e' ∨ c = 'E' then
      let (negative, rest) := sign rest
      match digits rest with
      | ([], _) => none
      | (ds, rest) =>
        let magnitude : Int := ofDigits ds
        some (some (if negative then -magnitude else magnitude), rest)
    else some (none, c :: rest)
  | [] => some (none, [])

/-- The fraction part, if there is one: a point and at least one digit. -/
def readFraction : List Char → Option (Option (List Nat) × List Char)
  | '.' :: rest =>
    match digits rest with
    | ([], _) => none
    | (ds, rest) => some (some ds, rest)
  | rest => some (none, rest)

/-- The digits before the point: at least one, and no zero in front of others. -/
def readWhole (text : List Char) : Option (List Nat × List Char) :=
  match digits text with
  | ([], _) => none
  | (0 :: _ :: _, _) => none
  | (ds, rest) => some (ds, rest)

/-- Reads a whole text as a literal. -/
def ofChars? (text : List Char) : Option Literal := do
  let (negative, text) := match text with
    | '-' :: rest => (true, rest)
    | rest => (false, rest)
  let (whole, text) ← readWhole text
  let (fraction, text) ← readFraction text
  let (power, text) ← readPower text
  if text.isEmpty then some { negative, whole, fraction, power } else none

/-! ### Value -/

/-- Appends to `n` the leading digits for which it stays below `2 ^ 64`, and returns the others. -/
def takeWord (n : Nat) : List Nat → Nat × List Nat
  | [] => (n, [])
  | d :: ds => if 10 * n + d < Nat.pow 2 64 then takeWord (10 * n + d) ds else (n, d :: ds)

/-- The leading digits that fit 64 bits and the power of ten that goes with them. Digits before the
point that do not fit count for the power; those behind it are left out. -/
def significand (l : Literal) : Nat × Int :=
  let (n, dropped) := takeWord 0 l.whole
  let fraction := l.fraction.getD []
  let (n, ignored) := takeWord n fraction
  (n, (dropped.length : Int) - ((fraction.length - ignored.length : Nat) : Int) + l.power.getD 0)

def maxTenPower : Nat := 308

def tenPower? (k : Nat) : Option Binary64 := Binary64.nearest? false (Nat.pow 10 k) 1

/-- Divides `count` times by `10 ^ 308`; zero stays zero. -/
def scaleDownFully? (x : Binary64) : Nat → Option Binary64
  | 0 => some x
  | count + 1 =>
    if x.isZero then some x
    else (tenPower? maxTenPower).bind fun ten => (x.over? ten).bind (scaleDownFully? · count)

/-- Divides by `10 ^ k`, in steps of at most `10 ^ 308`. -/
def scaleDown? (x : Binary64) (k : Nat) : Option Binary64 := do
  let x ← scaleDownFully? x ((k - 1) / maxTenPower)
  x.over? (← tenPower? (k - (k - 1) / maxTenPower * maxTenPower))

/-- Multiplies by `10 ^ k`; none on overflow. -/
def scaleUp? (x : Binary64) (k : Nat) : Option Binary64 :=
  if k ≤ maxTenPower then do x.times? (← tenPower? k)
  else if x.isZero then some x
  else none

/-- The binary64 number of a literal; none if it is infinite. -/
def float? (l : Literal) : Option Binary64 := do
  let (n, power) := l.significand
  let x ← Binary64.nearest? l.negative n 1
  if 0 ≤ power then scaleUp? x power.toNat else scaleDown? x (-power).toNat

/-- The exact integer of a literal without fraction and exponent, from `-2 ^ 63` to `2 ^ 64 - 1`.
Minus zero has none. -/
def int? (l : Literal) : Option Int :=
  if l.fraction.isSome ∨ l.power.isSome then none
  else
    let n := ofDigits l.whole
    if l.negative then if n = 0 ∨ Nat.pow 2 63 < n then none else some (-n)
    else if n < Nat.pow 2 64 then some n else none

/-- The number of a literal; none if it is infinite. -/
def number? (l : Literal) : Option Number :=
  match l.int? with
  | some n => some (.int n)
  | none => l.float?.map .float

end Literal

end SchemaGraph
