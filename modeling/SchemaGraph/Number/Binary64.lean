/-!
Finite binary64 numbers as exact values `± mantissa · 2 ^ exponent`, and the rounding of fractions,
products and quotients to the nearest of them, ties to the even mantissa.
-/

namespace SchemaGraph

/-! ### Rounding to an integer -/

/-- The integer nearest to `num / den`, ties to the even one. -/
def roundQuotient (num den : Nat) : Nat :=
  let quotient := num / den
  let twice := 2 * (num % den)
  if twice < den then quotient
  else if den < twice then quotient + 1
  else quotient + quotient % 2

/-! ### Finite numbers -/

/-- The number `± mantissa · 2 ^ exponent`. The bounds make the number finite and its form unique: a
mantissa of fewer than 53 binary digits occurs with the least exponent only. -/
structure Binary64 where
  negative : Bool
  mantissa : Nat
  exponent : Int
  mantissa_lt : mantissa < Nat.pow 2 53
  exponent_mem : -1074 ≤ exponent ∧ exponent ≤ 971
  normal : exponent = -1074 ∨ Nat.pow 2 52 ≤ mantissa
deriving DecidableEq

namespace Binary64

def zero (negative : Bool) : Binary64 where
  negative := negative
  mantissa := 0
  exponent := -1074
  mantissa_lt := by decide
  exponent_mem := by decide
  normal := .inl rfl

instance : Inhabited Binary64 := ⟨zero false⟩

def isZero (x : Binary64) : Bool := x.mantissa == 0

/-- The number of this sign, mantissa and exponent, if they are in bounds. -/
def mk? (negative : Bool) (mantissa : Nat) (exponent : Int) : Option Binary64 :=
  if h : mantissa < Nat.pow 2 53 ∧ (-1074 ≤ exponent ∧ exponent ≤ 971) ∧
      (exponent = -1074 ∨ Nat.pow 2 52 ≤ mantissa) then
    some ⟨negative, mantissa, exponent, h.1, h.2.1, h.2.2⟩
  else
    none

/-- The exponent of the greatest power of two that is at most `num / den`. -/
def binaryOrder (num den : Nat) : Int :=
  let order := (Nat.log2 num : Int) - (Nat.log2 den : Int)
  let reached :=
    if 0 ≤ order then den * Nat.pow 2 order.toNat ≤ num else den ≤ num * Nat.pow 2 (-order).toNat
  if reached then order else order - 1

/-- The integer nearest to `(num / den) / 2 ^ exponent`, ties to the even one. -/
def roundAt (num den : Nat) (exponent : Int) : Nat :=
  if 0 ≤ exponent then roundQuotient num (den * Nat.pow 2 exponent.toNat)
  else roundQuotient (num * Nat.pow 2 (-exponent).toNat) den

/-- The number nearest to `± num / den`, ties to the even mantissa; none if that is infinite. -/
def nearest? (negative : Bool) (num den : Nat) : Option Binary64 :=
  if num = 0 then some (zero negative)
  else
    let exponent := max (-1074) (binaryOrder num den - 52)
    let mantissa := roundAt num den exponent
    if mantissa = Nat.pow 2 53 then mk? negative (Nat.pow 2 52) (exponent + 1)
    else mk? negative mantissa exponent

/-- The number nearest to `± (num / den) · 2 ^ scale`. -/
def nearestScaled? (negative : Bool) (num den : Nat) (scale : Int) : Option Binary64 :=
  if 0 ≤ scale then nearest? negative (num * Nat.pow 2 scale.toNat) den
  else nearest? negative num (den * Nat.pow 2 (-scale).toNat)

/-- The rounded product; none on overflow. -/
def times? (x y : Binary64) : Option Binary64 :=
  nearestScaled? (x.negative != y.negative) (x.mantissa * y.mantissa) 1 (x.exponent + y.exponent)

/-- The rounded quotient; none on overflow and for a zero divisor. -/
def over? (x y : Binary64) : Option Binary64 :=
  if y.isZero then none
  else nearestScaled? (x.negative != y.negative) x.mantissa y.mantissa (x.exponent - y.exponent)

end Binary64

end SchemaGraph
