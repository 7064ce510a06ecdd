import StyleTrim.Text.Decimal

/-!
# Sizes and reductions

Sizes are shown in megabytes or kilobytes with one decimal, and the effect of a job in percent.
-/

namespace StyleTrim

/-!
## Rounding
-/

def roundHalfEven (num den : Nat) : Nat :=
  let q := num / den
  let twice := 2 * (num % den)
  if twice < den then q
  else if den < twice then q + 1
  else q + q % 2

def roundHalfUp (num den : Nat) : Nat :=
  (2 * num + den) / (2 * den)

/-!
## Sizes
-/

def megabytes (bytes : Nat) : Bytes :=
  Decimal.ofTenths (roundHalfEven (10 * bytes) (1024 * 1024)) ++ ascii "MB"

def kilobytes (bytes : Nat) : Bytes :=
  Decimal.ofTenths (roundHalfUp (10 * bytes) 1024) ++ ascii "KB"

/-!
## Reductions

The percentage is computed in binary floating point, rounded to the nearest whole number with
halves away from zero, and kept as a signed word of 32 bits. A value beyond the 64-bit range
counts as the least number of that range.
-/

def roundAway (x : Float) : Int :=
  let bits := x.toBits.toNat
  let exponent := bits / 0x10000000000000 % 0x800
  let fraction := bits % 0x10000000000000
  let significand := if exponent = 0 then fraction else fraction + 0x10000000000000
  let scale := max exponent 1
  let magnitude :=
    if 1075 ≤ scale then significand <<< (scale - 1075)
    else roundHalfUp significand (1 <<< (1075 - scale))
  if 0x8000000000000000 ≤ bits then -(magnitude : Int) else magnitude

def toWord (n : Int) : Int :=
  if -0x8000000000000000 ≤ n ∧ n < 0x8000000000000000 then n.bmod 0x100000000 else 0

/-- By how many percent the output is smaller than the input; nothing is said of an empty
input. -/
def reductionPercent (input output : Nat) : Int :=
  if input = 0 then 0
  else
    let ratio := output.toUInt64.toFloat / input.toUInt64.toFloat
    toWord (roundAway ((1.0 - ratio) * 100.0))

def percent (n : Int) : Bytes :=
  Decimal.ofInt n ++ [0x25]

end StyleTrim
