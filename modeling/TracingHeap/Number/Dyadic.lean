namespace TracingHeap

def twoTo (n : Nat) : Nat := Nat.pow 2 n

def tenTo (n : Nat) : Nat := Nat.pow 10 n

/-- The value `mantissa * 2 ^ exponent`, or its negative. -/
structure Dyadic where
  negative : Bool
  mantissa : Nat
  exponent : Int
deriving DecidableEq

namespace Dyadic

/-- The value of a number from its bits: a sign, eleven bits of exponent and 52 of mantissa. -/
def ofBits (b : Nat) : Dyadic :=
  let negative := decide (twoTo 63 ≤ b)
  let e : Nat := b / twoTo 52 % twoTo 11
  let f : Nat := b % twoTo 52
  if e = 0 then ⟨negative, f, -1074⟩ else ⟨negative, twoTo 52 + f, (e : Int) - 1075⟩

def ofFloat? (x : Float) : Option Dyadic :=
  if x.isFinite then some (ofBits x.toBits.toNat) else none

def fraction (d : Dyadic) : Nat × Nat :=
  (d.mantissa * twoTo d.exponent.toNat, twoTo (-d.exponent).toNat)

end Dyadic

/-- The quotient of `n` by `d`, rounded to the nearest whole number, a half to the even one. -/
def roundHalfEven (n d : Nat) : Nat :=
  let q := n / d
  let r := n % d
  if 2 * r < d then q
  else if d < 2 * r then q + 1
  else if q % 2 = 0 then q else q + 1

end TracingHeap
