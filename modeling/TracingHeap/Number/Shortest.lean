import TracingHeap.Number.Dyadic

namespace TracingHeap

structure Decimal where
  digits : Nat
  exponent : Int
deriving DecidableEq

namespace Decimal

def fraction (d : Decimal) : Nat × Nat :=
  (d.digits * tenTo d.exponent.toNat, tenTo (-d.exponent).toNat)

def stripZeros : (fuel : Nat) → Decimal → Decimal
  | 0, d => d
  | fuel + 1, d =>
    if d.digits % 10 = 0 ∧ d.digits ≠ 0 then stripZeros fuel ⟨d.digits / 10, d.exponent + 1⟩ else d

end Decimal

namespace Dyadic

/-- Whether the neighbour below is half as far away as the one above. -/
def isNarrow (d : Dyadic) : Bool := d.mantissa == twoTo 52 && decide (-1074 < d.exponent)

/-- Whether `a` is less than `b`, or no more where ends count. -/
def below (ends : Bool) (a b : Nat × Nat) : Bool :=
  let l := a.1 * b.2
  let r := b.1 * a.2
  decide (l < r) || (ends && l == r)

/-- Whether a decimal lies in the interval of values that are nearer to a number than to its neighbours. The
ends belong to the interval when the mantissa is even. -/
def identifiedBy (d : Dyadic) (x : Decimal) : Bool :=
  let quarters := 4 * d.mantissa
  let low : Dyadic := ⟨false, if d.isNarrow then quarters - 1 else quarters - 2, d.exponent - 2⟩
  let high : Dyadic := ⟨false, quarters + 2, d.exponent - 2⟩
  let ends := d.mantissa % 2 == 0
  below ends low.fraction x.fraction && below ends x.fraction high.fraction

/-- The place of the first decimal digit: `10 ^ (k - 1) ≤ d < 10 ^ k`. -/
def magnitude (d : Dyadic) : Int :=
  let (n, m) := d.fraction
  if m ≤ n then ((toString (n / m)).length : Int)
  else
    let k := (toString (m / n)).length
    if m = n * tenTo (k - 1) then 2 - (k : Int) else 1 - (k : Int)

/-- The nearer of the two decimals around a number with a given exponent, if it identifies the
number; of two at the same distance the greater. -/
def nearest? (d : Dyadic) (exponent : Int) : Option Decimal :=
  let (n, m) := d.fraction
  let n := n * tenTo (-exponent).toNat
  let m := m * tenTo exponent.toNat
  let lower : Decimal := ⟨n / m, exponent⟩
  let upper : Decimal := ⟨n / m + 1, exponent⟩
  let first := if 2 * (n % m) < m then lower else upper
  let second := if 2 * (n % m) < m then upper else lower
  if d.identifiedBy first then some first
  else if d.identifiedBy second then some second else none

/-- The fewest digits that identify a number other than zero. Seventeen always do; the value
itself stands in should they not. -/
def shortest (d : Dyadic) : Decimal :=
  let k := d.magnitude
  match (List.range 17).findSome? fun (i : Nat) => d.nearest? (k - (i + 1)) with
  | some x => x.stripZeros 17
  | none => ⟨d.mantissa * Nat.pow 5 (-d.exponent).toNat * twoTo d.exponent.toNat, min d.exponent 0⟩

end Dyadic

end TracingHeap
