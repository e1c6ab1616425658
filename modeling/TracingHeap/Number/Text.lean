import TracingHeap.Number.Shortest

namespace TracingHeap

def zeros (n : Nat) : String := "".pushn '0' n

def Decimal.plainText (d : Decimal) : String :=
  let digits := toString d.digits
  if 0 ≤ d.exponent then digits ++ zeros d.exponent.toNat
  else
    let places := (-d.exponent).toNat
    if places < digits.length then
      String.ofList (digits.toList.take (digits.length - places)) ++ "."
        ++ String.ofList (digits.toList.drop (digits.length - places))
    else "0." ++ zeros (places - digits.length) ++ digits

/-- The fewest digits that identify a number, written without an exponent. -/
def floatText (x : Float) : String :=
  if x.isNaN then "NaN"
  else
    let sign := if twoTo 63 ≤ x.toBits.toNat then "-" else ""
    match Dyadic.ofFloat? x with
    | none => sign ++ "inf"
    | some d => sign ++ (if d.mantissa = 0 then "0" else d.shortest.plainText)

end TracingHeap
