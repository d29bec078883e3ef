import ReluVerify.Number.Shortest

namespace ReluVerify.NumberText

def zeros (n : Nat) : String := String.ofList (List.replicate n '0')

def placePoint (digits : String) (whole : Int) : String :=
  if whole ≤ 0 then "0." ++ zeros (-whole).toNat ++ digits
  else
    let w := whole.toNat
    if digits.length ≤ w then digits ++ zeros (w - digits.length)
    else String.ofList (digits.toList.take w) ++ "." ++ String.ofList (digits.toList.drop w)

def parts (d : Decimal) : String × Int :=
  let digits := toString d.digits
  (digits, d.exponent + digits.length)

def positional (d : Decimal) : String := placePoint (parts d).1 (parts d).2

def scientificWith (exponent : Int → String) (d : Decimal) : String :=
  let (digits, whole) := parts d
  placePoint digits 1 ++ "e" ++ exponent (whole - 1)

def withSign (x : Float) (text : String) : String :=
  if Binary64.isNegative x then "-" ++ text else text

def write (finite : Nat → Int → String) (x : Float) : String :=
  match Binary64.magnitude x with
  | .nan => "NaN"
  | .infinite => withSign x "inf"
  | .finite m e => withSign x (finite m e)

def nonzero (zero : String) (text : Decimal → String) (tie : Tie) (m : Nat) (e : Int) : String :=
  if m = 0 then zero else text (Decimal.shortest tie m e)

def plain (x : Float) : String := write (nonzero "0" positional .up) x

def scientific (x : Float) : String := write (nonzero "0e0" (scientificWith toString) .up) x

def twoPlaces (x : Float) : String :=
  write (fun m e =>
    let (n, d) := scaleBinary (100 * m) 1 (-e)
    let hundredths := roundDiv .toEven n d
    let low := hundredths % 100
    s!"{hundredths / 100}." ++ (if low < 10 then "0" else "") ++ toString low) x

def signedExponent (e : Int) : String := if 0 ≤ e then s!"+{e}" else toString e

def jsonDecimal (d : Decimal) : String :=
  let lead := (parts d).2 - 1
  if -5 ≤ lead && lead < 16 then
    if 0 ≤ d.exponent then positional d ++ ".0" else positional d
  else scientificWith signedExponent d

def json (x : Float) : String :=
  match Binary64.magnitude x with
  | .finite m e => withSign x (nonzero "0.0" jsonDecimal .toEven m e)
  | _ => "null"

end ReluVerify.NumberText
