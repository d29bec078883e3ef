import ReluVerify.Number.Rounding

namespace ReluVerify.Numeral

def spanDigits (cs : List Char) : List Char × List Char := cs.span Char.isDigit

def digitsValue (ds : List Char) : Nat := ds.foldl (fun n c => 10 * n + (c.toNat - '0'.toNat)) 0

def readSign : List Char → Bool × List Char
  | '-' :: rest => (true, rest)
  | '+' :: rest => (false, rest)
  | cs => (false, cs)

def readExponent? : List Char → Option Int
  | [] => some 0
  | c :: rest =>
      if c = 'e' || c = 'E' then
        let (negative, rest) := readSign rest
        let (ds, rest) := spanDigits rest
        if ds.isEmpty || !rest.isEmpty then none
        else some (if negative then -(digitsValue ds : Int) else digitsValue ds)
      else none

def readFraction : List Char → List Char × List Char
  | '.' :: rest => spanDigits rest
  | cs => ([], cs)

def readUnsigned? (cs : List Char) : Option Float :=
  let word := String.ofList (cs.map Char.toLower)
  if word == "inf" || word == "infinity" then some Binary64.infinity
  else if word == "nan" then some (0 / 0)
  else
    let (whole, rest) := spanDigits cs
    let (fraction, rest) := readFraction rest
    if whole.isEmpty && fraction.isEmpty then none
    else (readExponent? rest).map (fun e =>
      Binary64.ofDecimal (digitsValue (whole ++ fraction)) (e - fraction.length))

def read? (s : String) : Option Float :=
  let (negative, rest) := readSign s.toList
  (readUnsigned? rest).map (fun x => if negative then -x else x)

end ReluVerify.Numeral
