import ReluVerify.Json.Basic
import ReluVerify.Number.Reader

namespace ReluVerify.Json

abbrev Rest := List Char

def isSpace (c : Char) : Bool := c == ' ' || c == '\t' || c == '\n' || c == '\r'

def skipSpace (cs : List Char) : Rest := cs.dropWhile isSpace

def hexDigit? (c : Char) : Option Nat :=
  if c.isDigit then some (c.toNat - '0'.toNat)
  else if 'a' ≤ c && c ≤ 'f' then some (c.toNat - 'a'.toNat + 10)
  else if 'A' ≤ c && c ≤ 'F' then some (c.toNat - 'A'.toNat + 10)
  else none

inductive Piece where
  | char (c : Char)
  | unit (n : Nat)
  deriving DecidableEq, Repr

def escape? (c : Char) : Option Char :=
  match c with
  | '"' => some '"'
  | '\\' => some '\\'
  | '/' => some '/'
  | 'b' => some '\x08'
  | 'f' => some '\x0c'
  | 'n' => some '\n'
  | 'r' => some '\r'
  | 't' => some '\t'
  | _ => none

def readPieces? : List Char → Option (List Piece × Rest)
  | [] => none
  | '"' :: rest => some ([], rest)
  | '\\' :: 'u' :: a :: b :: c :: d :: rest => do
      let n := (← hexDigit? a) * 4096 + (← hexDigit? b) * 256 + (← hexDigit? c) * 16 +
        (← hexDigit? d)
      let (pieces, rest) ← readPieces? rest
      return (.unit n :: pieces, rest)
  | '\\' :: c :: rest => do
      let e ← escape? c
      let (pieces, rest) ← readPieces? rest
      return (.char e :: pieces, rest)
  | c :: rest => do
      if c.toNat < 0x20 || c == '\\' then none
      let (pieces, rest) ← readPieces? rest
      return (.char c :: pieces, rest)

def isHigh (n : Nat) : Bool := 0xd800 ≤ n && n < 0xdc00

def isLow (n : Nat) : Bool := 0xdc00 ≤ n && n < 0xe000

-- A high and a low code unit make one character, and have none alone.
def textOf? : List Piece → Option (List Char)
  | [] => some []
  | .char c :: rest => (textOf? rest).map (c :: ·)
  | .unit n :: rest =>
      if isHigh n then
        match rest with
        | .unit low :: rest =>
            if isLow low then
              (textOf? rest).map
                (Char.ofNat (0x10000 + (n - 0xd800) * 0x400 + (low - 0xdc00)) :: ·)
            else none
        | _ => none
      else if isLow n then none
      else (textOf? rest).map (Char.ofNat n :: ·)

def readString? (cs : List Char) : Option (Option String × Rest) :=
  (readPieces? cs).map (fun p => ((textOf? p.1).map String.ofList, p.2))

def readDigits? (cs : List Char) : Option (List Char × Rest) :=
  let (ds, rest) := Numeral.spanDigits cs
  if ds.isEmpty then none else some (ds, rest)

def readFraction? : List Char → Option (Option (List Char) × Rest)
  | '.' :: rest => (readDigits? rest).map (fun p => (some p.1, p.2))
  | cs => some (none, cs)

def readExponent? : List Char → Option (Option (Bool × List Char) × Rest)
  | c :: rest =>
      if c == 'e' || c == 'E' then
        let (negative, rest) := Numeral.readSign rest
        (readDigits? rest).map (fun p => (some (negative, p.1), p.2))
      else some (none, c :: rest)
  | [] => some (none, [])

def readNumber? (negative : Bool) (cs : List Char) : Option (JsonNumber × Rest) := do
  let (whole, rest) ← readDigits? cs
  if whole.length > 1 && whole.head? == some '0' then none
  let (fraction, rest) ← readFraction? rest
  let (exponent, rest) ← readExponent? rest
  return (⟨negative, whole, fraction, exponent⟩, rest)

mutual

def readValue? : (fuel : Nat) → List Char → Option (Json × Rest)
  | 0, _ => none
  | fuel + 1, cs =>
      match skipSpace cs with
      | 'n' :: 'u' :: 'l' :: 'l' :: rest => some (.null, rest)
      | 't' :: 'r' :: 'u' :: 'e' :: rest => some (.bool true, rest)
      | 'f' :: 'a' :: 'l' :: 's' :: 'e' :: rest => some (.bool false, rest)
      | '"' :: rest => (readString? rest).map (fun p => (.string p.1, p.2))
      | '-' :: rest => (readNumber? true rest).map (fun p => (.number p.1, p.2))
      | '[' :: rest =>
          match skipSpace rest with
          | ']' :: rest => some (.array [], rest)
          | rest => (readItems? fuel rest).map (fun p => (.array p.1, p.2))
      | '\x7b' :: rest =>
          match skipSpace rest with
          | '\x7d' :: rest => some (.object [], rest)
          | rest => (readFields? fuel rest).map (fun p => (.object p.1, p.2))
      | rest => (readNumber? false rest).map (fun p => (.number p.1, p.2))

def readItems? : (fuel : Nat) → List Char → Option (List Json × Rest)
  | 0, _ => none
  | fuel + 1, cs =>
      match readValue? fuel cs with
      | none => none
      | some (item, rest) =>
          match skipSpace rest with
          | ']' :: rest => some ([item], rest)
          | ',' :: rest => (readItems? fuel rest).map (fun p => (item :: p.1, p.2))
          | _ => none

def readFields? : (fuel : Nat) → List Char → Option (List (Option String × Json) × Rest)
  | 0, _ => none
  | fuel + 1, cs =>
      match readField? fuel cs with
      | none => none
      | some (field, rest) =>
          match skipSpace rest with
          | '\x7d' :: rest => some ([field], rest)
          | ',' :: rest => (readFields? fuel rest).map (fun p => (field :: p.1, p.2))
          | _ => none

def readField? : (fuel : Nat) → List Char → Option ((Option String × Json) × Rest)
  | 0, _ => none
  | fuel + 1, cs =>
      match skipSpace cs with
      | '"' :: rest =>
          match readString? rest with
          | none => none
          | some (key, rest) =>
              match skipSpace rest with
              | ':' :: rest => (readValue? fuel rest).map (fun p => ((key, p.1), p.2))
              | _ => none
      | _ => none

end

-- Every character is worth at most three steps.
def read? (text : String) : Option Json :=
  let cs := text.toList
  match readValue? (4 * cs.length + 4) cs with
  | some (value, rest) => if (skipSpace rest).isEmpty then some value else none
  | none => none

end ReluVerify.Json
