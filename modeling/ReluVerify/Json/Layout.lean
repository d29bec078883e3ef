import ReluVerify.Text.Quoted

namespace ReluVerify

inductive JsonText where
  | leaf (text : String)
  | array (items : List JsonText)
  | object (fields : List (String × JsonText))

namespace JsonText

def escapeChar (c : Char) : String :=
  match c with
  | '"' => "\\\""
  | '\\' => "\\\\"
  | '\x08' => "\\b"
  | '\x0c' => "\\f"
  | '\n' => "\\n"
  | '\r' => "\\r"
  | '\t' => "\\t"
  | c =>
      if c.toNat < 0x10 then "\\u000" ++ Text.hex c.toNat
      else if c.toNat < 0x20 then "\\u00" ++ Text.hex c.toNat
      else c.toString

def quote (s : String) : String := "\"" ++ String.join (s.toList.map escapeChar) ++ "\""

def string (s : String) : JsonText := .leaf (quote s)

def bool (b : Bool) : JsonText := .leaf (toString b)

def indent (level : Nat) : String := "\n" ++ String.ofList (List.replicate (2 * level) ' ')

def bracket (opening closing : String) (level : Nat) (items : List String) : String :=
  if items.isEmpty then opening ++ closing
  else opening ++ ",".intercalate (items.map (indent (level + 1) ++ ·)) ++ indent level ++ closing

mutual

def pretty (level : Nat) : JsonText → String
  | .leaf text => text
  | .array items => bracket "[" "]" level (prettyItems (level + 1) items)
  | .object fields => bracket "\x7b" "\x7d" level (prettyFields (level + 1) fields)

def prettyItems (level : Nat) : List JsonText → List String
  | [] => []
  | item :: rest => pretty level item :: prettyItems level rest

def prettyFields (level : Nat) : List (String × JsonText) → List String
  | [] => []
  | (key, value) :: rest => (quote key ++ ": " ++ pretty level value) :: prettyFields level rest

end

def render (j : JsonText) : String := pretty 0 j

end JsonText

end ReluVerify
