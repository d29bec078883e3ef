namespace ReluVerify.Path

def isAbsolute (p : String) : Bool := p.startsWith "/"

def join (dir name : String) : String :=
  if isAbsolute name || dir.isEmpty then name
  else if dir.endsWith "/" then dir ++ name
  else dir ++ "/" ++ name

def steps (p : String) : List String := (p.toList.splitOn '/').map String.ofList

def longest : Nat := 4095

def longestStep : Nat := 255

def isAdmissible (p : String) : Bool := p.utf8ByteSize ≤ longest && !p.contains '\x00'

end ReluVerify.Path
