import ReluVerify.Command.Run

namespace ReluVerify

def succeeds (act : IO Unit) : IO Bool := do
  try
    act
    return true
  catch _ => return false

def diskFiles : Files IO where
  read? path := do
    try
      return some (← IO.FS.readFile path)
    catch _ => return none
  write path text := succeeds (IO.FS.writeFile path text)
  append path text := succeeds do
    let _ ← IO.FS.Handle.mk path .read
    let h ← IO.FS.Handle.mk path .append
    h.putStr text
  makeDirs path := if path.isEmpty then pure true else succeeds (IO.FS.createDirAll path)

end ReluVerify

def main (args : List String) : IO UInt32 := do
  let ending ← ReluVerify.Command.run ReluVerify.diskFiles args
  IO.print ending.output
  IO.eprint ending.trouble
  return ending.code.toUInt32
