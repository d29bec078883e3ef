namespace ReluVerify

structure Files (m : Type → Type) where
  read? : (path : String) → m (Option String)
  write : (path text : String) → m Bool
  append : (path text : String) → m Bool
  makeDirs : (path : String) → m Bool

end ReluVerify
