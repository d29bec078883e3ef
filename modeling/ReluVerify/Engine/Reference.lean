import ReluVerify.Engine.Problem

namespace ReluVerify

-- An assignment of every variable, or an empty one if there is none.
structure EngineOutput (α : Type) where
  assignment : VarMap α
  interrupted : Bool
  stats : Stats

def EngineOutput.stopped {α : Type} (stats : Stats) : EngineOutput α := ⟨VarMap.empty, true, stats⟩

structure Tolerances (α : Type) where
  bound : α
  relu : α

def Tolerances.standard {α : Type} [Scalar α] : Tolerances α := ⟨1e-7, 1e-6⟩

structure Engine (α : Type) where
  name : String
  run : Query α → (cancelled : Bool) → EngineOutput α

-- What a cancellation token says at its polls. A run polls at every node of its search and before
-- every pivot of a node's linear check, and at no place twice, so this is all it sees of the token.
structure Token where
  atNode : List Phase → Bool
  atPivot : List Phase → Nat → Bool

namespace Token

def steady (tripped : Bool) : Token := ⟨fun _ => tripped, fun _ _ => tripped⟩

end Token

def SearchResult.output {α : Type} (stats : Stats) : SearchResult α → EngineOutput α
  | .sat values => ⟨VarMap.ofValues values, false, stats⟩
  | .unsat => ⟨VarMap.empty, false, stats⟩
  | .interrupted => .stopped stats

namespace Reference

variable {α : Type} [Scalar α]

def linear (budget : Nat) (tolerances : Tolerances α) (token : Token) (p : Problem α)
    (phases : List Phase) : Option (Decision α) :=
  (p.relaxation tolerances.bound phases).check (token.atPivot phases) budget

def start (p : Problem α) : SearchState := ⟨p.relus.map (fun _ => .undecided), {}⟩

def search? (budget : Nat) (tolerances : Tolerances α) (token : Token) (q : Query α) :
    Option (SearchResult α × SearchState) :=
  let p := Problem.ofQuery q
  Search.search token.atNode (linear budget tolerances token p) p.relus tolerances.relu (start p)

-- None if some linear check exceeds the budget of pivots.
def run? (budget : Nat) (tolerances : Tolerances α) (q : Query α) (token : Token) :
    Option (EngineOutput α) :=
  (search? budget tolerances token q).map (fun r => r.1.output r.2.stats)

-- Pivots count in 64 bits: a run that exceeds this budget would take centuries, and the answer it
-- is given here then is no answer of the search.
def pivotBudget : Nat := Nat.pow 2 62

def engine (tolerances : Tolerances α) : Engine α where
  name := "reference"
  run q cancelled := (run? pivotBudget tolerances q (.steady cancelled)).getD (.stopped {})

end Reference

end ReluVerify
