import ReluVerify.Constraint.Relu
import ReluVerify.Engine.Simplex

namespace ReluVerify

inductive Phase where
  | undecided
  | active
  | inactive
  deriving DecidableEq, Repr

structure Stats where
  pivots : Nat := 0
  caseSplits : Nat := 0
  lpSolves : Nat := 0
  deriving DecidableEq, Repr

structure SearchState where
  phases : List Phase
  stats : Stats
  deriving DecidableEq, Repr

inductive SearchResult (α : Type) where
  | sat (values : List α)
  | unsat
  | interrupted

namespace SearchState

def decide (s : SearchState) (k : Nat) (p : Phase) : SearchState :=
  { s with phases := s.phases.set k p }

def countSolve (s : SearchState) (pivots : Nat) : SearchState :=
  { s with stats := { s.stats with
      lpSolves := s.stats.lpSolves + 1, pivots := s.stats.pivots + pivots } }

def countSplit (s : SearchState) : SearchState :=
  { s with stats := { s.stats with caseSplits := s.stats.caseSplits + 1 } }

def undecided (s : SearchState) : Nat := s.phases.count .undecided

end SearchState

namespace Search

variable {α : Type} [Scalar α]

def isBroken (tolerance : α) (values : List α) (pair : ReluPair) (phase : Phase) : Bool :=
  phase == .undecided &&
    !ReluPair.holds (values.getD pair.input 0) (values.getD pair.output 0) tolerance

def firstBroken? (tolerance : α) (values : List α) (relus : ReluList) (phases : List Phase) :
    Option (Nat × ReluPair) :=
  ((relus.zip phases).zipIdx.find? (fun p => isBroken tolerance values p.1.1 p.1.2)).map
    (fun p => (p.2, p.1.1))

def leaning (values : List α) (pair : ReluPair) : Phase × Phase :=
  if 0 < values.getD pair.input 0 then (.active, .inactive) else (.inactive, .active)

-- None if the linear check has no answer, or below the depth given.
def descend (tripped : List Phase → Bool) (linear : List Phase → Option (Decision α))
    (relus : ReluList) (tolerance : α) :
    (depth : Nat) → SearchState → Option (SearchResult α × SearchState)
  | depth, s =>
      if tripped s.phases then some (.interrupted, s)
      else
        match linear s.phases with
        | none => none
        | some d =>
            let s := s.countSolve d.pivots
            match d.answer with
            | .infeasible => some (.unsat, s)
            | .interrupted => some (.interrupted, s)
            | .feasible values =>
                match firstBroken? tolerance values relus s.phases with
                | none => some (.sat values, s)
                | some (k, pair) =>
                    match depth with
                    | 0 => none
                    | depth + 1 =>
                        let (first, second) := leaning values pair
                        match descend tripped linear relus tolerance depth
                          (s.countSplit.decide k first) with
                        | none => none
                        | some (.unsat, s) =>
                            match descend tripped linear relus tolerance depth
                              (s.decide k second) with
                            | none => none
                            | some (result, s) => some (result, s.decide k .undecided)
                        | some (found, s) => some (found, s.decide k .undecided)

-- Every split decides a pair, so the undecided pairs bound the depth.
def search (tripped : List Phase → Bool) (linear : List Phase → Option (Decision α))
    (relus : ReluList) (tolerance : α) (s : SearchState) :
    Option (SearchResult α × SearchState) :=
  descend tripped linear relus tolerance s.undecided s

end Search

end ReluVerify
