import ReluVerify.Query.Basic
import ReluVerify.Engine.Search

namespace ReluVerify

structure Problem (α : Type) where
  constant : Nat
  -- The coefficients of an equality to zero, and the variable to solve it for.
  equalities : List (List α × Nat)
  bounds : List (Bounds α)
  relus : ReluList

namespace Bounds

variable {α : Type} [Scalar α]

def raise (b : Bounds α) (x : α) : Bounds α :=
  { b with lower := some (b.lower.elim x (Scalar.larger · x)) }

def cap (b : Bounds α) (x : α) : Bounds α :=
  { b with upper := some (b.upper.elim x (Scalar.smaller · x)) }

end Bounds

namespace Problem

variable {α : Type} [Scalar α]

def denseRow (constant count : Nat) (cells : VarMap α) : List α :=
  (List.range count).map (fun j =>
    match cells.get? j with
    | none => 0
    | some x => if j = constant then 0 - x else 0 + x)

def ofQuery (q : Query α) : Problem α where
  constant := q.constant
  equalities := q.tableau.rows.entries.map (fun p =>
    (denseRow q.constant q.numVariables p.2, p.1))
  bounds := q.relus.foldl (fun bs p => bs.modify p.output (·.raise 0)) q.bounds
  relus := q.relus

def activeRow (count : Nat) (pair : ReluPair) : List α :=
  ((List.replicate count 0).modify pair.output (· + 1)).modify pair.input (· - 1)

def tighten (bs : List (Bounds α)) (pair : ReluPair) : Phase → List (Bounds α)
  | .undecided => bs
  | .active => bs.modify pair.input (·.raise 0)
  | .inactive => (bs.modify pair.input (·.cap 0)).modify pair.output (·.cap 0)

def phaseBounds (p : Problem α) (phases : List Phase) : List (Bounds α) :=
  (p.relus.zip phases).foldl (fun bs d => tighten bs d.1 d.2) p.bounds

def phaseRows (p : Problem α) (phases : List Phase) : List (List α × Nat) :=
  (p.relus.zip phases).filterMap (fun d =>
    match d.2 with
    | .active => some (activeRow p.bounds.length d.1, d.1.output)
    | _ => none)

def relaxation (p : Problem α) (tolerance : α) (phases : List Phase) : Simplex α :=
  (p.equalities ++ p.phaseRows phases).foldl (fun s e => s.addEquality e.1 (some e.2))
    (Simplex.ofBounds p.constant (p.phaseBounds phases) tolerance)

end Problem

end ReluVerify
