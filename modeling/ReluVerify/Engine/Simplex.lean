import ReluVerify.Constraint.Bounds

namespace ReluVerify

structure Row (α : Type) where
  basic : Nat
  coeffs : List α
  deriving DecidableEq

structure Simplex (α : Type) where
  constant : Nat
  bounds : List (Bounds α)
  tolerance : α
  rows : List (Row α)
  values : List α
  -- Bounds that cross, or a row that became a * 1 = 0 with a above the tolerance.
  contradictory : Bool
  deriving DecidableEq

inductive Answer (α : Type) where
  | feasible (values : List α)
  | infeasible
  | interrupted
  deriving DecidableEq

structure Decision (α : Type) where
  answer : Answer α
  pivots : Nat
  deriving DecidableEq

structure Violation (α : Type) where
  increase : Bool
  target : α

namespace Simplex

variable {α : Type} [Scalar α]

def pivotFloor : α := 1e-12

def crossed (tolerance : α) (b : Bounds α) : Bool :=
  match b.lower, b.upper with
  | some l, some u => decide (u + tolerance < l)
  | _, _ => false

def ofBounds (constant : Nat) (bounds : List (Bounds α)) (tolerance : α) : Simplex α where
  constant := constant
  bounds := bounds
  tolerance := tolerance
  rows := []
  values := bounds.map (fun _ => 0)
  contradictory := bounds.any (crossed tolerance)

def numVars (s : Simplex α) : Nat := s.bounds.length

def value (s : Simplex α) (v : Nat) : α := s.values.getD v 0

def boundsOf (s : Simplex α) (v : Nat) : Bounds α := s.bounds[v]?.getD Bounds.free

def isBasic (s : Simplex α) (v : Nat) : Bool := s.rows.any (·.basic == v)

def substitute (p : Nat) (coeffs a : List α) : List α :=
  let k := a.getD p 0
  if Scalar.isZero k then a
  else List.zipWith (fun x t => x + k * t) (a.set p 0) coeffs

def solveFor (p : Nat) (a : List α) : List α :=
  let k := a.getD p 0
  (a.map (fun x => -x / k)).set p 0

def reduce (rows : List (Row α)) (a : List α) : List α :=
  rows.foldl (fun a r => substitute r.basic r.coeffs a) a

def eligible (s : Simplex α) (v : Nat) : Bool := v != s.constant && !s.isBasic v

def isPivot (a : List α) (v : Nat) : Bool := decide (pivotFloor < Scalar.abs (a.getD v 0))

-- Of equally large coefficients the last one counts.
def largest? (a : List α) (candidates : List Nat) : Option Nat :=
  candidates.foldl (fun best j =>
    match best with
    | none => some j
    | some i => if Scalar.magnitudeLe (a.getD i 0) (a.getD j 0) then some j else some i) none

def choose? (s : Simplex α) (a : List α) (preferred : Option Nat) : Option Nat :=
  match preferred.filter (fun p => s.eligible p && isPivot a p) with
  | some p => some p
  | none => (largest? a ((List.range s.numVars).filter s.eligible)).filter (isPivot a)

def addEquality (s : Simplex α) (a : List α) (preferred : Option Nat) : Simplex α :=
  let a := reduce s.rows a
  match s.choose? a preferred with
  | none =>
      if s.tolerance < Scalar.abs (a.getD s.constant 0) then { s with contradictory := true } else s
  | some p =>
      let coeffs := solveFor p a
      { s with rows := s.rows.map (fun r => { r with coeffs := substitute p coeffs r.coeffs }) ++
          [⟨p, coeffs⟩] }

def startValue (b : Bounds α) : α :=
  let x := b.lower.elim 0 (Scalar.larger 0)
  b.upper.elim x (Scalar.smaller x)

def refreshed (s : Simplex α) : Simplex α :=
  { s with values :=
      s.rows.foldl (fun vs r => vs.set r.basic (Scalar.dot r.coeffs vs)) s.values }

def start (s : Simplex α) : Simplex α :=
  refreshed { s with values :=
    (s.bounds.zip s.values).zipIdx.map (fun p =>
      if s.isBasic p.2 then p.1.2 else startValue p.1.1) }

def violation? (s : Simplex α) (v : Nat) : Option (Violation α) :=
  let b := s.boundsOf v
  match b.lower.filter (fun l => decide (s.value v < l - s.tolerance)) with
  | some l => some ⟨true, l⟩
  | none => (b.upper.filter (fun u => decide (u + s.tolerance < s.value v))).map (⟨false, ·⟩)

def violatedRow? (s : Simplex α) : Option (Row α × Violation α) :=
  s.rows.foldl (fun best r =>
    match s.violation? r.basic with
    | none => best
    | some w =>
        match best with
        | some (q, u) => if r.basic < q.basic then some (r, w) else some (q, u)
        | none => some (r, w)) none

def canIncrease (s : Simplex α) (v : Nat) : Bool :=
  match (s.boundsOf v).upper with
  | some u => decide (s.value v < u - s.tolerance)
  | none => Scalar.belowNoBound (s.value v) s.tolerance

def canDecrease (s : Simplex α) (v : Nat) : Bool :=
  match (s.boundsOf v).lower with
  | some l => decide (l + s.tolerance < s.value v)
  | none => Scalar.aboveNoBound (s.value v) s.tolerance

def canMove (s : Simplex α) (r : Row α) (increase : Bool) (v : Nat) : Bool :=
  let t := r.coeffs.getD v 0
  !decide (Scalar.abs t ≤ pivotFloor) &&
    if increase == decide (0 < t) then s.canIncrease v else s.canDecrease v

def entering? (s : Simplex α) (r : Row α) (increase : Bool) : Option Nat :=
  (List.range s.numVars).find? (fun v => !s.isBasic v && s.canMove r increase v)

def pivot (s : Simplex α) (r : Row α) (entering : Nat) (target : α) : Simplex α :=
  let t := r.coeffs.getD entering 0
  let theta := (target - s.value r.basic) / t
  let moved := s.rows.foldl
    (fun vs q => vs.modify q.basic (· + q.coeffs.getD entering 0 * theta))
    (s.values.modify entering (· + theta))
  let coeffs := (solveFor entering r.coeffs).set r.basic (1 / t)
  { s with
    values := moved.set r.basic target
    rows := s.rows.map (fun q =>
      if q.basic = r.basic then ⟨entering, coeffs⟩
      else { q with coeffs := substitute entering coeffs q.coeffs }) }

def step (s : Simplex α) : Answer α ⊕ Simplex α :=
  match s.violatedRow? with
  | none => .inl (.feasible s.refreshed.values)
  | some (r, w) =>
      match s.entering? r w.increase with
      | none => .inl .infeasible
      | some v => .inr (s.pivot r v w.target)

-- The token is polled before every turn. None if the budget of pivots runs out.
def run (tripped : Nat → Bool) : (budget pivots : Nat) → Simplex α → Option (Decision α)
  | budget, pivots, s =>
      if tripped pivots then some ⟨.interrupted, pivots⟩
      else
        match s.step with
        | .inl answer => some ⟨answer, pivots⟩
        | .inr next =>
            match budget with
            | 0 => none
            | budget + 1 => run tripped budget (pivots + 1) next

def check (tripped : Nat → Bool) (budget : Nat) (s : Simplex α) : Option (Decision α) :=
  if s.contradictory then some ⟨.infeasible, 0⟩ else run tripped budget 0 s.start

end Simplex

end ReluVerify
