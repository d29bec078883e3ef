import ReluVerify.Advisory.Basic
import ReluVerify.Advisory.Encounter
import ReluVerify.Constraint.Inequality

namespace ReluVerify

inductive Limit (α : Type) where
  | atLeast (value : α)
  | atMost (value : α)
  deriving DecidableEq, Repr

inductive AltitudeLimit (α : Type) where
  | single (limit : Limit α)
  | hyperplane (altitude time rhs : α) (slack : Nat)
  deriving DecidableEq, Repr

structure PropertyEncoding (α : Type) where
  rate : Limit α
  altitude : AltitudeLimit α
  dominance : List Nat
  deriving DecidableEq, Repr

inductive PropertyError (α : Type) where
  | inputCount (expected got : Nat)
  | outputIndex (advisory : String) (position outputs : Nat)
  | inequality (cause : InequalityError α)

def PropertyError.message {α : Type} (text : α → String) : PropertyError α → String
  | .inputCount expected got => s!"expected {expected} network inputs, got {got}"
  | .outputIndex advisory position outputs =>
      s!"{advisory} is output {position}, but the network has {outputs} outputs"
  | .inequality cause => cause.message text

namespace Property

variable {α : Type} [Scalar α]

-- What was done before a failure stays done.
abbrev Encoding (α : Type) := ExceptT (PropertyError α) (StateM (Network α))

def require (vars : List Nat) (coefficients : List α) (rhs : α) : Encoding α Nat :=
  (Network.addInequality vars coefficients rhs).adapt .inequality

def limit (v : Nat) (l : Limit α) : Encoding α Unit :=
  modify (fun n => match l with
    | .atLeast x => n.setLower v x
    | .atMost x => n.setUpper v x)

def rateLimit (a : Advisory α) (c : Constants α) : Limit α :=
  let x := a.vlo / c.rangeV
  if 0 < a.turnRate then .atLeast x else .atMost x

def isLevel (vlo : α) : Bool := decide (Scalar.abs vlo < 1e-5)

def levelLimit (a : Advisory α) (c : Constants α) : Limit α :=
  let margin := c.hp / c.rangeH
  if a.turnRate < 0 then .atMost margin else .atLeast (-margin)

def altitudeCoefficient (a : Advisory α) (c : Constants α) : α :=
  -Scalar.ofInt a.turnRate * c.rangeH

def timeCoefficient (a : Advisory α) (c : Constants α) : α :=
  a.vlo * Scalar.ofInt a.turnRate * c.rangeTau

def boundary (a : Advisory α) (c : Constants α) : α :=
  c.hp - a.vlo * Scalar.ofInt a.turnRate * c.meanTau

def altitude (a : Advisory α) (c : Constants α) (h tau : Nat) : Encoding α (AltitudeLimit α) := do
  if isLevel a.vlo then
    let l := levelLimit a c
    limit h l
    return .single l
  else
    let ch := altitudeCoefficient a c
    let ct := timeCoefficient a c
    let rhs := boundary a c
    let slack ← require [h, tau] [ch, ct] rhs
    return .hyperplane ch ct rhs slack

def dominance (target : Nat) (others : List Nat) : Encoding α (List Nat) :=
  others.mapM (fun other => require [target, other] [-1, 1] 0)

def written (a : Advisory α) (position : Nat) (n : Network α) : List Nat :=
  match n.inputs with
  | [h, own, intruder, _] =>
      if a.boundsRate && position < n.outputs.length then
        if isLevel a.vlo then [own, intruder, h] else [own, intruder]
      else []
  | _ => []

def encode (a : Advisory α) (position : Nat) (c : Constants α) :
    Encoding α (Option (PropertyEncoding α)) := do
  if !a.boundsRate then return none
  let n ← get
  match n.inputs with
  | [h, own, intruder, tau] =>
      match n.outputs[position]? with
      | none => throw (.outputIndex a.name position n.outputs.length)
      | some target =>
          let rate := rateLimit a c
          limit own rate
          modify (·.fix intruder 0)
          let altitude ← altitude a c h tau
          let slacks ← dominance target (n.outputs.eraseIdx position)
          return some ⟨rate, altitude, slacks⟩
  | inputs => throw (.inputCount 4 inputs.length)

end Property

end ReluVerify
