import ReluVerify.Number.Scalar
import ReluVerify.VarMap

namespace ReluVerify

structure Bounds (α : Type) where
  lower : Option α := none
  upper : Option α := none
  deriving DecidableEq, Repr

namespace Bounds

variable {α : Type}

def free : Bounds α := {}

instance : Inhabited (Bounds α) := ⟨free⟩

def isUnbounded (b : Bounds α) : Bool := b.lower.isNone && b.upper.isNone

def point (x : α) : Bounds α := ⟨some x, some x⟩

def withLower (b : Bounds α) (x : α) : Bounds α := { b with lower := some x }

def withUpper (b : Bounds α) (x : α) : Bounds α := { b with upper := some x }

variable [Scalar α]

def contains (b : Bounds α) (value tolerance : α) : Bool :=
  b.lower.all (fun l => decide (l - tolerance ≤ value)) &&
    b.upper.all (fun u => decide (value ≤ u + tolerance))

end Bounds

inductive NoPlace where
  | count
  | memory
  deriving DecidableEq, Repr

def NoPlace.message : NoPlace → String
  | .count => "attempt to add with overflow"
  | .memory => "capacity overflow"

abbrev BoundStore (α : Type) := VarMap (Bounds α)

namespace BoundStore

variable {α : Type}

def countLimit : Nat := Nat.pow 2 64

-- A place takes 32 bytes, of less than half of all addresses.
def placeLimit : Nat := Nat.pow 2 58

def place (v : Nat) : Except NoPlace Unit :=
  if countLimit ≤ v + 1 then .error .count
  else if placeLimit ≤ v + 1 then .error .memory
  else .ok ()

def setLower (s : BoundStore α) (v : Nat) (x : α) : BoundStore α :=
  s.update v (fun b => (b.getD Bounds.free).withLower x)

def setUpper (s : BoundStore α) (v : Nat) (x : α) : BoundStore α :=
  s.update v (fun b => (b.getD Bounds.free).withUpper x)

def bounds (s : BoundStore α) (v : Nat) : Bounds α := (s.get? v).getD Bounds.free

theorem bounds_empty (v : Nat) : bounds (VarMap.empty : BoundStore α) v = Bounds.free := rfl

theorem bounds_setLower (s : BoundStore α) (v u : Nat) (x : α) :
    bounds (setLower s v x) u = if u = v then (bounds s v).withLower x else bounds s u := by
  unfold bounds setLower
  rw [VarMap.get?_update]
  split <;> rfl

theorem bounds_setUpper (s : BoundStore α) (v u : Nat) (x : α) :
    bounds (setUpper s v x) u = if u = v then (bounds s v).withUpper x else bounds s u := by
  unfold bounds setUpper
  rw [VarMap.get?_update]
  split <;> rfl

end BoundStore

end ReluVerify
