import ReluVerify.Number.Scalar

namespace ReluVerify

-- The sense turnRate asks for a vertical rate of at least vlo (1) or at most vlo (-1), in feet per
-- second, or for none (0).
structure Advisory (α : Type) where
  index : Nat
  name : String
  turnRate : Int
  vlo : α
  deriving DecidableEq, Repr

structure UnknownAdvisory where
  index : Nat
  deriving DecidableEq, Repr

def UnknownAdvisory.message (e : UnknownAdvisory) : String := s!"no advisory with index {e.index}"

namespace Advisory

variable {α : Type}

def boundsRate (a : Advisory α) : Bool := a.turnRate != 0

variable [Scalar α]

def perMinute (feet : α) : α := feet / 60.0

def all : List (Advisory α) := [
  ⟨1, "COC", 0, 0⟩,
  ⟨2, "DNC", -1, 0⟩,
  ⟨3, "DND", 1, 0⟩,
  ⟨4, "MAINTAIN", 0, 0⟩,
  ⟨5, "DES1500", -1, perMinute (-1500.0)⟩,
  ⟨6, "CL1500", 1, perMinute 1500.0⟩,
  ⟨7, "SDES1500", -1, perMinute (-1500.0)⟩,
  ⟨8, "SCL1500", 1, perMinute 1500.0⟩,
  ⟨9, "SDES2500", -1, perMinute (-2500.0)⟩,
  ⟨10, "SCL2500", 1, perMinute 2500.0⟩,
  ⟨11, "MTLO", 0, 0⟩]

def ofIndex? (index : Nat) : Except UnknownAdvisory (Advisory α) :=
  match index with
  | 0 => .error ⟨0⟩
  | i + 1 =>
      match (all : List (Advisory α))[i]? with
      | some a => .ok a
      | none => .error ⟨i + 1⟩

def ofName? (name : String) : Option (Advisory α) :=
  all.find? (fun a => a.name == name.map Char.toUpper)

-- For every advisory the indices of those that can follow it, in the order of its network's
-- outputs.
def transitions : List (List Nat) := [
  [1, 2, 3, 4, 5, 6],
  [1, 2, 3, 4, 7, 8],
  [1, 2, 3, 4, 7, 8],
  [1, 2, 3, 4, 7, 8, 9, 10],
  [1, 2, 3, 4, 5, 8, 9],
  [1, 2, 3, 4, 6, 7, 10],
  [1, 2, 3, 4, 7, 8, 9],
  [1, 2, 3, 4, 7, 8, 10],
  [1, 2, 3, 4, 8, 9],
  [1, 2, 3, 4, 7, 10],
  [1, 2, 3, 4, 7, 8, 11]]

def reachable (pra : Nat) : Except UnknownAdvisory (List Nat) :=
  match pra with
  | 0 => .error ⟨0⟩
  | i + 1 =>
      match transitions[i]? with
      | some row => .ok row
      | none => .error ⟨i + 1⟩

def candidates (pra : Nat) : Except UnknownAdvisory (List (Advisory α)) := do
  (← reachable pra).mapM ofIndex?

end Advisory

end ReluVerify
