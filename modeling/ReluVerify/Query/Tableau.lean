import ReluVerify.Number.Scalar
import ReluVerify.VarMap

namespace ReluVerify

structure Tableau (α : Type) where
  rows : VarMap (VarMap α)
  basic : VarMap Unit

namespace Tableau

variable {α : Type}

def empty : Tableau α := ⟨VarMap.empty, VarMap.empty⟩

instance : Inhabited (Tableau α) := ⟨empty⟩

def row? (t : Tableau α) (row : Nat) : Option (VarMap α) := t.rows.get? row

def cell? (t : Tableau α) (row col : Nat) : Option α := (t.row? row).bind (·.get? col)

def hasRow (t : Tableau α) (row : Nat) : Bool := t.rows.contains row

def isBasic (t : Tableau α) (v : Nat) : Bool := t.basic.contains v

def numRows (t : Tableau α) : Nat := t.rows.size

def numCells (t : Tableau α) : Nat := t.rows.entries.foldl (fun n r => n + r.2.size) 0

def markBasic (t : Tableau α) (v : Nat) : Tableau α := { t with basic := t.basic.insert v () }

def addCell [Scalar α] (t : Tableau α) (row col : Nat) (x : α) : Tableau α :=
  { t with rows := t.rows.update row (fun cells =>
      (cells.getD VarMap.empty).update col (fun a => a.getD 0 + x)) }

end Tableau

end ReluVerify
