import ReluVerify.Number.Scalar

namespace ReluVerify.Binary64

def infinity : Float := 1 / 0

instance : Scalar Float where
  ltDec := inferInstance
  leDec := inferInstance
  ofInt := Float.ofInt
  abs := Float.abs
  isZero x := x == 0
  isFinite := Float.isFinite
  magnitudeLe x y := x.abs.toBits ≤ y.abs.toBits
  belowNoBound value slack := value < infinity - slack
  aboveNoBound value slack := value > -infinity + slack

end ReluVerify.Binary64
