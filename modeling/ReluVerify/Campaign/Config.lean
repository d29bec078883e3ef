import ReluVerify.Advisory.Basic
import ReluVerify.Advisory.Encounter
import ReluVerify.Storage.Path

namespace ReluVerify

structure CampaignConfig (α : Type) where
  constants : Constants α
  networksDir : String
  networkTemplate : String
  resultsDir : String
  logsDir : Option String
  deriving DecidableEq, Repr

namespace CampaignConfig

variable {α : Type}

def placeholder : String := "\x7bpra\x7d"

def twoDigits (n : Nat) : String := if n < 10 then s!"0{n}" else toString n

def networkPath (c : CampaignConfig α) (pra : Nat) : String :=
  Path.join c.networksDir (c.networkTemplate.replace placeholder (twoDigits pra))

def pairName (pra advisory : Advisory α) : String := s!"pra{pra.name}_ra{advisory.name}"

def logPath (c : CampaignConfig α) (pra advisory : Advisory α) : Option String :=
  c.logsDir.map (fun dir => Path.join dir (pairName pra advisory ++ ".log"))

def resultPath (dir : String) (pra advisory : Advisory α) : String :=
  Path.join dir (pairName pra advisory ++ ".txt")

def standard [Scalar α] : CampaignConfig α where
  constants := Constants.standard
  networksDir := "networks"
  networkTemplate := "VerticalCAS_r15_pra" ++ placeholder ++ "_v2_45HU_1200.nnet"
  resultsDir := "results"
  logsDir := some "logs"

end CampaignConfig

end ReluVerify
