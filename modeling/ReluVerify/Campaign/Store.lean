import ReluVerify.Campaign.Run
import ReluVerify.Layered.Encoding
import ReluVerify.Storage.Files

namespace ReluVerify

namespace Layered

variable {m : Type → Type} [Monad m] {α : Type}

def read (files : Files m) (format : NumberFormat α) (path : String) :
    ExceptT (Failure α) m (LayeredNetwork α) := do
  match ← files.read? path with
  | none => throw (.networkFile path)
  | some text => ((LayeredText.parse format text).mapError Failure.networkText :
      Except (Failure α) (LayeredNetwork α))

end Layered

namespace Campaign

variable {m : Type → Type} [Monad m] {α : Type}

def orFail (failure : Failure α) (operation : m Bool) : ExceptT (Failure α) m Unit := do
  if ← operation then pure () else throw failure

def makeDirs (files : Files m) (dir : String) : ExceptT (Failure α) m Unit :=
  orFail (.storage dir) (files.makeDirs dir)

def beginFile (files : Files m) (format : RecordFormat α) (dir : String)
    (pra advisory : Advisory α) : ExceptT (Failure α) m Unit :=
  let path := CampaignConfig.resultPath dir pra advisory
  orFail (.storage path) (files.write path (VerdictRecord.header format pra advisory))

def recordFile (files : Files m) (format : RecordFormat α) (dir : String) (v : VerdictRecord α) :
    ExceptT (Failure α) m Unit :=
  let path := CampaignConfig.resultPath dir v.pra v.advisory
  orFail (.storage path) (files.append path (v.outcome.render format))

def writeLog (files : Files m) (engine : String) (path : String) (s : Solved α) :
    ExceptT (Failure α) m Unit :=
  orFail (.log path) (files.write path (s.log engine))

variable [Scalar α]

def fileHost (files : Files m) (numbers : NumberFormat α) (records : RecordFormat α)
    (config : CampaignConfig α) (engine : Engine α) : Host m α where
  prepareLogs := makeDirs files
  load pra := do return (← Layered.read files numbers (config.networkPath pra)).toNetwork
  solve q := pure (engine.run q false)
  writeLog := writeLog files engine.name
  begin := beginFile files records config.resultsDir
  record := recordFile files records config.resultsDir

end Campaign

end ReluVerify
