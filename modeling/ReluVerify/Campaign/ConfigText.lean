import ReluVerify.Campaign.Config
import ReluVerify.Campaign.Failure
import ReluVerify.Json.Number
import ReluVerify.Json.Reader
import ReluVerify.Storage.Files

namespace ReluVerify.CampaignConfig

variable {α : Type} (number : JsonNumber → Option α)

abbrev Fields := List (String × Json)

def fields? (fs : List (Option String × Json)) : Option Fields :=
  fs.mapM (fun f => f.1.map (fun key => (key, f.2)))

def field? (fs : Fields) (key : String) : Option (Option Json) :=
  match fs.filter (·.1 == key) with
  | [] => some none
  | [f] => some (some f.2)
  | _ => none

def number? : Json → Option α
  | .number n => number n
  | _ => none

def text? : Json → Option String
  | .string s => s
  | _ => none

def textOrNull? : Json → Option (Option String)
  | .null => some none
  | j => (text? j).map some

def constantsKeys : List String := ["range_h", "range_v", "range_tau", "mean_tau", "hp"]

def require? (fs : Fields) (keys : List String) : Option (List Json) :=
  keys.mapM (fun key => (field? fs key).join)

def constantsOfList? : List Json → Option (Constants α)
  | [h, v, tau, mean, hp] => do
      return ⟨← number? number h, ← number? number v, ← number? number tau, ← number? number mean,
        ← number? number hp⟩
  | _ => none

def constants? : Json → Option (Constants α)
  | .array items => constantsOfList? number items
  | .object fs => do constantsOfList? number (← require? (← fields? fs) constantsKeys)
  | _ => none

def orStandard {β : Type} (read : Json → Option β) (standard : β) : Option Json → Option β
  | none => some standard
  | some j => read j

variable (standard : CampaignConfig α)

def ofParts? (constants networks template results logs : Option Json) :
    Option (CampaignConfig α) := do
  return {
    constants := ← orStandard (constants? number) standard.constants constants
    networksDir := ← orStandard text? standard.networksDir networks
    networkTemplate := ← orStandard text? standard.networkTemplate template
    resultsDir := ← orStandard text? standard.resultsDir results
    logsDir := ← orStandard textOrNull? standard.logsDir logs }

def ofJson? : Json → Option (CampaignConfig α)
  | .object fs => do
      let fs ← fields? fs
      ofParts? number standard (← field? fs "constants") (← field? fs "networks_dir")
        (← field? fs "network_template") (← field? fs "results_dir") (← field? fs "logs_dir")
  | .array items =>
      if items.length > 5 then none
      else ofParts? number standard items[0]? items[1]? items[2]? items[3]? items[4]?
  | _ => none

def load {m : Type → Type} [Monad m] (files : Files m) (path : String) :
    ExceptT (Failure α) m (CampaignConfig α) := do
  match ← files.read? path with
  | none => throw (.storage path)
  | some text =>
      match (Json.read? text).bind (ofJson? number standard) with
      | some config => return config
      | none => throw (.config path)

end ReluVerify.CampaignConfig
