import ReluVerify.Campaign.Run
import ReluVerify.Json.Layout

namespace ReluVerify

variable {α : Type} (number : α → String)

def Advisory.json (a : Advisory α) : JsonText :=
  .object [("index", .leaf (toString a.index)), ("name", .string a.name),
    ("turn_rate", .leaf (toString a.turnRate)), ("vlo", .leaf (number a.vlo))]

def Counterexample.json (c : Counterexample α) : JsonText :=
  .object [("h", .leaf (number c.encounter.h)), ("dh0", .leaf (number c.encounter.own)),
    ("dh1", .leaf (number c.encounter.intruder)), ("tau", .leaf (number c.encounter.tau)),
    ("scores", .array (c.scores.map (fun s => .array [.string s.1, .leaf (number s.2)])))]

def Outcome.json : Outcome α → JsonText
  | .skipped => .object [("status", .string "Skipped")]
  | .unsat => .object [("status", .string "Unsat")]
  | .sat c => .object [("status", .string "Sat"), ("counterexample", c.json number)]
  | .earlyTermination => .object [("status", .string "EarlyTermination")]

def VerdictRecord.json (v : VerdictRecord α) : JsonText :=
  .object [("pra", v.pra.json number), ("advisory", v.advisory.json number),
    ("outcome", v.outcome.json number)]

def Report.json (r : Report α) : JsonText :=
  .object [("pra", r.pra.json number), ("verdicts", .array (r.verdicts.map (·.json number))),
    ("aborted", .bool r.aborted)]

def Report.jsonText (rs : List (Report α)) : String :=
  (JsonText.array (rs.map (·.json number))).render

def padded (name : String) : String :=
  name ++ String.ofList (List.replicate (10 - name.length) ' ')

def Report.summary (r : Report α) : List String :=
  let sat := r.count "SAT"
  let unsat := r.count "UNSAT"
  let skipped := r.count "SKIPPED"
  (s!"Pra {r.pra.name}: {sat} SAT, {unsat} UNSAT, {skipped} skipped" ++
    (if r.aborted then " (interrupted)" else "")) ::
  r.verdicts.map (fun v => "  " ++ padded v.advisory.name ++ " " ++ v.outcome.token)

end ReluVerify
