import ReactiveLang.Digest
import ReactiveLang.Document.Syntax
import ReactiveLang.Eval.Step
import ReactiveLang.Json.Printer

/-!
# Documents of steps

Steps and logs as JSON documents. The fingerprint of a log is the digest of its document, so it
stays the same wherever the same steps were taken.
-/

namespace ReactiveLang

namespace Step

def toJson : Step → Json
  | start node => .object [("Start", node.toJson)]
  | check node => .object [("Check", node.toJson)]
  | jump node count => .object [("Jump", .object [("node", node.toJson), ("count", .nat count)])]
  | jumpIf node count when =>
    .object [("JumpIf",
      .object [("node", node.toJson), ("count", .nat count), ("when", .bool when)])]
  | finish node => .object [("Finish", node.toJson)]

def jumpOfJson? (depth : Nat) (j : Json) : Option Step := do
  let (_, fields, _) ← j.toFields? ["node", "count"] depth
  match fields with
  | [some node, some count] => some (jump (← NodeId.ofJson? node) (← count.toNat64?))
  | _ => none

def jumpIfOfJson? (depth : Nat) (j : Json) : Option Step := do
  let (_, fields, _) ← j.toFields? ["node", "count", "when"] depth
  match fields with
  | [some node, some count, some condition] =>
    some (jumpIf (← NodeId.ofJson? node) (← count.toNat64?) (← condition.toBool?))
  | _ => none

def ofJson? (depth : Nat) (j : Json) : Option Step :=
  match j.toCase? depth with
  | some (name, some content, depth) =>
    match name with
    | "Start" => (NodeId.ofJson? content).map start
    | "Check" => (NodeId.ofJson? content).map check
    | "Jump" => jumpOfJson? depth content
    | "JumpIf" => jumpIfOfJson? depth content
    | "Finish" => (NodeId.ofJson? content).map finish
    | _ => none
  | _ => none

/-! ## Logs -/

def logToJson (log : Array Step) : Json :=
  .object [("steps", .array (log.toList.map toJson))]

def logOfJson? (depth : Nat) (j : Json) : Option (Array Step) := do
  let (_, fields, depth) ← j.toFields? ["steps"] depth
  match fields with
  | [some steps] =>
    let (items, depth) ← steps.toItems? depth
    let steps ← items.mapM (ofJson? depth)
    some steps.toArray
  | _ => none

/-- Mirrors quill-eval/step:90-94 (`fingerprint`). -/
def fingerprint (log : Array Step) : String := Digest.sha256 (logToJson log).compact

end Step
end ReactiveLang
