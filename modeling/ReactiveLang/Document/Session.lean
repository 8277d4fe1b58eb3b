import ReactiveLang.Document.Step
import ReactiveLang.Session.Basic

/-!
# Documents of sessions

The status of a machine and the notices of reactions as JSON documents.
-/

namespace ReactiveLang

namespace Status

def toJson (s : Status) : Json := .text s.name

def ofJson? (depth : Nat) (j : Json) : Option Status := (j.toBareCase? depth).bind ofName?

end Status

namespace Notice

def toJson (n : Notice) : Json :=
  .object [
    ("pass", .nat n.pass),
    ("changed", .array (n.changed.map fun id => .nat id.index)),
    ("steps", .nat n.steps),
    ("result", .text n.result)]

def ofJson? (depth : Nat) (j : Json) : Option Notice := do
  let (_, fields, depth) ← j.toFields? ["pass", "changed", "steps", "result"] depth
  match fields with
  | [some pass, some changed, some steps, some result] =>
    let pass ← pass.toNat64?
    let (changed, _) ← changed.toItems? depth
    let changed ← changed.mapM Json.toNat32?
    let steps ← steps.toNat64?
    let result ← result.toText?
    some ⟨pass, changed.map StreamId.mk, steps, result⟩
  | _ => none

end Notice
end ReactiveLang
