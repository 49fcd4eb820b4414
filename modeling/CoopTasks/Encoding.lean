import CoopTasks.Effect
import CoopTasks.Json.Decode

/-!
# Stored forms

How notifications, failures and the kinds of effects are written as JSON and read back. A payload
and a detail may be left out.
-/

namespace CoopTasks

namespace Decoder

def notification : Decoder Notification :=
  record ["tag", "payload"] fun room fields => do
    let [tag, payload] := fields | none
    some ⟨← required string room tag, ← defaulting json .null room payload⟩

def failure : Decoder Failure :=
  record ["message", "detail"] fun room fields => do
    let [message, detail] := fields | none
    some ⟨← required string room message, ← defaulting json .null room detail⟩

def effectKind : Decoder Effect.Kind := choice Effect.Kind.ofTag?

end Decoder

def Notification.toJson (n : Notification) : Json :=
  .object [("tag", .string n.tag), ("payload", n.payload)]

def Failure.toJson (f : Failure) : Json :=
  .object [("message", .string f.message), ("detail", f.detail)]

def Effect.Kind.toJson (kind : Effect.Kind) : Json := .string kind.tag

end CoopTasks
