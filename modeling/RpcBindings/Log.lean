import RpcBindings.Text.Lines
import RpcBindings.Text.Quoted

/-!
# Log events

A run tells what it does as a list of events. An event is written as its level, what
happened, and its fields. A field that is not quoted may hold newlines, and then only the
first line of the event tells that it belongs to the log.
-/
namespace RpcBindings

/-- How important an event is. -/
inductive Level where
  /-- For finding out what a run did. -/
  | debug
  /-- For following a run. -/
  | info
  /-- Something was left out. -/
  | warn
deriving DecidableEq

namespace Level

/-- The name of the level. -/
def text : Level → String
  | .debug => "DEBUG"
  | .info => "INFO"
  | .warn => "WARN"

/-- The rank of the level; what is more important ranks higher. -/
def rank : Level → Nat
  | .debug => 0
  | .info => 1
  | .warn => 2

end Level

/-- Something that happened in a run. -/
inductive Event where
  /-- The configuration was read from a file. -/
  | configLoaded (file : String)
  /-- A schema file was read. -/
  | schemaRead (file : String)
  /-- A well-known import is not on disk and is left out. -/
  | importPassedOver (path : String)
  /-- The types of a schema were looked up. -/
  | schemaResolved (file : String) (unresolved : Nat)
  /-- Code is generated for a service. -/
  | serviceEmitted (generator service : String)
  /-- A method is left out because of its types. -/
  | methodSkipped (level : Level) (method : String)
  /-- All code is generated. -/
  | generationFinished (language : String) (clients servers manifest : Nat)
deriving DecidableEq

namespace Event

/-- The level of an event. -/
def level : Event → Level
  | .schemaRead _ => .info
  | .methodSkipped level _ => level
  | _ => .debug

/-- What happened, and the fields. -/
def text : Event → String
  | .configLoaded file => "loaded config file=" ++ file
  | .schemaRead file => "loading schema file=" ++ file
  | .importPassedOver path => "skipping well-known import import=" ++ path
  | .schemaResolved file unresolved =>
    "resolved schema root file=" ++ file ++ " unresolved=" ++ toString unresolved
  | .serviceEmitted generator service =>
    "emitting service generator=" ++ Text.quoted generator ++ " service=" ++ service
  | .methodSkipped _ method =>
    "skipping method with unresolved types method=" ++ Text.quoted method
  | .generationFinished language clients servers manifest =>
    "generation finished language=" ++ Text.quoted language
      ++ " clients=" ++ toString clients ++ " servers=" ++ toString servers
      ++ " meta=" ++ toString manifest

/-- The event as it is written to the log, with the newline that ends it. -/
def entry (e : Event) : String :=
  e.level.text ++ " " ++ e.text ++ "\n"

/-- The lines that the event takes up. -/
def lines (e : Event) : List String :=
  Text.lines e.entry

end Event

end RpcBindings
