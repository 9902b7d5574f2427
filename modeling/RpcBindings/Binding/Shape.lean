/-!
# Streaming shapes

Request and response stream independently of each other, which gives four shapes of a
method.
-/
namespace RpcBindings.Binding

/-- The streaming shape of a method. -/
inductive Shape where
  /-- One request, one response. -/
  | unary
  /-- One request, a stream of responses. -/
  | serverStreaming
  /-- A stream of requests, one response. -/
  | clientStreaming
  /-- Streams in both directions. -/
  | bidirectional
deriving DecidableEq

namespace Shape

/-- All shapes in order. -/
def all : List Shape := [.unary, .serverStreaming, .clientStreaming, .bidirectional]

/-- The shape of a method whose request and response stream or not. -/
def ofFlags : Bool → Bool → Shape
  | false, false => .unary
  | false, true => .serverStreaming
  | true, false => .clientStreaming
  | true, true => .bidirectional

/-- Whether the request streams. -/
def requestStream : Shape → Bool
  | .clientStreaming | .bidirectional => true
  | _ => false

/-- Whether the response streams. -/
def responseStream : Shape → Bool
  | .serverStreaming | .bidirectional => true
  | _ => false

/-- Whether nothing streams. -/
def isUnary (s : Shape) : Bool := s == .unary

/-- The shape in words. -/
def text : Shape → String
  | .unary => "unary"
  | .serverStreaming => "server streaming"
  | .clientStreaming => "client streaming"
  | .bidirectional => "bidi streaming"

@[simp]
theorem requestStream_ofFlags (a b : Bool) : (ofFlags a b).requestStream = a := by
  cases a <;> cases b <;> rfl

@[simp]
theorem responseStream_ofFlags (a b : Bool) : (ofFlags a b).responseStream = b := by
  cases a <;> cases b <;> rfl

end Shape

end RpcBindings.Binding
