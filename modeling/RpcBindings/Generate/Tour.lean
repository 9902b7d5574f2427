import RpcBindings.Schema.Tree

/-!
# Touring schemas

A tour goes through schemas depth first, children before their parent, and notes the full
name of every node. A service whose full name has not been noted before is visited; so a
service that several schemas share is visited once.
-/
namespace RpcBindings.Generate

open RpcBindings.Schema

/-- What a tour has seen. -/
structure Tour where
  /-- The full names noted so far, the last one first. -/
  seen : List String := []
  /-- The services visited so far, in order. -/
  services : List Service := []

namespace Tour

/-- Whether a full name has been noted. -/
def hasSeen (t : Tour) (fullName : String) : Bool :=
  t.seen.contains fullName

/-- Notes a full name. -/
def note (t : Tour) (fullName : String) : Tour :=
  if t.hasSeen fullName then t else { t with seen := fullName :: t.seen }

/-- Notes a node, and visits it if it is a service seen for the first time. -/
def meet (t : Tour) (node : Node) : Tour :=
  if t.hasSeen node.fullName then t
  else
    { seen := node.fullName :: t.seen
      services := t.services ++ node.service?.toList }

mutual

/-- Tours the nodes below a node and then the node. -/
def node (t : Tour) : Node → Tour
  | .scope kind name fullName children =>
    (nodes t children).meet (.scope kind name fullName children)
  | .enum name fullName => t.meet (.enum name fullName)
  | .service s => t.meet (.service s)

/-- Tours nodes one after the other. -/
def nodes (t : Tour) : List Node → Tour
  | [] => t
  | n :: ns => nodes (node t n) ns

end

/-- Tours a schema. -/
def root (t : Tour) (r : Root) : Tour :=
  t.nodes r.nodes

/-- Tours schemas one after the other. -/
def ofRoots (roots : List Root) : Tour :=
  roots.foldl root {}

end Tour

end RpcBindings.Generate
