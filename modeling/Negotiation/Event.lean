import Negotiation.Failure

/-!
Events: what a graph notes down while it is built, resolved and frozen.
-/

namespace Negotiation

/-- How much an event matters. -/
inductive Level where
  | trace
  | debug
  | info
  | warn
deriving DecidableEq

def Level.name : Level → String
  | .trace => "TRACE"
  | .debug => "DEBUG"
  | .info => "INFO"
  | .warn => "WARN"

/-- Something worth noting. -/
inductive Event where
  | nodeAdded (node : NodeId) (name : String) (inputs outputs : Nat)
  | edgeBound (output input : Port) (edge : EdgeId) (protocol : String)
  | bindingRejected (error : GraphError)
  | groupRejected (error : GraphError)
  | sealing (nodes edges : Nat)
  | evaluating (key : FlowKey)
  | edgeResolved (edge : EdgeId) (value : Parameter)
  | resolutionFailed (keys : Nat) (error : ResolveError)
  | strayNode (node : NodeId) (name : String)
  | edgeLeftOut (edge : EdgeId)
  | freezeFailed (violations : Nat)
  | frozen (nodes edges evaluations : Nat)
deriving DecidableEq

namespace Event

def level : Event → Level
  | nodeAdded .. | edgeBound .. | sealing .. | resolutionFailed .. => .debug
  | bindingRejected _ | groupRejected _ | strayNode .. | edgeLeftOut _ => .warn
  | evaluating _ | edgeResolved .. => .trace
  | freezeFailed _ | frozen .. => .info

def text : Event → String
  | nodeAdded node name inputs outputs =>
      "Added node " ++ node.text ++ " '" ++ name ++ "' (" ++ Text.decimal inputs ++ " in, " ++
        Text.decimal outputs ++ " out)"
  | edgeBound output input edge protocol =>
      "Bound " ++ output.text ++ " -> " ++ input.text ++ " as " ++ edge.text ++ " (" ++ protocol ++
        ")"
  | bindingRejected error => "Rejected binding: " ++ error.message
  | groupRejected error => "Rejected group binding: " ++ error.message
  | sealing nodes edges =>
      "Sealing graph: " ++ Text.decimal nodes ++ " nodes, " ++ Text.decimal edges ++ " edges"
  | evaluating key => "Evaluating " ++ key.text
  | edgeResolved edge value => edge.text ++ " resolved to " ++ value.text
  | resolutionFailed keys error =>
      "Resolution failed, " ++ Text.decimal keys ++ " key(s) poisoned: " ++ error.message
  | strayNode node name => "Node " ++ node.text ++ " '" ++ name ++ "' has no connections"
  | edgeLeftOut edge =>
      edge.text ++ " is not reachable from any root, left out of the bound graph"
  | freezeFailed violations => "Freeze failed with " ++ Text.decimal violations ++ " violation(s)"
  | frozen nodes edges evaluations =>
      "Froze graph: " ++ Text.decimal nodes ++ " nodes, " ++ Text.decimal edges ++
        " edges resolved in " ++ Text.decimal evaluations ++ " evaluations"

end Event

end Negotiation
