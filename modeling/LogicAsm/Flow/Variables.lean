import LogicAsm.BuildingLink
import LogicAsm.Flow.Reachability

/-!
# Variables that may be unset

Which variables may have no value yet when a node runs.  The analysis goes forward over the flow
graph, with one bit per variable and one set per node:

* in front of the first node every variable is unset;
* a node leaves those variables unset that are so in front of it and that it does not write;
* what a node leaves unset may be unset in front of each of its successors.

The solver keeps a queue of nodes to look at, each at most once.  It takes a node from the front,
computes what it leaves unset, and where that is new, adds it to the successors; a successor whose
set has grown, or that was never looked at, goes to the back of the queue.  Sets only grow, so a
node is taken at most once more than there are variables, which bounds the number of steps.

## Problems

A variable that is read and never written is reported, unless it is a linked building; so is one
that is read where it may be unset, and one that is written and never read, unless it is `_`.
-/

namespace LogicAsm

/-- Whether a token names a variable: an identifier, no global and no keyword. -/
def Token.isVariable (t : Token) : Bool :=
  t.kind == .identifier && !t.content.startsWith ['@'] &&
    !(["true", "false", "null"].map String.toList).contains t.content

/-- A read or a write of a variable, which is given by its number, its slot in every set. -/
structure Access where
  token : Token
  slot : Nat
deriving DecidableEq

structure NodeAccesses where
  reads : List Access
  writes : List Access
deriving DecidableEq

namespace NodeAccesses

/-- The number of a name among those found so far, and the names with it. -/
def number (names : List Text) (name : Text) : Nat × List Text :=
  match names.idxOf? name with
  | some i => (i, names)
  | none => (names.length, names ++ [name])

/-- The accesses of operands, with the names found so far. -/
def ofOperands (names : List Text) (found : NodeAccesses) :
    List Operand → NodeAccesses × List Text
  | [] => (found, names)
  | o :: os =>
    if o.token.isVariable then
      let (slot, more) := number names o.token.content
      match o.role with
      | .read => ofOperands more { found with reads := found.reads ++ [⟨o.token, slot⟩] } os
      | .write => ofOperands more { found with writes := found.writes ++ [⟨o.token, slot⟩] } os
      | _ => ofOperands names found os
    else ofOperands names found os

/-- The accesses of each node, with the names found so far. -/
def ofNodes (names : List Text) : List Node → List NodeAccesses × List Text
  | [] => ([], names)
  | n :: ns =>
    let (here, names) :=
      ofOperands names ⟨[], []⟩ (if n.isInstruction then n.resolvedOperands else [])
    let (rest, names) := ofNodes names ns
    (here :: rest, names)

end NodeAccesses

/-! ### Solving -/

/-- The state of the solver: what may be unset in front of each node, what each node leaves unset
once it was looked at, the nodes to look at, and those that were taken so far, the last one first.
-/
structure UnsetState where
  before : Array BitSet
  after : Array (Option BitSet)
  queue : List Nat
  queued : BitSet
  taken : List Nat

namespace UnsetState

def initial (nodes slots : Nat) : UnsetState :=
  { before := (Array.replicate nodes (BitSet.empty slots)).setIfInBounds 0 (.full slots)
    after := Array.replicate nodes none
    queue := if nodes = 0 then [] else [0]
    queued := (BitSet.empty nodes).insert 0
    taken := [] }

/-- Add what may be unset to a successor.  It is looked at again if its set grows, or if it never
was looked at. -/
def flow (unset : BitSet) (s : UnsetState) (target : Nat) : UnsetState :=
  match s.before[target]?, s.after[target]? with
  | some old, some looked =>
    let merged := old.union unset
    if looked.isNone || merged != old then
      let s := { s with before := s.before.setIfInBounds target merged }
      if s.queued.contains target then s
      else { s with queue := s.queue ++ [target], queued := s.queued.insert target }
    else s
  | _, _ => s

/-- Take a node from the queue and carry what it leaves unset to its successors. -/
def step (g : FlowGraph) (keep : Array BitSet) (s : UnsetState) : UnsetState :=
  match s.queue with
  | [] => s
  | i :: queue =>
    let s := { s with queue, queued := s.queued.erase i, taken := i :: s.taken }
    match s.before[i]?, keep[i]? with
    | some unset, some kept =>
      let out := unset.inter kept
      if s.after[i]? = some (some out) then s
      else
        let s := { s with after := s.after.setIfInBounds i (some out) }
        (g.successors i).foldl (fun s edge => s.flow out edge.target) s
    | _, _ => s

/-- Take nodes until the queue is empty, at most the given number. -/
def run (g : FlowGraph) (keep : Array BitSet) : Nat → UnsetState → UnsetState
  | 0, s => s
  | n + 1, s => if s.queue.isEmpty then s else run g keep n (s.step g keep)

end UnsetState

/-- The variables of a program and where they may be unset. -/
structure VariableAnalysis where
  graph : FlowGraph
  names : List Text
  accesses : List NodeAccesses
  unsetBefore : Array BitSet
  /-- The nodes that the solver took from its queue, the last one first. -/
  taken : List Nat

namespace VariableAnalysis

/-- The variables that a node does not write. -/
def kept (slots : Nat) (accesses : NodeAccesses) : BitSet :=
  accesses.writes.foldl (fun s access => s.erase access.slot) (.full slots)

/-- The state of the solver when its queue is empty. -/
def solve (graph : FlowGraph) (slots : Nat) (accesses : List NodeAccesses) : UnsetState :=
  UnsetState.run graph (accesses.map (kept slots)).toArray (graph.size * (slots + 1))
    (.initial graph.size slots)

def ofGraph (graph : FlowGraph) : VariableAnalysis :=
  let (accesses, names) := NodeAccesses.ofNodes [] graph.nodes
  let solved := solve graph names.length accesses
  { graph, names, accesses, unsetBefore := solved.before, taken := solved.taken }

/-! ### Problems -/

def variablesOf (slots : Nat) (accesses : List Access) : BitSet :=
  accesses.foldl (fun s access => s.insert access.slot) (.empty slots)

def nameOf (a : VariableAnalysis) (slot : Nat) : Text := a.names[slot]?.getD []

/-- What is wrong with a read of a node. -/
def readProblem (a : VariableAnalysis) (written reachable : BitSet) (node : Nat) (access : Access) :
    List Diagnostic :=
  let name := a.nameOf access.slot
  if !written.contains access.slot then
    if BuildingLink.isLink name then []
    else
      [{ range := access.token.range
         message := s!"Variable '{String.ofList name}' is never set"
         severity := .warning
         code := .undefinedVariable }]
  else if reachable.contains node &&
      (a.unsetBefore[node]?.any fun unset => unset.contains access.slot) then
    [{ range := access.token.range
       message := s!"Variable '{String.ofList name}' might not be set before it is read"
       severity := .information
       code := .possiblyUnsetVariable }]
  else []

def writeProblem (a : VariableAnalysis) (read : BitSet) (access : Access) : List Diagnostic :=
  let name := a.nameOf access.slot
  if name = ['_'] ∨ read.contains access.slot then []
  else
    [{ range := access.token.range
       message := s!"Variable '{String.ofList name}' is set but never read"
       severity := .warning
       code := .unusedVariable
       tags := [.unnecessary] }]

/-- What is wrong with the variables of a program: reads first, then writes. -/
def problems (a : VariableAnalysis) : List Diagnostic :=
  let written := variablesOf a.names.length (a.accesses.flatMap (·.writes))
  let read := variablesOf a.names.length (a.accesses.flatMap (·.reads))
  let reachable := a.graph.reachable
  (a.accesses.zipIdx.flatMap fun (here, node) =>
    here.reads.flatMap (a.readProblem written reachable node)) ++
  (a.accesses.flatMap fun here => here.writes.flatMap (a.writeProblem read))

end VariableAnalysis

end LogicAsm
