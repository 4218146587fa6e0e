import LogicAsm.Flow.Graph

/-!
# Reachability

Which nodes control can get to from the first one.  A walk keeps the nodes it has seen and a queue
of those whose edges it has not followed; a node enters the queue when it is seen for the first
time, so as many steps as there are nodes empty the queue.

Instructions that control cannot get to are reported; comments and labels are not.
-/

namespace LogicAsm.FlowGraph

/-- A walk: the nodes seen, and those to go on from. -/
structure Walk where
  seen : BitSet
  queue : List Nat

namespace Walk

/-- The walk that has also seen a node. -/
def see (w : Walk) (i : Nat) : Walk :=
  if w.seen.contains i then w else ⟨w.seen.insert i, w.queue ++ [i]⟩

/-- The walk after following the edges of the node at the front of the queue. -/
def step (g : FlowGraph) (w : Walk) : Walk :=
  match w.queue with
  | [] => w
  | i :: queue => (g.successors i).foldl (fun w edge => w.see edge.target) { w with queue }

def steps (g : FlowGraph) : Nat → Walk → Walk
  | 0, w => w
  | n + 1, w => steps g n (w.step g)

end Walk

/-- The nodes that can be reached from the first one. -/
def reachable (g : FlowGraph) : BitSet :=
  let nothing : Walk := ⟨.empty g.size, []⟩
  if g.size = 0 then nothing.seen else ((nothing.see 0).steps g g.size).seen

def unreachable (n : Node) : Diagnostic :=
  { range := n.range
    message := "Unreachable code"
    severity := .warning
    code := .unreachableCode
    tags := [.unnecessary] }

/-- The reports of all instructions that control cannot get to. -/
def unreachableProblems (g : FlowGraph) : List Diagnostic :=
  let reachable := g.reachable
  g.nodes.zipIdx.filterMap fun (n, i) =>
    if n.isInstruction && !reachable.contains i then some (unreachable n) else none

/-- Which nodes of a program can be reached, and what is wrong with its flow of control. -/
def analyze (uri : String) (nodes : List Node) : Except Fault (List Bool × List Diagnostic) := do
  let g ← ofNodes uri nodes
  let reachable := g.reachable
  return ((List.range g.size).map reachable.contains, g.problems ++ g.unreachableProblems)

end LogicAsm.FlowGraph
