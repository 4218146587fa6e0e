import LogicAsm.Index
import LogicAsm.LabelTable

/-!
# Documents

A document is a text that has been read: its lines, its nodes, the lexical problems, the labels and
the instructions.  All of it is a function of the text (`Document.ofText`), so a document is never
half up to date.

Look-ups use that nodes are in the order of the text: those of a line stand together, and so does
what lies in front of a node.
-/

namespace LogicAsm

/-- A text and what was read from it. -/
structure Document where
  uri : String
  text : Text
  lines : List Text
  nodes : List Node
  problems : List Diagnostic
  labels : LabelTable
  instructions : List Nat

namespace Document

def ofText (uri : String) (text : Text) : Document :=
  let nodes := Node.ofText text
  { uri, text, nodes
    lines := text.lines
    problems := Statement.problemsOfText text
    labels := LabelTable.ofNodes nodes
    instructions := instructionIndices nodes }

def update (doc : Document) (text : Text) : Document := ofText doc.uri text

/-! ### Text -/

def lineText? (doc : Document) (line : Int) : Option Text :=
  if 0 ≤ line then doc.lines[line.toNat]? else none

/-- The offset at which a line starts. -/
def lineOffset (doc : Document) (line : Nat) : Nat :=
  (doc.lines.take line).foldr (fun l offset => l.length + 1 + offset) 0

/-- The offset of a position.  A position behind the end of its line is at the end of the line, and
one behind the last line at the end of the text. -/
def offsetAt (doc : Document) (p : Position) : Nat :=
  match doc.lines[p.line.toNat]? with
  | none => doc.text.length
  | some l => doc.lineOffset p.line.toNat + min p.character.toNat l.length

/-! ### Look-ups -/

/-- The node of an index, counted from either end. -/
def nodeAt (doc : Document) (i : Int) : Except Fault Node :=
  Index.get .indexOutOfRange doc.nodes i

/-- The instruction of a counter, counted from either end. -/
def instructionAt (doc : Document) (counter : Int) : Except Fault Node := do
  let index ← Index.get .indexOutOfRange doc.instructions counter
  doc.nodeAt index

/-- The counter of the node with the given index, if it is an instruction. -/
def counterOf? (doc : Document) (index : Int) : Option Nat :=
  let counter := (doc.instructions.takeWhile fun (i : Nat) => (i : Int) < index).length
  if doc.instructions[counter]?.map Int.ofNat = some index then some counter else none

/-- The nodes that start on a line. -/
def nodesOnLine (doc : Document) (line : Int) : List Node :=
  (doc.nodes.dropWhile fun n => n.line < line).takeWhile fun n => n.line ≤ line

/-- The node whose range contains a position. -/
def nodeAtPosition? (doc : Document) (p : Position) : Option Node :=
  (doc.nodesOnLine p.line).find? fun n => n.range.contains p

/-- The first declaration of a label. -/
def labelDeclaration? (doc : Document) (name : Text) : Option Node :=
  (doc.labels.find? name).bind (doc.nodes[·]?)

end Document

end LogicAsm
