import LogicAsm.Diagnostic
import LogicAsm.Piece

/-!
# Statements

The second step of reading a program puts the pieces of a line together to *statements*: the tokens
between two separators.  Stretches without a token are no statements.

A statement starts where its first token starts and ends in front of the separator, so blanks behind
its last token belong to it.

Some names have changed in the language: `op atan2` is now `op angle`, `op dst` is now `op len`, and
the operand `configure` is now `config`.  A statement holds the new names at the places of the old
ones.

## Lexical problems

Two things can be wrong with the pieces of a line, and both are found from the pieces alone
(`lexicalProblems`): a string without a closing quote, and a word or string that starts right where
another token ends.
-/

namespace LogicAsm

/-! ### Names of old -/

/-- The new name of an operation. -/
def renamedOperation (name : Text) : Text :=
  if name = "atan2".toList then "angle".toList
  else if name = "dst".toList then "len".toList
  else name

def renamedOperand (name : Text) : Text :=
  if name = "configure".toList then "config".toList
  else if name = "@configure".toList then "@config".toList
  else name

/-- The token with other content at the same place. -/
def Token.rename (f : Text → Text) (t : Token) : Token := { t with content := f t.content }

/-- The tokens behind the first one, under their new names. -/
def renameTail (head : Token) (tail : List Token) : List Token :=
  let tail :=
    if head.content = "op".toList then tail.modifyHead (Token.rename renamedOperation) else tail
  tail.map (Token.rename renamedOperand)

/-! ### Statements -/

/-- The tokens between two separators: at least one, and where the statement ends. -/
structure Statement where
  head : Token
  tail : List Token
  stop : Position
deriving DecidableEq

namespace Statement

def tokens (s : Statement) : List Token := s.head :: s.tail

def start (s : Statement) : Position := s.head.start

def isComment (s : Statement) : Bool := s.head.isComment

end Statement

namespace Piece

/-- The token that a piece is, at the given place. -/
def token? (line : Int) (column : Nat) (p : Piece) : Option Token :=
  let start : Position := ⟨line, column⟩
  let stop : Position := ⟨line, (column + p.text.length : Nat)⟩
  match p with
  | .blank _ => none
  | .separator _ => none
  | .comment _ => some { kind := .comment, content := p.text, start, stop }
  | .quoted _ _ =>
    some {
      kind := .string, content := p.text, start, stop, tags := Markup.colorTags p.text,
      placeholders := Markup.placeholders p.text, escapes := Markup.escapes p.text }
  | .word w =>
    some { kind := (classifyWord w).1, content := w, start, stop, tags := (classifyWord w).2 }

def endsStatement : Piece → Bool
  | .separator _ => true
  | _ => false

/-- The statement of the tokens found so far, none if there are none. -/
def close (line : Int) (column : Nat) : List Token → List Statement
  | [] => []
  | head :: tail => [⟨head, renameTail head tail, ⟨line, column⟩⟩]

/-- The statements of the pieces from a column on, the first of which starts with the tokens found
so far. -/
def statementsFrom (line : Int) (column : Nat) (found : List Token) : List Piece → List Statement
  | [] => close line column found
  | p :: ps =>
    let next := column + p.text.length
    if p.endsStatement then close line column found ++ statementsFrom line next [] ps
    else statementsFrom line next (found ++ (p.token? line column).toList) ps

/-! ### Lexical problems -/

/-- An error at the given place. -/
def problem (code : Code) (message : String) (line : Int) (start length : Nat) : Diagnostic :=
  { range := .of line start line (start + length : Nat), message, severity := .error, code }

/-- Whether a token right behind the piece touches another token. -/
def touches : Piece → Bool
  | .blank _ => false
  | .separator _ => false
  | _ => true

/-- What is wrong with a piece, where `glued` says that a token ends right in front of it. -/
def problems (line : Int) (column : Nat) (glued : Bool) (p : Piece) : List Diagnostic :=
  let unclosed :=
    match p with
    | .quoted _ false =>
      [problem .unclosedString "Missing closing quote \" before end of line." line column
        p.text.length]
    | _ => []
  let missing :=
    match p with
    | .quoted _ _ | .word _ =>
      if glued then [problem .missingSpace "Expected space after string." line column p.text.length]
      else []
    | _ => []
  unclosed ++ missing

/-- What is wrong with the pieces from a column on. -/
def problemsFrom (line : Int) (column : Nat) (glued : Bool) : List Piece → List Diagnostic
  | [] => []
  | p :: ps =>
    p.problems line column glued ++ problemsFrom line (column + p.text.length) p.touches ps

end Piece

namespace Statement

def ofLine (line : Int) (t : Text) : List Statement := Piece.statementsFrom line 0 [] (Piece.scan t)

def problemsOfLine (line : Int) (t : Text) : List Diagnostic :=
  Piece.problemsFrom line 0 false (Piece.scan t)

/-- The statements of a text, line by line. -/
def ofText (t : Text) : List Statement :=
  t.lines.zipIdx.flatMap fun (text, line) => ofLine line text

def problemsOfText (t : Text) : List Diagnostic :=
  t.lines.zipIdx.flatMap fun (text, line) => problemsOfLine line text

end Statement

end LogicAsm
