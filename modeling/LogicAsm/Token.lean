import LogicAsm.Number
import LogicAsm.Color
import LogicAsm.Markup

/-!
# Tokens

A token is a word, a string or a comment of a program, with its place.  Its content is kept as
written, quotes and the `#` of a comment included.  Strings and named colours also record the
markup inside them.
-/

namespace LogicAsm

inductive TokenKind where
  | comment
  | string
  | number
  | color
  | identifier
deriving DecidableEq

def TokenKind.label : TokenKind → String
  | .comment => "COMMENT"
  | .string => "STRING"
  | .number => "NUMBER"
  | .color => "COLOR"
  | .identifier => "IDENTIFIER"

/-- A token of a program: what it is, its text, where it stands and the markup in it. -/
structure Token where
  kind : TokenKind
  content : Text
  start : Position
  stop : Position
  tags : List ColorTag := []
  placeholders : List Nat := []
  escapes : List Nat := []
deriving DecidableEq

/-- The kind of an unquoted word, with the tag of a named colour. -/
def classifyWord (word : Text) : TokenKind × List ColorTag :=
  if Color.isHexLiteral word then (.color, [])
  else if Color.isNamedLiteral word then (.color, [⟨2, word.length - 1⟩])
  else if Number.isLiteral word then (.number, [])
  else (.identifier, [])

namespace Token

def range (t : Token) : Range := ⟨t.start, t.stop⟩

def isComment (t : Token) : Bool := t.kind == .comment

def isNumber (t : Token) : Bool := t.kind == .number

/-- A string is closed by a quote other than the one that opens it. -/
def isClosedString (t : Token) : Bool :=
  t.kind == .string && 2 ≤ t.content.length && t.content.endsWith '"'

def number? (t : Token) : Option Number := if t.isNumber then Number.read? t.content else none

/-- The instruction counter that a token names, if it is an integral number. -/
def address (t : Token) : Except Fault (Option Int) :=
  match t.number? with
  | none => .ok none
  | some n => n.address

def tagName (t : Token) (tag : ColorTag) : Text :=
  (t.content.take tag.nameStop).drop tag.nameStart

/-- The place of a colour name in the token. -/
def tagRange (t : Token) (tag : ColorTag) : Range :=
  .of t.start.line (t.start.character + tag.nameStart) t.start.line
    (t.start.character + tag.nameStop)

def color? (t : Token) : Option Color.Rgba :=
  if t.kind = .color ∧ Color.isHexLiteral t.content then (Color.rgba (t.content.drop 1)).toOption
  else none

/-- The written form of a token in messages: its kind, its content quoted, and where it starts. -/
def message (t : Token) : String :=
  s!"Token({t.kind.label}, {String.ofList t.content.quoted}, " ++
    s!"{t.start.line}:{t.start.character})"

end Token

end LogicAsm
