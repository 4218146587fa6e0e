import LogicAsm.Text.Quoted

/-!
# JSON documents

The values that reports are made of and their printed form: members in the order given, two blanks
per level, and nothing but ASCII.  A character outside ASCII is written by its UTF-16 units, so one
beyond the first plane takes two escapes.
-/

namespace LogicAsm

/-- A JSON value; an object keeps the order of its members. -/
inductive Json where
  | int (n : Int)
  | string (t : Text)
  | array (items : List Json)
  | object (members : List (String × Json))

namespace Json

/-- The UTF-16 units of a code point. -/
def units16 (code : Nat) : List Nat :=
  if code < 0x10000 then [code]
  else [0xD800 + (code - 0x10000) / 0x400, 0xDC00 + (code - 0x10000) % 0x400]

/-- A character inside a JSON string. -/
def escapedChar (c : Char) : Text :=
  if c = '"' then ['\\', '"']
  else if c = '\\' then ['\\', '\\']
  else if c = '\n' then ['\\', 'n']
  else if c = '\r' then ['\\', 'r']
  else if c = '\t' then ['\\', 't']
  else if c.toNat = 8 then ['\\', 'b']
  else if c.toNat = 12 then ['\\', 'f']
  else if 32 ≤ c.toNat ∧ c.toNat < 127 then [c]
  else (units16 c.toNat).flatMap fun unit => '\\' :: 'u' :: Text.hexDigits 4 unit

def stringText (t : Text) : Text := '"' :: t.flatMap escapedChar ++ ['"']

def newline (level : Nat) : Text := '\n' :: List.replicate (2 * level) ' '

/-- Items between brackets, each on a line of its own one level further in. -/
def bracketed (opening closing : Char) (level : Nat) (items : List Text) : Text :=
  if items.isEmpty then [opening, closing]
  else
    opening :: newline (level + 1) ++ List.intercalate (',' :: newline (level + 1)) items ++
      newline level ++ [closing]

/-- The printed form of a value that starts on the given level. -/
def render (level : Nat) : Json → Text
  | .int n => (toString n).toList
  | .string t => stringText t
  | .array items => bracketed '[' ']' level (renderItems level items)
  | .object members => bracketed '\x7b' '\x7d' level (renderMembers level members)
where
  renderItems (level : Nat) : List Json → List Text
    | [] => []
    | item :: items => render (level + 1) item :: renderItems level items
  renderMembers (level : Nat) : List (String × Json) → List Text
    | [] => []
    | (name, value) :: members =>
      (stringText name.toList ++ ':' :: ' ' :: render (level + 1) value) ::
        renderMembers level members

def text (j : Json) : Text := j.render 0

end Json

end LogicAsm
