import LogicAsm.Text.DecimalDigit

/-!
# Markup inside strings

A string may hold three kinds of markup, which are found by their offsets in it:

* colour tags `[name]`; `[]` takes the last colour back, and `[[` is a bracket and opens no tag;
* placeholders, a decimal digit in braces;
* escaped newlines, a backslash followed by `n`.
-/

namespace LogicAsm

/-- A colour tag: the offsets where its name starts and where it ends. -/
structure ColorTag where
  nameStart : Nat
  nameStop : Nat
deriving DecidableEq

/-- A tag without a name takes the last colour back. -/
def ColorTag.isReset (tag : ColorTag) : Bool := tag.nameStart == tag.nameStop

namespace Markup

/-- The colour tags from offset `i` on, where `opened` is the offset of the bracket that is open.

A bracket right behind the open one makes both a bracket as such; any other starts anew. -/
def colorTagsFrom (i : Nat) (opened : Option Nat) : Text → List ColorTag
  | [] => []
  | c :: cs =>
    if c = '[' then
      colorTagsFrom (i + 1) (if opened.map (· + 1) = some i then none else some i) cs
    else if c = ']' then
      match opened with
      | some start => ⟨start + 1, i⟩ :: colorTagsFrom (i + 1) none cs
      | none => colorTagsFrom (i + 1) none cs
    else colorTagsFrom (i + 1) opened cs

def colorTags (t : Text) : List ColorTag := colorTagsFrom 0 none t

/-- The offsets, counted from `i`, at which the rest of the text has the property. -/
def offsetsFrom (p : Text → Bool) (i : Nat) : Text → List Nat
  | [] => []
  | c :: cs => (if p (c :: cs) then [i] else []) ++ offsetsFrom p (i + 1) cs

def startsPlaceholder : Text → Bool
  | '\x7b' :: d :: '\x7d' :: _ => Text.isDigit d
  | _ => false

def startsEscape : Text → Bool
  | '\\' :: 'n' :: _ => true
  | _ => false

def placeholders (t : Text) : List Nat := offsetsFrom startsPlaceholder 0 t

def escapes (t : Text) : List Nat := offsetsFrom startsEscape 0 t

end Markup

end LogicAsm
