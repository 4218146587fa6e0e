import LogicAsm.Text.CaseTable

/-!
# Lower case

Lower-casing by the Unicode standard.  A capital with one small letter becomes that letter.  Two
rules go beyond the table: the capital `İ` becomes an `i` with a combining dot, so a text may grow,
and a capital sigma at the end of a word becomes the final sigma.
-/

namespace LogicAsm.Text

/-- The lower case of a character that stands alone. -/
def lowerChar (c : Char) : Text :=
  if c = 'İ' then ['i', Char.ofNat 0x307]
  else
    match lowerRows.findSome? (·.lower? c.toNat) with
    | some code => [Char.ofNat code]
    | none => [c]

/-- Whether the first character that is not passed over has a case. -/
def meetsCased (t : Text) : Bool := (t.find? fun c => !isPassedOver c).any isCased

/-- The lower case of `t`, where `before` is the text in front of it, last character first. -/
def lowerAfter (before : Text) : Text → Text
  | [] => []
  | c :: cs =>
    let small :=
      if c = 'Σ' then if meetsCased before && !meetsCased cs then ['ς'] else ['σ'] else lowerChar c
    small ++ lowerAfter (c :: before) cs

def lower (t : Text) : Text := lowerAfter [] t

end LogicAsm.Text
