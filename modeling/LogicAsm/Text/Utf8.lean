import LogicAsm.Text.Quoted

/-!
# UTF-8

Files are bytes, and their text is UTF-8.  The decoder reads a byte at a time.  Between characters
it looks at a lead byte, which says how many continuation bytes follow and in which range the first
of them lies; inside a character it looks for a continuation byte in the range that is due.

Where the bytes are not UTF-8 the decoder says which bytes are at fault: the longest start of a
character that could still have been completed, or the single byte that starts none.
-/

namespace LogicAsm.Text

abbrev Bytes := List UInt8

namespace Utf8

inductive Reason where
  | invalidStart
  | invalidContinuation
  | unexpectedEnd
deriving DecidableEq

/-- The bytes that are not UTF-8: their position, their values, and what is wrong with them. -/
structure Fault where
  position : Nat
  bytes : Bytes
  reason : Reason
deriving DecidableEq

/-- A character that has begun: its bytes so far, how many are still due, the range of the next one,
and the bits read. -/
structure Pending where
  bytes : Bytes
  due : Nat
  low : UInt8
  high : UInt8
  bits : Nat

/-- What a lead byte announces; a byte below 128 is a character of its own and announces nothing. -/
def lead? (b : UInt8) : Option Pending :=
  if 0xC2 ≤ b ∧ b ≤ 0xDF then some ⟨[b], 1, 0x80, 0xBF, b.toNat % 32⟩
  else if b = 0xE0 then some ⟨[b], 2, 0xA0, 0xBF, 0⟩
  else if b = 0xED then some ⟨[b], 2, 0x80, 0x9F, b.toNat % 16⟩
  else if 0xE1 ≤ b ∧ b ≤ 0xEF then some ⟨[b], 2, 0x80, 0xBF, b.toNat % 16⟩
  else if b = 0xF0 then some ⟨[b], 3, 0x90, 0xBF, 0⟩
  else if 0xF1 ≤ b ∧ b ≤ 0xF3 then some ⟨[b], 3, 0x80, 0xBF, b.toNat % 8⟩
  else if b = 0xF4 then some ⟨[b], 3, 0x80, 0x8F, b.toNat % 8⟩
  else none

/-- The pending character with one more byte. -/
def Pending.push (p : Pending) (b : UInt8) : Pending :=
  ⟨p.bytes ++ [b], p.due - 1, 0x80, 0xBF, p.bits * 64 + b.toNat % 64⟩

/-- Decode from `position` on, in front of a character or inside one. -/
def decodeFrom (position : Nat) : Option Pending → Bytes → Except Fault Text
  | none, [] => .ok []
  | some p, [] => .error ⟨position - p.bytes.length, p.bytes, .unexpectedEnd⟩
  | none, b :: rest =>
    if b < 0x80 then (decodeFrom (position + 1) none rest).map (Char.ofNat b.toNat :: ·)
    else
      match lead? b with
      | some p => decodeFrom (position + 1) (some p) rest
      | none => .error ⟨position, [b], .invalidStart⟩
  | some p, b :: rest =>
    if p.low ≤ b ∧ b ≤ p.high then
      let q := p.push b
      if q.due = 0 then (decodeFrom (position + 1) none rest).map (Char.ofNat q.bits :: ·)
      else decodeFrom (position + 1) (some q) rest
    else .error ⟨position - p.bytes.length, p.bytes, .invalidContinuation⟩

def decode (bytes : Bytes) : Except Fault Text := decodeFrom 0 none bytes

def encode (t : Text) : Bytes := t.flatMap String.utf8EncodeChar

def Reason.message : Reason → String
  | .invalidStart => "invalid start byte"
  | .invalidContinuation => "invalid continuation byte"
  | .unexpectedEnd => "unexpected end of data"

/-- Which bytes are at fault, in words: a single byte by its value, more by their positions. -/
def Fault.message (f : Fault) : String :=
  let place :=
    match f.bytes with
    | [b] => s!"byte 0x{String.ofList (hexDigits 2 b.toNat)} in position {f.position}"
    | bs => s!"bytes in position {f.position}-{f.position + bs.length - 1}"
  s!"'utf-8' codec can't decode {place}: {f.reason.message}"

end Utf8

end LogicAsm.Text
