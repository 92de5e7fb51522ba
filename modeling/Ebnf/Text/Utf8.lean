import Ebnf.Bytes

/-!
# UTF-8 text with replacement characters

Comments and special sequences are kept as text, and nothing guarantees that
their bytes are UTF-8.  The decoder here never fails: every maximal part of an
ill-formed sequence, that is the longest one with which a well-formed sequence
could still have begun, becomes one U+FFFD.

It reads one byte at a time.  Between two bytes it only remembers the character
that has been begun, so that cutting a text where no character is begun and
decoding the two parts is the same as decoding the whole.
-/

namespace Ebnf.Utf8

def replacement : Char := '\uFFFD'

/-- What the bytes so far have left open.  In `inside` a character needs one
byte between `low` and `high` and `further` continuation bytes after it; the
bits read up to now are `bits`. -/
inductive State where
  | between
  | inside (further : Nat) (low high : UInt8) (bits : Nat)
deriving DecidableEq, Repr

/-- A byte read where no character has been begun.  The bounds on the byte after
it leave out overlong forms, surrogates and numbers beyond U+10FFFF. -/
def State.begin (b : UInt8) : List Char × State :=
  if b < 0x80 then ([Char.ofNat b.toNat], .between)
  else if b < 0xC2 then ([replacement], .between)
  else if b < 0xE0 then ([], .inside 0 0x80 0xBF (b.toNat - 0xC0))
  else if b = 0xE0 then ([], .inside 1 0xA0 0xBF 0)
  else if b = 0xED then ([], .inside 1 0x80 0x9F 0xD)
  else if b < 0xF0 then ([], .inside 1 0x80 0xBF (b.toNat - 0xE0))
  else if b = 0xF0 then ([], .inside 2 0x90 0xBF 0)
  else if b < 0xF4 then ([], .inside 2 0x80 0xBF (b.toNat - 0xF0))
  else if b = 0xF4 then ([], .inside 2 0x80 0x8F 4)
  else ([replacement], .between)

/-- The characters that one more byte completes, and what it leaves open.  A byte
that cannot continue the character begun is read again as a first byte. -/
def State.feed : State → UInt8 → List Char × State
  | .between, b => begin b
  | .inside further low high bits, b =>
    if low ≤ b ∧ b ≤ high then
      match further with
      | 0 => ([Char.ofNat (64 * bits + (b.toNat - 0x80))], .between)
      | more + 1 => ([], .inside more 0x80 0xBF (64 * bits + (b.toNat - 0x80)))
    else
      (replacement :: (begin b).1, (begin b).2)

def State.finish : State → List Char
  | .between => []
  | .inside .. => [replacement]

def decodeFrom : State → Bytes → List Char
  | state, [] => state.finish
  | state, b :: rest => (state.feed b).1 ++ decodeFrom (state.feed b).2 rest

def decode (bytes : Bytes) : List Char :=
  decodeFrom .between bytes

def text (bytes : Bytes) : String :=
  String.ofList (decode bytes)

/-- The bytes of a text. -/
def encode (text : String) : Bytes :=
  text.toUTF8.data.toList

end Ebnf.Utf8
