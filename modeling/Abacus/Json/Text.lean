namespace Abacus.Json

-- What a JSON string has between its quotes: bytes, and UTF-16 code units that are written as `\u`
-- and four hexadecimal digits.
inductive Mark where
  | byte (b : UInt8)
  | unit (u : Nat)
  deriving DecidableEq, Repr

namespace Mark

def isHighSurrogate (u : Nat) : Bool :=
  0xD800 ≤ u && u < 0xDC00

def isLowSurrogate (u : Nat) : Bool :=
  0xDC00 ≤ u && u < 0xE000

-- The character of a high and a low surrogate.
def pair (high low : Nat) : Char :=
  Char.ofNat (0x10000 + (high - 0xD800) * 0x400 + (low - 0xDC00))

-- The bytes of a row of marks, unless a surrogate is left unpaired.
def bytes? : List Mark → Option (List UInt8)
  | [] => some []
  | .byte b :: rest => (bytes? rest).map (b :: ·)
  -- Units pair up only if nothing stands between them.
  | .unit u :: .unit v :: rest =>
    if isHighSurrogate u then
      if isLowSurrogate v then
        (bytes? rest).map (String.utf8EncodeChar (pair u v) ++ ·)
      else
        none
    else if isLowSurrogate u then
      none
    else
      (bytes? (.unit v :: rest)).map (String.utf8EncodeChar (Char.ofNat u) ++ ·)
  | .unit u :: rest =>
    if isHighSurrogate u || isLowSurrogate u then
      none
    else
      (bytes? rest).map (String.utf8EncodeChar (Char.ofNat u) ++ ·)

-- The text of a row of marks.
def text? (marks : List Mark) : Option String :=
  (bytes? marks).bind fun bytes => String.fromUTF8? ⟨bytes.toArray⟩

end Mark

-- How a character is written between quotes.
def escaped (c : Char) : List Char :=
  match c with
  | '"' => ['\\', '"']
  | '\\' => ['\\', '\\']
  | '\n' => ['\\', 'n']
  | '\r' => ['\\', 'r']
  | '\t' => ['\\', 't']
  | '\x08' => ['\\', 'b']
  | '\x0c' => ['\\', 'f']
  | _ =>
    if c.toNat < 0x20 then
      ['\\', 'u', '0', '0', Nat.digitChar (c.toNat / 16), Nat.digitChar (c.toNat % 16)]
    else
      [c]

def quote (s : String) : String :=
  String.ofList ('"' :: s.toList.flatMap escaped ++ ['"'])

end Abacus.Json
