import Abacus.Json.Number
import Abacus.Json.Text
import Abacus.Numeral

namespace Abacus.Json

inductive Lexeme where
  | openArray
  | closeArray
  | openObject
  | closeObject
  | comma
  | colon
  | null
  | bool (b : Bool)
  | number (n : Number)
  | text (marks : List Mark)
  deriving DecidableEq

-- What the byte before left unfinished. Rows have their newest entry first.
inductive Pending where
  | nothing
  | word (letters : List Char)
  | number (chars : List Char)
  | text (marks : List Mark)
  -- Behind a backslash.
  | escape (marks : List Mark)
  -- Behind `\u`, with the value and the count of the digits so far.
  | unit (marks : List Mark) (value count : Nat)

namespace Lexeme

def ofWord? (letters : List Char) : Option Lexeme :=
  if letters = ['n', 'u', 'l', 'l'] then some .null
  else if letters = ['t', 'r', 'u', 'e'] then some (.bool true)
  else if letters = ['f', 'a', 'l', 's', 'e'] then some (.bool false)
  else none

def continuesWord (c : Char) : Bool :=
  c.isLower

def continuesNumber (c : Char) : Bool :=
  c.isDigit || c = '-' || c = '+' || c = '.' || c = 'e' || c = 'E'

-- The character that a backslash and the given one stand for.
def unescape? : Char → Option Char
  | '"' => some '"'
  | '\\' => some '\\'
  | '/' => some '/'
  | 'b' => some '\x08'
  | 'f' => some '\x0c'
  | 'n' => some '\n'
  | 'r' => some '\r'
  | 't' => some '\t'
  | _ => none

end Lexeme

-- Lexemes that are complete, newest first, and what is not.
structure Lexer where
  done : List Lexeme := []
  pending : Pending := .nothing

namespace Lexer

def emit (l : Lexer) (x : Lexeme) : Lexer :=
  ⟨x :: l.done, .nothing⟩

-- Completes the word or number that ends here.
def flush? (l : Lexer) : Option Lexer :=
  match l.pending with
  | .nothing => some l
  | .word letters => (Lexeme.ofWord? letters.reverse).map l.emit
  | .number chars => (Number.ofText? chars.reverse).map fun n => l.emit (.number n)
  | _ => none

-- Reads a byte with which a lexeme starts, or white space.
def start? (l : Lexer) (c : Char) : Option Lexer :=
  match c with
  | ' ' | '\t' | '\n' | '\r' => some l
  | '[' => some (l.emit .openArray)
  | ']' => some (l.emit .closeArray)
  | '\x7b' => some (l.emit .openObject)
  | '\x7d' => some (l.emit .closeObject)
  | ',' => some (l.emit .comma)
  | ':' => some (l.emit .colon)
  | '"' => some { l with pending := .text [] }
  | _ =>
    if c.isDigit || c = '-' then some { l with pending := .number [c] }
    else if Lexeme.continuesWord c then some { l with pending := .word [c] }
    else none

def textStep? (l : Lexer) (marks : List Mark) (b : UInt8) : Option Lexer :=
  match Char.ofUInt8 b with
  | '"' => some (l.emit (.text marks.reverse))
  | '\\' => some { l with pending := .escape marks }
  | _ => if b < 0x20 then none else some { l with pending := .text (.byte b :: marks) }

def escapeStep? (l : Lexer) (marks : List Mark) (c : Char) : Option Lexer :=
  if c = 'u' then
    some { l with pending := .unit marks 0 0 }
  else
    (Lexeme.unescape? c).map fun e => { l with pending := .text (.byte e.toUInt8 :: marks) }

def unitStep? (l : Lexer) (marks : List Mark) (value count : Nat) (c : Char) : Option Lexer :=
  (digit? 16 c).map fun d =>
    let value := value * 16 + d
    if count = 3 then
      { l with pending := .text (.unit value :: marks) }
    else
      { l with pending := .unit marks value (count + 1) }

def step? (l : Lexer) (b : UInt8) : Option Lexer :=
  let c := Char.ofUInt8 b
  match l.pending with
  | .nothing => l.start? c
  -- Words and numbers have no end of their own: the byte behind them is read a second time.
  | .word letters =>
    if Lexeme.continuesWord c then some { l with pending := .word (c :: letters) }
    else l.flush?.bind (·.start? c)
  | .number chars =>
    if Lexeme.continuesNumber c then some { l with pending := .number (c :: chars) }
    else l.flush?.bind (·.start? c)
  | .text marks => l.textStep? marks b
  | .escape marks => l.escapeStep? marks c
  | .unit marks value count => l.unitStep? marks value count c

def run? (l : Lexer) (text : List UInt8) : Option Lexer :=
  text.foldlM step? l

end Lexer

def lexemes? (text : List UInt8) : Option (List Lexeme) :=
  (Lexer.run? {} text).bind fun l => l.flush?.map (·.done.reverse)

end Abacus.Json
