import Clojurust.Lib.Float64
import Clojurust.Lib.StateExcept

/-!
# Lexer

The lexer of `crates/cljrs-reader/src/lexer.rs`. A lexer holds the text it has not read yet and the
position of its first character; `next_token` reads a token off the front, fails with a read error
or panics, and in each case leaves the lexer where it stopped.

* `Platform` — what the standard library does with characters and floats, and whether the build has
  overflow checks;
* `Lexer`, `Lex` — the state, and computations on it;
* `lexString`, `lexCharLiteral`, `lexNumber`, … — one function for each kind of token;
* `Lead` — the kind of token a character starts, `nextToken`.

The name of the file and the source text that errors carry for diagnostics are left out.
-/

namespace Clojurust.Reader

/-- A property of the characters in a list is decided on the list, also where there is an instance
that enumerates all characters. -/
instance (priority := 2000) decidableForallMemChar (l : List Char) (p : Char → Prop)
    [DecidablePred p] : Decidable (∀ c ∈ l, p c) := List.decidableBAll p l

/-! ## Tokens and errors -/

inductive Token where
  | nil
  | bool (b : Bool)
  | int (n : Int64)
  | bigInt (s : String)
  | float (x : F64)
  | bigDecimal (s : String)
  | ratio (s : String)
  | char (c : Char)
  | str (s : String)
  | symbol (s : String)
  | keyword (s : String)
  | autoKeyword (s : String)
  | lParen
  | rParen
  | lBracket
  | rBracket
  | lBrace
  | rBrace
  | quote
  | syntaxQuote
  | unquote
  | unquoteSplice
  | deref
  | metadata
  | hashFn
  | hashSet
  | hashVar
  | hashDiscard
  | regex (s : String)
  | readerCond
  | readerCondSplice
  | symbolic (s : String)
  | taggedLiteral (s : String)
  | eof
  deriving DecidableEq

/-- Byte offsets of a piece of the source, and the line and column it starts at. -/
structure Span where
  start : Nat
  stop : Nat
  line : Nat
  col : Nat
  deriving DecidableEq

structure ReadError where
  message : String
  span : Span
  deriving DecidableEq

/-- A read error or a panic; `diverged` stands for a loop that has not come to its end in the rounds
the model gives it. -/
inductive Raised where
  | error (e : ReadError)
  | panic (message : String)
  | diverged
  deriving DecidableEq

structure Platform where
  /-- Arithmetic overflow panics. -/
  checks : Bool
  /-- `char::is_alphanumeric`. -/
  isAlphanumeric : Char → Bool
  isAlphanumeric_ascii : ∀ c : Char, c.toNat < 128 → isAlphanumeric c = c.isAlphanum
  /-- A character formatted by its `Debug` instance. -/
  debugChar : Char → String
  /-- `str::parse::<f64>`. -/
  parseF64 : String → Option F64

/-! ## Characters -/

def backtick : Char := Char.ofNat 96

/-- The characters that end a symbol. -/
def delimiters : List Char :=
  [' ', '\t', '\n', '\r', ',', '(', ')', '[', ']', '{', '}', '"', ';', backtick, '~', '^', '@', '\\']

def isSymbolChar (c : Char) : Bool := !delimiters.contains c

def isSymbolStart (c : Char) : Bool := isSymbolChar c && !c.isDigit && c != '#' && c != ':'

def isHexDigit (c : Char) : Bool :=
  c.isDigit || ('a' ≤ c && c ≤ 'f') || ('A' ≤ c && c ≤ 'F')

/-- The value of an ASCII letter or digit as a digit. -/
def digitValue (c : Char) : Nat :=
  if c.isDigit then c.toNat - 48
  else if 'a' ≤ c ∧ c ≤ 'z' then c.toNat - 87
  else if 'A' ≤ c ∧ c ≤ 'Z' then c.toNat - 55
  else 36

/-- `char::to_digit` for a radix it accepts. -/
def toDigit (c : Char) (radix : Nat) : Option Nat :=
  if digitValue c < radix then some (digitValue c) else none

/-- The number that digits denote, the most significant first. -/
def ofDigits (radix : Nat) (digits : List Char) : Nat :=
  digits.foldl (fun n c => n * radix + digitValue c) 0

/-- The length of a text in bytes. -/
def utf8Len (cs : List Char) : Nat := (cs.map Char.utf8Size).sum

/-- The text cut at a byte offset, if that is the boundary of a character. -/
def splitBytes : Nat → List Char → Option (List Char × List Char)
  | 0, cs => some ([], cs)
  | _ + 1, [] => none
  | n + 1, c :: cs =>
    if c.utf8Size ≤ n + 1 then
      (splitBytes (n + 1 - c.utf8Size) cs).map fun (front, back) => (c :: front, back)
    else none

/-! ## Reading characters -/

/-- The text from the current position on, the byte offset of the position, its line and its column;
`line` and `col` are counters of 32 bits. -/
structure Lexer where
  rest : List Char
  pos : Nat
  line : Nat
  col : Nat
  deriving DecidableEq

def Lexer.new (source : List Char) : Lexer := ⟨source, 0, 1, 1⟩

abbrev Lex := EStateM Raised Lexer

def peek : Lex (Option Char) := do return (← get).rest.head?

def peekNext : Lex (Option Char) := do return (← get).rest[1]?

def spanFrom (start : Lexer) : Lex Span := do
  return ⟨start.pos, (← get).pos, start.line, start.col⟩

/-- `make_error` for a token that starts at `start`. -/
def readError {α : Type} (start : Lexer) (message : String) : Lex α := do
  throw (.error ⟨message, ← spanFrom start⟩)

variable (p : Platform)

/-- Addition on `u32`. -/
def addU32 (a b : Nat) : Lex Nat :=
  if a + b < 2 ^ 32 then pure (a + b)
  else if p.checks then throw (.panic "attempt to add with overflow")
  else pure ((a + b) % 2 ^ 32)

def advance : Lex (Option Char) := do
  let l ← get
  match l.rest with
  | [] => return none
  | c :: rest =>
    if c = '\n' then
      let line ← addU32 p l.line 1
      set (⟨rest, l.pos + c.utf8Size, line, 1⟩ : Lexer)
    else
      let col ← addU32 p l.col c.utf8Size
      set (⟨rest, l.pos + c.utf8Size, l.line, col⟩ : Lexer)
    return some c

/-- One `advance` for each character. -/
def advanceOver : List Char → Lex Unit
  | [] => pure ()
  | _ :: cs => do
    let _ ← advance p
    advanceOver cs

/-- The loop that collects and consumes characters as long as `peek` shows one of some kind. -/
def advanceWhile (kind : Char → Bool) : Lex (List Char) := do
  let run := (← get).rest.takeWhile kind
  advanceOver p run
  return run

def readSymbolChars : Lex String := do
  return String.ofList (← advanceWhile p isSymbolChar)

/-- The loop that consumes characters up to and with a newline. -/
def skipLine : Lex Unit := do
  let _ ← advanceWhile p (· != '\n')
  let _ ← advance p

/-- The loop of `skip_whitespace_and_comments`, for a number of rounds. -/
def skipLoop : Nat → Lex Unit
  | 0 => throw .diverged
  | n + 1 => do
    match (← peek) with
    | none => pure ()
    | some c =>
      if c = '#' then
        -- a shebang is only recognised at the very start
        if (← get).pos = 0 ∧ (← peekNext) = some '!' then
          skipLine p
          skipLoop n
        else pure ()
      else if [' ', '\t', '\r', '\n', ','].contains c then
        let _ ← advance p
        skipLoop n
      else if c = ';' then
        skipLine p
        skipLoop n
      else pure ()

def skipWhitespaceAndComments : Lex Unit := do
  skipLoop p ((← get).rest.length + 1)

/-! ## Reader macros -/

def lexUnquote : Lex Token := do
  let _ ← advance p
  if (← peek) = some '@' then
    let _ ← advance p
    return .unquoteSplice
  else return .unquote

/-- The loop of `lex_regex`; escapes are kept as they are. -/
def regexLoop (start : Lexer) : Nat → List Char → Lex Token
  | 0, _ => throw .diverged
  | n + 1, buf => do
    match (← advance p) with
    | none => readError start "unterminated regex literal"
    | some c =>
      if c = '"' then return .regex (String.ofList buf)
      else if c = '\\' then
        match (← advance p) with
        | some c => regexLoop start n (buf ++ ['\\', c])
        | none => readError start "unterminated regex literal"
      else regexLoop start n (buf ++ [c])

def lexRegex (start : Lexer) : Lex Token := do
  let _ ← advance p
  regexLoop p start ((← get).rest.length + 1) []

def lexSymbolic (start : Lexer) : Lex Token := do
  let _ ← advance p
  let name ← readSymbolChars p
  if name = "Inf" ∨ name = "-Inf" ∨ name = "NaN" then return .symbolic name
  else readError start ("unknown symbolic value: ##" ++ name)

/-- An optional character formatted by its `Debug` instance. -/
def debugOption (c : Option Char) : String :=
  match c with
  | none => "None"
  | some c => "Some(" ++ p.debugChar c ++ ")"

/-- A token that ends with the current character. -/
def closeWith (token : Token) : Lex Token := do
  let _ ← advance p
  return token

/-- What follows the `#` decides. -/
def lexDispatch (start : Lexer) : Option Char → Lex Token
  | some '(' => closeWith p .hashFn
  | some '{' => closeWith p .hashSet
  | some '\'' => closeWith p .hashVar
  | some '_' => closeWith p .hashDiscard
  | some '"' => lexRegex p start
  | some '?' => do
    let _ ← advance p
    if (← peek) = some '@' then closeWith p .readerCondSplice else return .readerCond
  | some '#' => lexSymbolic p start
  | other => do
    if other.any isSymbolStart then return .taggedLiteral (← readSymbolChars p)
    else readError start ("unknown # dispatch character: " ++ debugOption p other)

def lexHash (start : Lexer) : Lex Token := do
  let _ ← advance p
  lexDispatch p start (← peek)

/-! ## Strings and characters -/

/-- Exactly four hexadecimal digits, most significant first; `n` are still missing. -/
def unicodeLoop (start : Lexer) : Nat → List Char → Lex (List Char)
  | 0, hex => return hex
  | n + 1, hex => do
    match (← advance p) with
    | some c =>
      if isHexDigit c then unicodeLoop start n (hex ++ [c])
      else readError start ("invalid \\u escape: expected hex digit, got " ++ p.debugChar c)
    | none => readError start "unterminated \\u escape"

/-- `char::from_u32`. -/
def charFromU32 (code : Nat) : Option Char :=
  if code.isValidChar then some (Char.ofNat code) else none

def readUnicodeEscape (start : Lexer) : Lex Char := do
  let hex ← unicodeLoop p start 4 []
  match charFromU32 (ofDigits 16 hex) with
  | some c => return c
  | none => readError start ("invalid unicode code point: \\u" ++ String.ofList hex)

/-- The character a one-letter escape stands for. -/
def unescape : Char → Option Char
  | 'n' => some '\n'
  | 't' => some '\t'
  | 'r' => some '\r'
  | 'b' => some (Char.ofNat 8)
  | 'f' => some (Char.ofNat 12)
  | '\\' => some '\\'
  | '"' => some '"'
  | _ => none

def stringLoop (start : Lexer) : Nat → List Char → Lex Token
  | 0, _ => throw .diverged
  | n + 1, buf => do
    match (← advance p) with
    | none => readError start "unterminated string literal"
    | some c =>
      if c = '"' then return .str (String.ofList buf)
      else if c = '\\' then
        match (← advance p) with
        | none => readError start "unterminated string literal"
        | some e =>
          match unescape e with
          | some c => stringLoop start n (buf ++ [c])
          | none =>
            if e = 'u' then
              let c ← readUnicodeEscape p start
              stringLoop start n (buf ++ [c])
            else readError start ("unknown string escape: \\" ++ String.singleton e)
      else stringLoop start n (buf ++ [c])

def lexString (start : Lexer) : Lex Token := do
  let _ ← advance p
  stringLoop p start ((← get).rest.length + 1) []

/-- The position and the column are moved by some bytes. The text is cut there, which panics inside
a character. -/
def jump (bytes : Nat) : Lex Unit := do
  let l ← get
  match splitBytes bytes l.rest with
  | none => throw (.panic "byte index is not a char boundary")
  | some (_, rest) =>
    let col ← addU32 p l.col (bytes % 2 ^ 32)
    set (⟨rest, l.pos + bytes, l.line, col⟩ : Lexer)

/-- The character with a name. -/
def namedChar : String → Option Char
  | "newline" => some '\n'
  | "space" => some ' '
  | "tab" => some '\t'
  | "backspace" => some (Char.ofNat 8)
  | "formfeed" => some (Char.ofNat 12)
  | "return" => some '\r'
  | _ => none

def isOctalDigit (c : Char) : Bool := '0' ≤ c && c ≤ '7'

/-- `o` and one to three octal digits. -/
def isOctalName : List Char → Bool
  | 'o' :: digits => 1 ≤ digits.length && digits.length ≤ 3 && digits.all isOctalDigit
  | _ => false

def lexOctalChar (start : Lexer) (name : List Char) : Lex Token := do
  let code := ofDigits 8 name.tail
  if 0o377 < code then readError start ("octal char literal out of range: \\" ++ String.ofList name)
  else
    jump p (utf8Len name)
    return .char (Char.ofNat code)

/-- `u` and at least four more bytes: the bytes 1 to 5 are sliced off the name. -/
def lexUnicodeChar (start : Lexer) (name : List Char) : Lex Token := do
  match splitBytes 4 name.tail with
  | none => throw (.panic "byte index 5 is not a char boundary")
  | some (hex, _) =>
    if hex.all isHexDigit then
      match charFromU32 (ofDigits 16 hex) with
      | some c =>
        jump p 5
        return .char c
      | none =>
        readError start ("invalid unicode code point in char literal: \\u" ++ String.ofList hex)
    else readError start ("unknown character name: " ++ String.ofList name)

/-- The first character of the text, whatever it is. -/
def lexFirstChar (start : Lexer) : Lex Token := do
  match (← peek) with
  | some c =>
    jump p c.utf8Size
    return .char c
  | none => readError start "unexpected end of file after \\"

def lexCharLiteral (start : Lexer) : Lex Token := do
  let _ ← advance p
  let name := (← get).rest.takeWhile (fun c => p.isAlphanumeric c || c == '-')
  match namedChar (String.ofList name) with
  | some c =>
    jump p (utf8Len name)
    return .char c
  | none =>
    if isOctalName name then lexOctalChar p start name
    else if name.head? = some 'u' ∧ 5 ≤ utf8Len name then lexUnicodeChar p start name
    else if utf8Len name = 1 ∨ name.isEmpty then lexFirstChar p start
    else readError start ("unknown character name: " ++ String.ofList name)

/-! ## Keywords and symbols -/

/-- The name of a keyword, which must not be empty. -/
def lexKeywordName (start : Lexer) (message : String) (token : String → Token) : Lex Token := do
  let name ← readSymbolChars p
  if name.isEmpty then readError start message
  else return token name

def lexKeyword (start : Lexer) : Lex Token := do
  let _ ← advance p
  if (← peek) = some ':' then
    let _ ← advance p
    lexKeywordName p start "empty auto-resolved keyword" .autoKeyword
  else lexKeywordName p start "empty keyword" .keyword

/-- The 7 to 40 hexadecimal digits after the `@` that is next, if no further digit follows. -/
def peekVersionHash (rest : List Char) : Option (List Char) :=
  let hash := (rest.tail.take 40).takeWhile isHexDigit
  if 7 ≤ hash.length ∧ !(rest.tail.drop hash.length).head?.any isHexDigit then some hash else none

/-- `nil`, `true` and `false` are no symbols. -/
def symbolToken (name : String) : Token :=
  if name = "nil" then .nil
  else if name = "true" then .bool true
  else if name = "false" then .bool false
  else .symbol name

def lexSymbol : Lex Token := do
  let name ← readSymbolChars p
  if (← peek) = some '@' then
    match peekVersionHash (← get).rest with
    | some hash =>
      let _ ← advance p
      advanceOver p hash
      return symbolToken (name ++ "@" ++ String.ofList hash)
    | none => return symbolToken name
  else return symbolToken name

/-! ## Numbers -/

def u128Max : Nat := 2 ^ 128 - 1

/-- `value as i64`. -/
def asI64 (value : Nat) : Int64 := Int64.ofNat value

/-- A sign in front of digits. -/
def signed (negative : Bool) (digits : String) : String :=
  if negative then "-" ++ digits else digits

/-- A `Long` if the number fits, and otherwise its digits. -/
def integerToken (negative : Bool) (value : Nat) (digits : String) : Token :=
  if negative then
    if value ≤ 2 ^ 63 then .int (0 - asI64 value) else .bigInt (signed true digits)
  else if value < 2 ^ 63 then .int (asI64 value)
  else .bigInt digits

def lexHex (start : Lexer) (negative : Bool) : Lex Token := do
  let _ ← advance p
  let hex ← advanceWhile p isHexDigit
  if hex.isEmpty then readError start "expected hex digits after 0x"
  else
    let value := if ofDigits 16 hex ≤ u128Max then ofDigits 16 hex else u128Max
    return integerToken negative value (Nat.repr value)

/-- The loop over the digits of a radix literal, in wrapping arithmetic on `u128`. -/
def radixLoop (start : Lexer) (radix : Nat) : List Char → Nat → Lex Nat
  | [], value => return value
  | c :: digits, value => do
    if radix < 2 ∨ 36 < radix then
      throw (.panic "to_digit: invalid radix -- radix must be in the range 2 to 36 inclusive")
    else
      match toDigit c radix with
      | none => readError start (s!"invalid digit {p.debugChar c} for radix {radix}")
      | some d => radixLoop start radix digits ((value * radix % 2 ^ 128 + d) % 2 ^ 128)

/-- Negation on `i64`. -/
def negI64 (n : Int64) : Lex Int64 :=
  if n = Int64.minValue then
    if p.checks then throw (.panic "attempt to negate with overflow") else pure n
  else pure (-n)

/-- The token of a radix literal with some value. -/
def radixToken (negative : Bool) (value : Nat) : Lex Token := do
  if negative ∧ value ≤ 2 ^ 63 then return .int (← negI64 p (asI64 value))
  else return integerToken negative value (Nat.repr value)

def lexRadix (start : Lexer) (negative : Bool) (intPart : List Char) : Lex Token := do
  let radix := if ofDigits 10 intPart < 2 ^ 32 then ofDigits 10 intPart else 0
  let _ ← advance p
  let digits ← advanceWhile p Char.isAlphanum
  let value ← radixLoop p start radix digits 0
  radixToken p negative value

def lexOctal (start : Lexer) (negative : Bool) (intPart : List Char) : Lex Token := do
  if intPart.any (fun c => c = '8' ∨ c = '9') then
    readError start ("invalid octal number: " ++ signed negative (String.ofList intPart))
  else
    let value := if ofDigits 8 intPart < 2 ^ 63 then ofDigits 8 intPart else 0
    return .int (if negative then -(asI64 value) else asI64 value)

/-- The fraction of a float, with its digits so far in front. -/
def lexFraction (raw : String) : Lex String := do
  if (← peek) = some '.' then
    let _ ← advance p
    return raw ++ "." ++ String.ofList (← advanceWhile p Char.isDigit)
  else return raw

/-- The sign of an exponent. -/
def lexExponentSign : Lex String := do
  let next ← peek
  if next = some '+' ∨ next = some '-' then
    let _ ← advance p
    return String.ofList next.toList
  else return ""

/-- The exponent of a float, with its digits so far in front. -/
def lexExponent (raw : String) : Lex String := do
  let next ← peek
  if next = some 'e' ∨ next = some 'E' then
    let _ ← advance p
    let sign ← lexExponentSign p
    return raw ++ "e" ++ sign ++ String.ofList (← advanceWhile p Char.isDigit)
  else return raw

/-- What follows the digits of a float: a fraction, an exponent, the suffix of a decimal. -/
def lexFloat (start : Lexer) (raw : String) : Lex Token := do
  let raw ← lexFraction p raw
  let raw ← lexExponent p raw
  if (← peek) = some 'M' then closeWith p (.bigDecimal raw)
  else
    match p.parseF64 raw with
    | some x => return .float x
    | none => readError start ("invalid float: " ++ raw)

/-- The sign in front of a number is consumed. -/
def lexSign : Lex Bool := do
  let next ← peek
  if next = some '-' then
    let _ ← advance p
    return true
  else if next = some '+' then
    let _ ← advance p
    return false
  else return false

/-- What follows the leading digits of a number decides what it is. -/
def lexAfterDigits (start : Lexer) (negative : Bool) (intPart : List Char) : Lex Token := do
  let raw := signed negative (String.ofList intPart)
  let next ← peek
  if intPart = ['0'] ∧ (next = some 'x' ∨ next = some 'X') then lexHex p start negative
  else if next = some 'r' ∨ next = some 'R' then lexRadix p start negative intPart
  else if 1 < intPart.length ∧ intPart.head? = some '0' ∧
      !next.any ['.', 'e', 'E', 'N', 'M', '/'].contains then
    lexOctal start negative intPart
  else if next = some 'N' then closeWith p (.bigInt raw)
  else if next = some 'M' then closeWith p (.bigDecimal raw)
  else if next.any ['.', 'e', 'E'].contains then lexFloat p start raw
  else if next = some '/' ∧ (← peekNext).any Char.isDigit then
    let _ ← advance p
    return .ratio (raw ++ "/" ++ String.ofList (← advanceWhile p Char.isDigit))
  else return integerToken negative (ofDigits 10 intPart) (String.ofList intPart)

def lexNumber (start : Lexer) : Lex Token := do
  let negative ← lexSign p
  let intPart ← advanceWhile p Char.isDigit
  lexAfterDigits p start negative intPart

/-! ## Dispatch -/

/-- The kind of token that a character starts. -/
inductive Lead where
  | punctuation (token : Token)
  | unquote
  | hash
  | string
  | charLiteral
  | keyword
  | number
  | symbol
  | unexpected
  deriving DecidableEq

def punctuation : List (Char × Token) :=
  [('(', .lParen), (')', .rParen), ('[', .lBracket), (']', .rBracket), ('{', .lBrace),
    ('}', .rBrace), ('\'', .quote), (backtick, .syntaxQuote), ('@', .deref), ('^', .metadata)]

/-- The kind of token of a character with another one after it. -/
def lead (c : Char) (next : Option Char) : Lead :=
  match punctuation.lookup c with
  | some token => .punctuation token
  | none =>
    if c = '~' then .unquote
    else if c = '#' then .hash
    else if c = '"' then .string
    else if c = '\\' then .charLiteral
    else if c = ':' then .keyword
    else if c.isDigit then .number
    else if (c = '+' ∨ c = '-') ∧ next.any Char.isDigit then .number
    else if isSymbolStart c then .symbol
    else .unexpected

def lexLead (start : Lexer) (c : Char) : Lead → Lex Token
  | .punctuation token => closeWith p token
  | .unquote => lexUnquote p
  | .hash => lexHash p start
  | .string => lexString p start
  | .charLiteral => lexCharLiteral p start
  | .keyword => lexKeyword p start
  | .number => lexNumber p start
  | .symbol => lexSymbol p
  | .unexpected => do
    let _ ← advance p
    readError start ("unexpected character: " ++ p.debugChar c)

def nextToken : Lex (Token × Span) := do
  skipWhitespaceAndComments p
  let start ← get
  match start.rest with
  | [] => return (.eof, ← spanFrom start)
  | c :: rest =>
    let token ← lexLead p start c (lead c rest.head?)
    return (token, ← spanFrom start)

end Clojurust.Reader
