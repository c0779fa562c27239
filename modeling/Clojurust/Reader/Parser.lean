import Clojurust.Reader.Lexer

/-!
# Parser

The parser of `crates/cljrs-reader/src/parser.rs`: a lexer with one token of lookahead, and a
function for each construct that recurs through `parse_raw`.

* `Form` — a parsed form and its place in the source;
* `Parser`, `Parse` — the state, and computations on it;
* `parseRaw` — the next form, or nothing for a discarded one;
* `parseOne`, `parseAll`.

The loops and the recursion take a number of rounds and fail with `diverged` when it is used up;
`rounds` is what the public functions start with.
-/

namespace Clojurust.Reader

/-! ## Forms -/

mutual

inductive FormKind where
  | nil
  | bool (b : Bool)
  | int (n : Int64)
  | bigInt (s : String)
  | float (x : F64)
  | bigDecimal (s : String)
  | ratio (s : String)
  | char (c : Char)
  | str (s : String)
  | regex (s : String)
  | symbolic (x : F64)
  | symbol (s : String)
  | keyword (s : String)
  | autoKeyword (s : String)
  | list (forms : List Form)
  | vector (forms : List Form)
  | map (forms : List Form)
  | set (forms : List Form)
  | quote (form : Form)
  | syntaxQuote (form : Form)
  | unquote (form : Form)
  | unquoteSplice (form : Form)
  | deref (form : Form)
  | var (form : Form)
  | metadata (data form : Form)
  | anonFn (forms : List Form)
  | taggedLiteral (tag : String) (form : Form)
  | readerCond (splicing : Bool) (clauses : List Form)

inductive Form where
  | mk (kind : FormKind) (span : Span)

end

def Form.kind : Form → FormKind
  | mk kind _ => kind

def Form.span : Form → Span
  | mk _ span => span

/-! ## Lookahead -/

structure Parser where
  lexer : Lexer
  peeked : Option (Token × Span)

def Parser.new (source : List Char) : Parser := ⟨.new source, none⟩

abbrev Parse := EStateM Raised Parser

variable (p : Platform)

/-- The lookahead is filled with the next token. -/
def fill : Parse Unit := fun s =>
  match s.peeked with
  | some _ => .ok () s
  | none =>
    match nextToken p s.lexer with
    | .ok pair l => .ok () ⟨l, some pair⟩
    | .error e l => .error e ⟨l, none⟩

/-- The token of the lookahead and its span. -/
def peekPair : Parse (Token × Span) := do
  fill p
  match (← get).peeked with
  | some pair => return pair
  | none => throw (.panic "called `Option::unwrap()` on a `None` value")

def peekTok : Parse Token := do return (← peekPair p).1

def peekSpan : Parse Span := do return (← peekPair p).2

def bump : Parse (Token × Span) := do
  let pair ← peekPair p
  modify fun s => { s with peeked := none }
  return pair

/-- `make_error`. -/
def parseError {α : Type} (message : String) (span : Span) : Parse α :=
  throw (.error ⟨message, span⟩)

def mergedSpan (start stop : Span) : Span := ⟨start.start, stop.stop, start.line, start.col⟩

/-! ## Loops over forms -/

section Loops

variable (raw : Parse (Option Form))

/-- The loop of `parse_seq_forms`, with the forms that have been read; `raw` reads the next one. -/
def parseSeqForms (closing : Token) (openSpan : Span) (name : String) :
    Nat → List Form → Parse (List Form × Span)
  | 0, _ => throw .diverged
  | n + 1, forms => do
    let tok ← peekTok p
    if tok = .eof then parseError ("unclosed " ++ name) openSpan
    else if tok = closing then
      let (_, closeSpan) ← bump p
      return (forms, closeSpan)
    else
      match (← raw) with
      | some form => parseSeqForms closing openSpan name n (forms ++ [form])
      | none => parseSeqForms closing openSpan name n forms

/-- The loop of `require_form`. -/
def requireForm (macroSpan : Span) (what : String) : Nat → Parse Form
  | 0 => throw .diverged
  | n + 1 => do
    if (← peekTok p) = .eof then
      parseError ("unexpected end of file; expected " ++ what) macroSpan
    else
      match (← raw) with
      | some form => return form
      | none => requireForm macroSpan what n

/-- A collection up to its closing delimiter. -/
def parseCollection (n : Nat) (closing : Token) (name : String) (span : Span)
    (kind : List Form → FormKind) : Parse (Option Form) := do
  let _ ← bump p
  let (forms, close) ← parseSeqForms p raw closing span name n []
  return some (.mk (kind forms) (mergedSpan span close))

def isSplice : Form → Bool
  | .mk (.readerCond true _) _ => true
  | _ => false

/-- A map literal; splicing reader conditionals defer the evenness check. -/
def parseMap (n : Nat) (span : Span) : Parse (Option Form) := do
  let _ ← bump p
  let (forms, close) ← parseSeqForms p raw .rBrace span "map" n []
  if ¬ forms.any isSplice ∧ forms.length % 2 ≠ 0 then
    parseError "map literal must have an even number of forms" span
  else return some (.mk (.map forms) (mergedSpan span close))

/-- A reader macro in front of a form. -/
def parseWrapped (n : Nat) (what : String) (span : Span) (kind : Form → FormKind) :
    Parse (Option Form) := do
  let _ ← bump p
  let inner ← requireForm p raw span what n
  return some (.mk (kind inner) (mergedSpan span inner.span))

def parseMeta (n : Nat) (span : Span) : Parse (Option Form) := do
  let _ ← bump p
  let data ← requireForm p raw span "meta form" n
  let target ← requireForm p raw span "annotated form" n
  return some (.mk (.metadata data target) (mergedSpan span target.span))

/-- `#_`: the next form is read and dropped. -/
def parseDiscard (span : Span) : Parse (Option Form) := do
  let _ ← bump p
  if (← peekTok p) = .eof then parseError "unexpected end of file after #_" span
  else
    let _ ← raw
    return none

def parseReaderCond (n : Nat) (splicing : Bool) (start : Span) : Parse (Option Form) := do
  let _ ← bump p
  let next ← peekTok p
  if next ≠ .lParen then
    parseError "reader conditional requires `(` immediately after `#?`" (← peekSpan p)
  else
    let (_, openSpan) ← bump p
    let (clauses, closeSpan) ← parseSeqForms p raw .rParen openSpan "reader conditional" n []
    if clauses.length % 2 ≠ 0 then
      parseError "reader conditional must have an even number of clauses" openSpan
    else return some (.mk (.readerCond splicing clauses) (mergedSpan start closeSpan))

end Loops

/-! ## Forms -/

/-- The value of a symbolic float; the lexer has checked the name. -/
def symbolicValue : String → Option F64
  | "Inf" => some ⟨0x7FF0000000000000⟩
  | "-Inf" => some ⟨0xFFF0000000000000⟩
  | "NaN" => some ⟨0x7FF8000000000000⟩
  | _ => none

/-- A form of one token. -/
def parseAtom (kind : FormKind) (span : Span) : Parse (Option Form) := do
  let _ ← bump p
  return some (.mk kind span)

/-- The next form, `none` for a discarded form and at the end of the text. -/
def parseRaw : Nat → Parse (Option Form)
  | 0 => throw .diverged
  | n + 1 => do
    let tok ← peekTok p
    let span ← peekSpan p
    match tok with
    | .eof => return none
    | .rParen | .rBracket | .rBrace =>
      let _ ← bump p
      parseError "unexpected closing delimiter" span
    | .nil => parseAtom p .nil span
    | .bool b => parseAtom p (.bool b) span
    | .int i => parseAtom p (.int i) span
    | .bigInt s => parseAtom p (.bigInt s) span
    | .float x => parseAtom p (.float x) span
    | .bigDecimal s => parseAtom p (.bigDecimal s) span
    | .ratio s => parseAtom p (.ratio s) span
    | .char c => parseAtom p (.char c) span
    | .str s => parseAtom p (.str s) span
    | .regex s => parseAtom p (.regex s) span
    | .symbolic s =>
      match symbolicValue s with
      | some x => parseAtom p (.symbolic x) span
      | none =>
        let _ ← bump p
        throw (.panic "lexer guarantees only Inf/-Inf/NaN")
    | .symbol s => parseAtom p (.symbol s) span
    | .keyword s => parseAtom p (.keyword s) span
    | .autoKeyword s => parseAtom p (.autoKeyword s) span
    | .lParen => parseCollection p (parseRaw n) n .rParen "list" span .list
    | .lBracket => parseCollection p (parseRaw n) n .rBracket "vector" span .vector
    | .lBrace => parseMap p (parseRaw n) n span
    | .hashSet => parseCollection p (parseRaw n) n .rBrace "set" span .set
    | .hashFn => parseCollection p (parseRaw n) n .rParen "anonymous function" span .anonFn
    | .quote => parseWrapped p (parseRaw n) n "quoted form" span .quote
    | .syntaxQuote => parseWrapped p (parseRaw n) n "syntax-quoted form" span .syntaxQuote
    | .unquote => parseWrapped p (parseRaw n) n "unquoted form" span .unquote
    | .unquoteSplice => parseWrapped p (parseRaw n) n "unquote-spliced form" span .unquoteSplice
    | .deref => parseWrapped p (parseRaw n) n "deref form" span .deref
    | .hashVar => parseWrapped p (parseRaw n) n "var form" span .var
    | .metadata => parseMeta p (parseRaw n) n span
    | .hashDiscard => parseDiscard p (parseRaw n) span
    | .readerCond => parseReaderCond p (parseRaw n) n false span
    | .readerCondSplice => parseReaderCond p (parseRaw n) n true span
    | .taggedLiteral tag =>
      parseWrapped p (parseRaw n) n "tagged literal value" span (.taggedLiteral tag)

/-- The bytes that no form has consumed yet, the lookahead's included. -/
def Parser.unread (s : Parser) : Nat :=
  utf8Len s.lexer.rest +
    match s.peeked with
    | some (_, span) => s.lexer.pos - span.start
    | none => 0

/-- One round for each byte, and one for the end of the text. -/
def Parser.rounds (s : Parser) : Nat := s.unread + 1

/-- The loop of `parse_one`. -/
def parseOneLoop (raw : Parse (Option Form)) : Nat → Parse (Option Form)
  | 0 => throw .diverged
  | n + 1 => do
    if (← peekTok p) = .eof then return none
    else
      match (← raw) with
      | some form => return some form
      | none => parseOneLoop raw n

def parseOne : Parse (Option Form) := do
  let n := (← get).rounds
  parseOneLoop p (parseRaw p n) n

/-- The loop of `parse_all`. -/
def parseAllLoop : Nat → List Form → Parse (List Form)
  | 0, _ => throw .diverged
  | n + 1, forms => do
    match (← parseOne p) with
    | some form => parseAllLoop n (forms ++ [form])
    | none => return forms

def parseAll : Parse (List Form) := do
  parseAllLoop p (← get).rounds []

end Clojurust.Reader
