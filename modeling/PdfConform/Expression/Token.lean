import PdfConform.Text.Quoted
import PdfConform.Version

/-! The tokens shared by the expression columns. Blanks separate tokens and are
otherwise skipped. A run of digits glued to other word characters is a word, and
two points always make a range, even inside what would be a word. -/
namespace PdfConform

inductive Token
  | leftBracket
  | rightBracket
  | leftParen
  | rightParen
  | comma
  | at
  | bang
  | andAnd
  | orOr
  | equal
  | notEqual
  | less
  | lessEqual
  | greater
  | greaterEqual
  | dots
  | number (text : String)
  | word (text : String)
  | quoted (text : String)
  deriving DecidableEq

namespace Token

def label : Token → String
  | .leftBracket => "LBracket"
  | .rightBracket => "RBracket"
  | .leftParen => "LParen"
  | .rightParen => "RParen"
  | .comma => "Comma"
  | .at => "At"
  | .bang => "Bang"
  | .andAnd => "AndAnd"
  | .orOr => "OrOr"
  | .equal => "EqEq"
  | .notEqual => "NotEq"
  | .less => "Lt"
  | .lessEqual => "Le"
  | .greater => "Gt"
  | .greaterEqual => "Ge"
  | .dots => "DotDot"
  | .number s => "Number(" ++ Text.quoted s ++ ")"
  | .word s => "Word(" ++ Text.quoted s ++ ")"
  | .quoted s => "Quoted(" ++ Text.quoted s ++ ")"

/-- The next token of an expression in a message, or the end of it. -/
def found : Option Token → String
  | none => "None"
  | some t => "Some(" ++ t.label ++ ")"

end Token

/-- Why a text is no expression of the column that holds it. -/
inductive Expression.Cause
  | unterminatedQuote
  | unexpectedCharacter (c : Char)
  | expectedToken (expected : Token) (found : Option Token)
  | trailingInput (found : Option Token)
  | expectedKey (found : Option Token)
  | expectedVersion (found : Option Token)
  | version (fault : Version.Fault)
  | expectedEquality (found : Option Token)
  | expectedLiteral (found : Option Token)
  | invalidLiteral (word : String)
  | unexpected (found : Option Token)
  | unknownFunction (name : String)
  | expectedValue (found : Option Token)
  | invalidNumber (text : String)
  | expectedOperand (found : Option Token)
  deriving DecidableEq

namespace Expression

def Cause.message : Cause → String
  | .unterminatedQuote => "unterminated quote"
  | .unexpectedCharacter c => "unexpected character '" ++ String.singleton c ++ "'"
  | .expectedToken expected found =>
    "expected " ++ expected.label ++ ", found " ++ Token.found found
  | .trailingInput found => "trailing input at " ++ Token.found found
  | .expectedKey found => "expected key name, found " ++ Token.found found
  | .expectedVersion found => "expected PDF version, found " ++ Token.found found
  | .version fault => fault.message
  | .expectedEquality found => "expected == or !=, found " ++ Token.found found
  | .expectedLiteral found => "expected literal, found " ++ Token.found found
  | .invalidLiteral word => "invalid literal '" ++ word ++ "'"
  | .unexpected found => "unexpected " ++ Token.found found
  | .unknownFunction name => "unknown function '" ++ name ++ "'"
  | .expectedValue found => "expected value, found " ++ Token.found found
  | .invalidNumber text => "invalid number '" ++ text ++ "'"
  | .expectedOperand found => "expected number or @key, found " ++ Token.found found

structure Error where
  expression : String
  cause : Cause
  deriving DecidableEq

def Error.message (e : Error) : String :=
  "Invalid expression '" ++ e.expression ++ "': " ++ e.cause.message

/-- The characters of a word: ASCII letters and digits and seven marks. -/
def isWordChar (c : Char) : Bool :=
  c.isAlphanum || c == '_' || c == ':' || c == '.' || c == '-' || c == '#' || c == '*' || c == '+'

def startsRange : List Char → Bool
  | '.' :: '.' :: _ => true
  | _ => false

/-- The longest run of word characters that does not enter a range, and the rest. -/
def spanWord : List Char → List Char × List Char
  | [] => ([], [])
  | c :: rest =>
    if isWordChar c && !startsRange (c :: rest) then
      let (word, after) := spanWord rest
      (c :: word, after)
    else ([], c :: rest)

theorem spanWord_append (cs : List Char) : (spanWord cs).1 ++ (spanWord cs).2 = cs := by
  fun_induction spanWord cs <;> simp_all

theorem isWordChar_of_mem_spanWord {cs : List Char} {c : Char} (h : c ∈ (spanWord cs).1) :
    isWordChar c = true := by
  fun_induction spanWord cs <;> simp_all
  grind

def startsWithDigit : List Char → Bool
  | c :: _ => c.isDigit
  | [] => false

/-- The digits of a number after its first character, with at most one point that
digits follow. -/
def spanNumber (cs : List Char) : List Char × List Char :=
  match cs.span Char.isDigit with
  | (whole, '.' :: rest) =>
    if startsWithDigit rest then
      let (fraction, rest) := rest.span Char.isDigit
      (whole ++ '.' :: fraction, rest)
    else (whole, '.' :: rest)
  | found => found

/-- A number, or a word when more word characters follow it. -/
def scanNumber (first : Char) (cs : List Char) : Token × List Char :=
  let (number, rest) := spanNumber cs
  match spanWord rest with
  | ([], _) => (.number (String.ofList (first :: number)), rest)
  | (more, rest) => (.word (String.ofList (first :: number ++ more)), rest)

def scanQuoted (cs : List Char) : Except Cause (Token × List Char) :=
  match cs.span (· != '\'') with
  | (inner, _ :: rest) => .ok (.quoted (String.ofList inner), rest)
  | (_, []) => .error .unterminatedQuote

def scanWord (first : Char) (cs : List Char) : Token × List Char :=
  let (word, rest) := spanWord cs
  (.word (String.ofList (first :: word)), rest)

def startsNumber (c : Char) (rest : List Char) : Bool :=
  c.isDigit || ((c == '-' || c == '+' || c == '.') && startsWithDigit rest)

/-- The token that starts with a character that is not blank, and what follows it. -/
def scan : Char → List Char → Except Cause (Token × List Char)
  | '[', rest => .ok (.leftBracket, rest)
  | ']', rest => .ok (.rightBracket, rest)
  | '(', rest => .ok (.leftParen, rest)
  | ')', rest => .ok (.rightParen, rest)
  | ',', rest => .ok (.comma, rest)
  | '@', rest => .ok (.at, rest)
  | '&', '&' :: rest => .ok (.andAnd, rest)
  | '|', '|' :: rest => .ok (.orOr, rest)
  | '=', '=' :: rest => .ok (.equal, rest)
  | '!', '=' :: rest => .ok (.notEqual, rest)
  | '!', rest => .ok (.bang, rest)
  | '<', '=' :: rest => .ok (.lessEqual, rest)
  | '<', rest => .ok (.less, rest)
  | '>', '=' :: rest => .ok (.greaterEqual, rest)
  | '>', rest => .ok (.greater, rest)
  | '.', '.' :: rest => .ok (.dots, rest)
  | '\'', rest => scanQuoted rest
  | c, rest =>
    if startsNumber c rest then .ok (scanNumber c rest)
    else if isWordChar c then .ok (scanWord c rest)
    else .error (.unexpectedCharacter c)

/-- All tokens of a text. Every step takes at least one character, so the length
of the text is fuel enough. -/
def scanAll : Nat → List Char → Except Cause (List Token)
  | _, [] => .ok []
  | 0, _ :: _ => .ok []
  | fuel + 1, c :: rest =>
    if Text.isBlank c then scanAll fuel rest
    else do
      let (token, rest) ← scan c rest
      return token :: (← scanAll fuel rest)

def tokens (cs : List Char) : Except Cause (List Token) := scanAll cs.length cs

/-- What a reader over tokens gives: a value and the tokens after it. -/
abbrev Taken (α : Type) := α × List Token

def expect (token : Token) : List Token → Except Cause (Taken Unit)
  | t :: rest => if t = token then .ok ((), rest) else .error (.expectedToken token (some t))
  | [] => .error (.expectedToken token none)

/-- A bare key name, which may look like a number. -/
def readKey : List Token → Except Cause (Taken String)
  | .word s :: rest => .ok (s, rest)
  | .number s :: rest => .ok (s, rest)
  | ts => .error (.expectedKey ts.head?)

def readVersion : List Token → Except Cause (Taken Version)
  | .number s :: rest => match Version.parse s with
    | .ok v => .ok (v, rest)
    | .error fault => .error (.version fault)
  | ts => .error (.expectedVersion ts.head?)

def finish {α : Type} : Taken α → Except Cause α
  | (value, []) => .ok value
  | (_, t :: _) => .error (.trailingInput (some t))

/-- Read a column with a reader over its tokens; its error names the column's text. -/
def ofText {α : Type} (read : List Token → Except Cause α) (s : String) : Except Error α :=
  ((tokens s.toList).bind read).mapError (Error.mk s)

end Expression

end PdfConform
