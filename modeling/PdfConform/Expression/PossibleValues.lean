import PdfConform.Expression.Literal
import PdfConform.Expression.Token

/-! The values that a key may take for one of its types: a list of literals,
ranges, comparisons and siblings, each perhaps limited to some versions. An
empty list allows everything. -/
namespace PdfConform

inductive Operand
  | number (value : Binary64)
  | sibling (key : String)
  deriving DecidableEq

inductive Comparison
  | less
  | lessEqual
  | greater
  | greaterEqual
  deriving DecidableEq

inductive ValueItem
  | literal (value : Literal)
  | range (low high : Operand)
  | compare (comparison : Comparison) (bound : Operand)
  | sibling (key : String)
  | since (version : Version) (item : ValueItem)
  | before (version : Version) (item : ValueItem)
  deriving DecidableEq

structure PossibleValues where
  items : List ValueItem
  deriving DecidableEq

open Expression

namespace Operand

def value? (c : Context) : Operand → Option Binary64
  | .number x => some x
  | .sibling key => (c.sibling key).bind Literal.toReal?

def text : Operand → String
  | .number x => Number.showReal x
  | .sibling key => "@" ++ key

def read : List Token → Except Cause (Taken Operand)
  | .number s :: rest => match Number.readReal s.toList with
    | some x => .ok (.number x, rest)
    | none => .error (.invalidNumber s)
  | .at :: rest => do
    let (key, rest) ← readKey rest
    return (.sibling key, rest)
  | ts => .error (.expectedOperand ts.head?)

end Operand

namespace Comparison

def holds : Comparison → Binary64 → Binary64 → Bool
  | .less, x, y => x.lt y
  | .lessEqual, x, y => x.le y
  | .greater, x, y => y.lt x
  | .greaterEqual, x, y => y.le x

def symbol : Comparison → String
  | .less => "<"
  | .lessEqual => "<="
  | .greater => ">"
  | .greaterEqual => ">="

def ofToken? : Token → Option Comparison
  | .less => some .less
  | .lessEqual => some .lessEqual
  | .greater => some .greater
  | .greaterEqual => some .greaterEqual
  | _ => none

end Comparison

namespace ValueItem

/-- An item that needs a sibling with no value is satisfied: there is nothing to
compare with. -/
def allows (c : Context) (value : Literal) : ValueItem → Bool
  | .literal l => l.agrees value
  | .range low high => match low.value? c, high.value? c with
    | some low, some high => value.toReal?.any fun x => low.le x && x.le high
    | _, _ => true
  | .compare op bound => match bound.value? c with
    | some bound => value.toReal?.any fun x => op.holds x bound
    | none => true
  | .sibling key => (c.sibling key).all fun s => s.agrees value
  | .since v item => v ≤ c.version && item.allows c value
  | .before v item => c.version < v && item.allows c value

def text : ValueItem → String
  | .literal l => l.shown
  | .range low high => low.text ++ ".." ++ high.text
  | .compare op bound => op.symbol ++ bound.text
  | .sibling key => "@" ++ key
  | .since v item => "fn:SinceVersion(" ++ v.text ++ "," ++ item.text ++ ")"
  | .before v item => "fn:BeforeVersion(" ++ v.text ++ "," ++ item.text ++ ")"

def readAfterNumber (s : String) : List Token → Except Cause (Taken ValueItem)
  | .dots :: rest => match Number.readReal s.toList with
    | some x => do
      let (high, rest) ← Operand.read rest
      return (.range (.number x) high, rest)
    | none => .error (.invalidNumber s)
  | rest => .ok (.literal (.ofWord s), rest)

def readAfterKey (key : String) : List Token → Except Cause (Taken ValueItem)
  | .dots :: rest => do
    let (high, rest) ← Operand.read rest
    return (.range (.sibling key) high, rest)
  | rest => .ok (.sibling key, rest)

def gate? (name : String) : Option (Version → ValueItem → ValueItem) :=
  if Literal.equalsIgnoringCase name "fn:SinceVersion" then some .since
  else if Literal.equalsIgnoringCase name "fn:BeforeVersion" then some .before
  else none

/-- One item; the fuel bounds how deeply items are limited to versions. -/
def read : Nat → List Token → Except Cause (Taken ValueItem)
  | 0, ts => .error (.expectedValue ts.head?)
  | fuel + 1, ts =>
    match ts with
    | .at :: rest => do
      let (key, rest) ← readKey rest
      readAfterKey key rest
    | .number s :: rest => readAfterNumber s rest
    | .word s :: .leftParen :: rest =>
      match gate? s with
      | none => .error (.unknownFunction s)
      | some gate => do
        let (v, rest) ← readVersion rest
        let ((), rest) ← expect .comma rest
        let (item, rest) ← read fuel rest
        let ((), rest) ← expect .rightParen rest
        return (gate v item, rest)
    | .word s :: rest => .ok (.literal (.ofWord s), rest)
    | .quoted s :: rest => .ok (.literal (.text s), rest)
    | t :: rest => match Comparison.ofToken? t with
      | some op => do
        let (bound, rest) ← Operand.read rest
        return (.compare op bound, rest)
      | none => .error (.expectedValue (some t))
    | [] => .error (.expectedValue none)

/-- Items separated by commas, at least one. -/
def readList : Nat → List Token → Except Cause (Taken (List ValueItem))
  | 0, ts => .error (.expectedValue ts.head?)
  | fuel + 1, ts => do
    let (item, rest) ← read (fuel + 1) ts
    match rest with
    | .comma :: rest => do
      let (items, rest) ← readList fuel rest
      return (item :: items, rest)
    | rest => return ([item], rest)

end ValueItem

namespace PossibleValues

def isUnconstrained (p : PossibleValues) : Bool := p.items.isEmpty

def allows (p : PossibleValues) (c : Context) (value : Literal) : Bool :=
  p.isUnconstrained || p.items.any fun item => item.allows c value

def text (p : PossibleValues) : String :=
  "[" ++ String.intercalate "," (p.items.map ValueItem.text) ++ "]"

/-- A list may stand in brackets, and only then may it be empty. -/
def ofTokens (ts : List Token) : Except Cause PossibleValues :=
  match ts with
  | [] => .ok ⟨[]⟩
  | .leftBracket :: .rightBracket :: rest => finish (⟨[]⟩, rest)
  | .leftBracket :: rest => do
    let (items, rest) ← ValueItem.readList (rest.length + 1) rest
    let ((), rest) ← expect .rightBracket rest
    finish (⟨items⟩, rest)
  | ts => do
    let (items, rest) ← ValueItem.readList (ts.length + 1) ts
    finish (⟨items⟩, rest)

def parse (s : String) : Except Error PossibleValues := ofText ofTokens s

end PossibleValues

end PdfConform
