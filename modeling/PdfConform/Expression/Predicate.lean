import PdfConform.Expression.Literal
import PdfConform.Expression.Token

/-! Conditions on a container: when a key is required, when a value must be
indirect. Conjunction binds tighter than disjunction, both to the left; names of
functions and truth values are read in any case of letters, keys as written. -/
namespace PdfConform

inductive Predicate
  | const (value : Bool)
  | not (inner : Predicate)
  | and (left right : Predicate)
  | or (left right : Predicate)
  | since (version : Version) (inner : Predicate)
  | before (version : Version) (inner : Predicate)
  | isPresent (key : String)
  | notPresent (key : String)
  | keyEquals (key : String) (value : Literal) (negated : Bool)
  deriving DecidableEq

namespace Predicate

open Expression

/-- A comparison with a sibling that has no value never holds, negated or not. -/
def eval (c : Context) : Predicate → Bool
  | .const b => b
  | .not p => !p.eval c
  | .and p q => p.eval c && q.eval c
  | .or p q => p.eval c || q.eval c
  | .since v p => v ≤ c.version && p.eval c
  | .before v p => c.version < v && p.eval c
  | .isPresent key => c.isPresent key
  | .notPresent key => !c.isPresent key
  | .keyEquals key value negated =>
    (c.sibling key).any fun sibling => sibling.agrees value != negated

def const? : Predicate → Option Bool
  | .const b => some b
  | _ => none

/-- The predicate as an expression that reads back. -/
def text : Predicate → String
  | .const b => if b then "TRUE" else "FALSE"
  | .not p => "!(" ++ p.text ++ ")"
  | .and p q => "(" ++ p.text ++ " && " ++ q.text ++ ")"
  | .or p q => "(" ++ p.text ++ " || " ++ q.text ++ ")"
  | .since v p => "fn:SinceVersion(" ++ v.text ++ "," ++ p.text ++ ")"
  | .before v p => "fn:BeforeVersion(" ++ v.text ++ "," ++ p.text ++ ")"
  | .isPresent key => "fn:IsPresent(" ++ key ++ ")"
  | .notPresent key => "fn:NotPresent(" ++ key ++ ")"
  | .keyEquals key value negated =>
    "@" ++ key ++ (if negated then "!=" else "==") ++ value.shown

/-- Equality of trees; one that holds a value that is not a number differs from itself. -/
def same : Predicate → Predicate → Bool
  | .const a, .const b => a == b
  | .not p, .not q => p.same q
  | .and p q, .and p' q' => p.same p' && q.same q'
  | .or p q, .or p' q' => p.same p' && q.same q'
  | .since v p, .since w q => v = w && p.same q
  | .before v p, .before w q => v = w && p.same q
  | .isPresent k, .isPresent l => k == l
  | .notPresent k, .notPresent l => k == l
  | .keyEquals k a m, .keyEquals l b n => k == l && a.same b && m == n
  | _, _ => false

def readEquality : List Token → Except Cause (Taken Bool)
  | .equal :: rest => .ok (false, rest)
  | .notEqual :: rest => .ok (true, rest)
  | ts => .error (.expectedEquality ts.head?)

def literalOfWord (s : String) (rest : List Token) : Except Cause (Taken Literal) :=
  match Literal.parse s with
  | some value => .ok (value, rest)
  | none => .error (.invalidLiteral s)

def readLiteral : List Token → Except Cause (Taken Literal)
  | .word s :: rest => literalOfWord s rest
  | .number s :: rest => literalOfWord s rest
  | .quoted s :: rest => .ok (.text s, rest)
  | ts => .error (.expectedLiteral ts.head?)

/-- What follows the mark of a key: the key, a comparison and a literal. -/
def readComparison (ts : List Token) : Except Cause (Taken Predicate) := do
  let (key, ts) ← readKey ts
  let (negated, ts) ← readEquality ts
  let (value, ts) ← readLiteral ts
  return (.keyEquals key value negated, ts)

inductive Function
  | since
  | before
  | isPresent
  | notPresent
  deriving DecidableEq

def function? (name : String) : Option Function :=
  match String.ofList (name.toList.map Char.toLower) with
  | "fn:sinceversion" => some .since
  | "fn:beforeversion" => some .before
  | "fn:ispresent" => some .isPresent
  | "fn:notpresent" => some .notPresent
  | _ => none

mutual

/-- Conjunctions joined by bars. The fuel of each reader bounds how deeply the
readers call each other, which four calls for each token never exceed. -/
def readOr : Nat → List Token → Except Cause (Taken Predicate)
  | 0, ts => .error (.unexpected ts.head?)
  | fuel + 1, ts => do
    let (left, ts) ← readAnd fuel ts
    readOrRest fuel left ts

def readOrRest : Nat → Predicate → List Token → Except Cause (Taken Predicate)
  | 0, _, ts => .error (.unexpected ts.head?)
  | fuel + 1, left, .orOr :: ts => do
    let (right, ts) ← readAnd fuel ts
    readOrRest fuel (.or left right) ts
  | _ + 1, left, ts => .ok (left, ts)

def readAnd : Nat → List Token → Except Cause (Taken Predicate)
  | 0, ts => .error (.unexpected ts.head?)
  | fuel + 1, ts => do
    let (left, ts) ← readUnary fuel ts
    readAndRest fuel left ts

def readAndRest : Nat → Predicate → List Token → Except Cause (Taken Predicate)
  | 0, _, ts => .error (.unexpected ts.head?)
  | fuel + 1, left, .andAnd :: ts => do
    let (right, ts) ← readUnary fuel ts
    readAndRest fuel (.and left right) ts
  | _ + 1, left, ts => .ok (left, ts)

def readUnary : Nat → List Token → Except Cause (Taken Predicate)
  | 0, ts => .error (.unexpected ts.head?)
  | fuel + 1, .bang :: ts => do
    let (inner, ts) ← readUnary fuel ts
    return (.not inner, ts)
  | fuel + 1, .leftParen :: ts => do
    let (inner, ts) ← readOr fuel ts
    let ((), ts) ← expect .rightParen ts
    return (inner, ts)
  | _ + 1, .at :: ts => readComparison ts
  | fuel + 1, .word s :: ts =>
    if Literal.equalsIgnoringCase s "true" then .ok (.const true, ts)
    else if Literal.equalsIgnoringCase s "false" then .ok (.const false, ts)
    else match ts with
      | .leftParen :: ts => do
        let (p, ts) ← readCall fuel s ts
        let ((), ts) ← expect .rightParen ts
        return (p, ts)
      | _ => .error (.unexpected (some (.word s)))
  | _ + 1, ts => .error (.unexpected ts.head?)

/-- The arguments of a function, after its opening parenthesis. -/
def readCall : Nat → String → List Token → Except Cause (Taken Predicate)
  | 0, _, ts => .error (.unexpected ts.head?)
  | fuel + 1, name, ts =>
    match function? name with
    | none => .error (.unknownFunction name)
    | some .isPresent => do
      let (key, ts) ← readKey ts
      return (.isPresent key, ts)
    | some .notPresent => do
      let (key, ts) ← readKey ts
      return (.notPresent key, ts)
    | some .since => do
      let (v, ts) ← readVersion ts
      let (inner, ts) ← readInner fuel ts
      return (.since v inner, ts)
    | some .before => do
      let (v, ts) ← readVersion ts
      let (inner, ts) ← readInner fuel ts
      return (.before v inner, ts)

/-- A version may stand alone, and then nothing more is asked. -/
def readInner : Nat → List Token → Except Cause (Taken Predicate)
  | 0, ts => .error (.unexpected ts.head?)
  | fuel + 1, .comma :: ts => readOr fuel ts
  | _ + 1, ts => .ok (.const true, ts)

end

/-- An empty column is false. -/
def ofTokens (ts : List Token) : Except Cause Predicate :=
  match ts with
  | [] => .ok (.const false)
  | ts => do finish (← readOr (4 * ts.length + 4) ts)

def parse (s : String) : Except Error Predicate := ofText ofTokens s

end Predicate

end PdfConform
