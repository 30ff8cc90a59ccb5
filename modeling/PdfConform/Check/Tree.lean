import PdfConform.Check.Session

/-! Name trees and number trees. A node holds sorted pairs of key and value or
further nodes, and every node but the root bounds its keys by limits. -/
namespace PdfConform

/-- Strings under Names, or integers under Nums. -/
inductive TreeKind
  | name
  | number
  deriving DecidableEq

inductive TreeKey
  | text (value : String)
  | number (value : Int64)
  deriving DecidableEq

namespace TreeKey

def lt : TreeKey → TreeKey → Bool
  | .text a, .text b => a < b
  | .number a, .number b => a < b
  | .text _, .number _ => true
  | .number _, .text _ => false

theorem lt_trans {a b c : TreeKey} (h : a.lt b = true) (k : b.lt c = true) : a.lt c = true := by
  cases a <;> cases b <;> cases c <;>
    simp only [lt, decide_eq_true_eq, Bool.false_eq_true] at h k ⊢
  · exact String.lt_trans h k
  · exact Int64.lt_trans h k

theorem eq_of_not_lt {a b : TreeKey} (h : a.lt b = false) (k : b.lt a = false) : a = b := by
  cases a <;> cases b <;>
    simp only [lt, decide_eq_false_iff_not, Bool.true_eq_false] at h k
  · exact congrArg _ (String.le_antisymm k h)
  · exact congrArg _ (Int64.le_antisymm (Int64.not_lt.1 k) (Int64.not_lt.1 h))

def label : TreeKey → String
  | .text s => "(" ++ s ++ ")"
  | .number i => Number.showInt i.toInt

end TreeKey

namespace TreeKind

def ofType? : ValueType → Option TreeKind
  | .nameTree => some .name
  | .numberTree => some .number
  | _ => none

def entriesKey : TreeKind → String
  | .name => "Names"
  | .number => "Nums"

def title : TreeKind → String
  | .name => "NameTree"
  | .number => "NumberTree"

def keyKind : TreeKind → String
  | .name => "string"
  | .number => "integer"

def key? : TreeKind → Object → Option TreeKey
  | .name, .string s => some (.text s)
  | .number, .integer i => some (.number i)
  | _, _ => none

end TreeKind

/-- The tree that a row describes, with the links for its values. -/
structure Tree where
  kind : TreeKind
  links : List String
  deriving DecidableEq

/-- The least and the greatest key of a node and all below it. -/
structure Limits where
  low : TreeKey
  high : TreeKey
  deriving DecidableEq

def Limits.text (l : Limits) : String := "[" ++ l.low.label ++ " " ++ l.high.label ++ "]"

def Limits.excludes (l : Limits) (key : TreeKey) : Bool := key.lt l.low || l.high.lt key

/-- A node that waits to be visited. The root has no bounds of its own, and a node
without usable limits bounds none of its children. -/
structure TreeNode where
  object : Object
  path : String
  bounds : Option Limits
  isRoot : Bool

namespace Tree

/-- The name under which the nodes of a tree are recorded and reported. -/
def title (t : Tree) : String := t.kind.title ++ "<" ++ String.intercalate "," t.links ++ ">"

def finding (t : Tree) (kind : Finding.Kind) (path message : String) : Finding :=
  ⟨kind, t.title, none, path, message⟩

def value? (store : Store) (d : Dictionary) (key : String) : Option Object :=
  ((d.get? key).bind store.present).map (·.1)

def keyOf? (t : Tree) (store : Store) (object : Object) : Option TreeKey :=
  (store.dereference object).bind fun found => t.kind.key? found.1

def limits (t : Tree) (store : Store) (d : Dictionary) : Except String Limits :=
  match value? store d "Limits" with
  | none => .error "node has no Limits"
  | some (.array [low, high]) =>
    match t.keyOf? store low, t.keyOf? store high with
    | some low, some high =>
      let limits : Limits := ⟨low, high⟩
      if high.lt low then .error ("Limits " ++ limits.text ++ " are reversed") else .ok limits
    | _, _ => .error ("Limits must hold two " ++ t.kind.keyKind ++ " keys")
  | some (.array bounds) =>
    .error ("Limits has " ++ Number.showNat bounds.length ++ " elements, expected 2")
  | some other => .error ("Limits is a " ++ other.kind ++ ", expected an array")

/-- Keys beside their values; a last key may lack one. -/
def pairs : List Object → List (Object × Option Object)
  | key :: value :: rest => (key, some value) :: pairs rest
  | [key] => [(key, none)]
  | [] => []

def keys (t : Tree) (store : Store) (items : List Object) : List (Option TreeKey) :=
  (pairs items).map fun p => t.keyOf? store p.1

end Tree

namespace Session

/-- Check and queue the value of a key. A value that is null or resolves to nothing
is passed over. -/
def scheduleValue (s : Session) (around : Surroundings) (t : Tree) (key : TreeKey)
    (value : Object) (path : String) : Session :=
  match around.store.present value with
  | none => s
  | some (object, reference) =>
    if object.isContainer then
      let (chosen, s) := s.chooseLink around object t.links t.title key.label path
      match chosen with
      | some link => s.enqueue object reference link path
      | none => s
    else s.report [t.finding .typeMismatch path
      ("tree value " ++ key.label ++ " is a " ++ object.kind ++ ", expected a container")]

structure Keys where
  session : Session
  previous : Option TreeKey
  unsorted : Bool
  outside : Bool

/-- Read one pair. Only the first key that is out of order is reported. -/
def readPair (around : Surroundings) (t : Tree) (limits : Option Limits) (path : String)
    (k : Keys) (pair : (Object × Option Object) × Nat) : Keys :=
  match t.keyOf? around.store pair.1.1 with
  | none =>
    { k with session := k.session.report [t.finding .malformedContainer path
        (t.kind.entriesKey ++ "[" ++ Number.showNat (2 * pair.2) ++ "] is not a valid " ++
          t.kind.keyKind ++ " key")] }
  | some key =>
    let drops := !k.unsorted && k.previous.any key.lt
    let s := if drops then k.session.report [t.finding .malformedContainer path
        (t.kind.entriesKey ++ " keys are not sorted at " ++ key.label)] else k.session
    { session := match pair.1.2 with
        | some value => s.scheduleValue around t key value (path ++ "[" ++ key.label ++ "]")
        | none => s
      previous := some key
      unsorted := k.unsorted || drops
      outside := k.outside || limits.any (·.excludes key) }

/-- Read a node's pairs; also says whether a key lies outside the limits. -/
def readEntries (s : Session) (around : Surroundings) (t : Tree) (limits : Option Limits)
    (path : String) (entries : Object) : Bool × Session :=
  match entries with
  | .array items =>
    let s := if items.length % 2 = 0 then s else s.report [t.finding .malformedContainer path
      (t.kind.entriesKey ++ " has an odd number of elements (" ++
        Number.showNat items.length ++ ")")]
    let k := (Tree.pairs items).zipIdx.foldl (readPair around t limits path)
      ⟨s, none, false, false⟩
    (k.outside, k.session)
  | other => (false, s.report [t.finding .malformedContainer path
      (t.kind.entriesKey ++ " is a " ++ other.kind ++ ", expected an array")])

/-- Record one child node; those seen for the first time wait to be visited. -/
def meetKid (around : Surroundings) (t : Tree) (limits : Option Limits) (path : String)
    (found : Session × List TreeNode) (kid : Object × Nat) : Session × List TreeNode :=
  let (s, nodes) := found
  let path := path ++ "/Kids[" ++ Number.showNat kid.2 ++ "]"
  match around.store.dereference kid.1 with
  | none => (s.report [t.finding .malformedContainer path "child node does not resolve"], nodes)
  | some (child, reference) =>
    let (fresh, s) := s.mark (.of child reference) t.title
    (s, if fresh then nodes ++ [⟨child, path, limits, false⟩] else nodes)

def meetKids (s : Session) (around : Surroundings) (t : Tree) (limits : Option Limits)
    (path : String) (kids : Object) : Session × List TreeNode :=
  match kids with
  | .array items => items.zipIdx.foldl (meetKid around t limits path) (s, [])
  | other => (s.report [t.finding .malformedContainer path
      ("Kids is a " ++ other.kind ++ ", expected an array")], [])

/-- The limits of a node with the message of what is wrong with them. The root's are not read. -/
def nodeLimits (around : Surroundings) (t : Tree) (node : TreeNode) (d : Dictionary) :
    Option Limits × Option String :=
  if node.isRoot then (none, none) else
  match t.limits around.store d with
  | .error message => (none, some message)
  | .ok own =>
    (some own, node.bounds.bind fun bounds =>
      if own.low.lt bounds.low || bounds.high.lt own.high then
        some ("Limits " ++ own.text ++ " fall outside parent Limits " ++ bounds.text)
      else none)

def violate (s : Session) (t : Tree) (node : TreeNode) (message : String) : Session :=
  s.report [t.finding .limitsViolation node.path message]

/-- Report keys outside the limits of a node unless something else is wrong with them. -/
def violateByKeys (s : Session) (t : Tree) (node : TreeNode) (limits : Option Limits)
    (violation : Option String) (outside : Bool) : Session :=
  match limits with
  | some limits =>
    if outside && violation.isNone then
      s.violate t node ("entries fall outside Limits " ++ limits.text)
    else s
  | none => s

/-- Read the pairs of a node within its limits. At most one violation is reported, that of
the limits coming before that of the keys. -/
def readNode (s : Session) (around : Surroundings) (t : Tree) (node : TreeNode) (d : Dictionary) :
    Session :=
  let (limits, violation) := nodeLimits around t node d
  let s := violation.elim s (s.violate t node)
  match Tree.value? around.store d t.kind.entriesKey with
  | none => s
  | some entries =>
    let (outside, s) := s.readEntries around t limits node.path entries
    s.violateByKeys t node limits violation outside

def readShape (s : Session) (around : Surroundings) (t : Tree) (node : TreeNode) (d : Dictionary) :
    Session :=
  if (Tree.value? around.store d t.kind.entriesKey).isSome &&
      (Tree.value? around.store d "Kids").isSome then
    s.report [t.finding .mixedContainerNode node.path
      ("node has both " ++ t.kind.entriesKey ++ " and Kids")]
  else s

/-- Visit one node; gives the child nodes seen for the first time. -/
def visitNode (s : Session) (around : Surroundings) (t : Tree) (node : TreeNode) :
    Session × List TreeNode :=
  let s := s.note (.visited t.title node.path)
  match node.object with
  | .dictionary d =>
    let s := (s.readShape around t node d).readNode around t node d
    match Tree.value? around.store d "Kids" with
    | none => (s, [])
    | some kids => s.meetKids around t (nodeLimits around t node d).1 node.path kids
  | other => (s.report [t.finding .malformedContainer node.path
      ("tree node is a " ++ other.kind ++ ", expected a dictionary")], [])

/-- Visit waiting nodes first come, first served. -/
def visitNodes (around : Surroundings) (t : Tree) : Nat → Session → List TreeNode → Session
  | _, s, [] => s
  | 0, s, _ :: _ => s
  | fuel + 1, s, node :: rest =>
    let (s, found) := s.visitNode around t node
    visitNodes around t fuel s (rest ++ found)

/-- Walk a tree whose root was not walked before. Every node but the root is recorded
when it is met, and there are no more nodes than objects. -/
def walkTree (s : Session) (around : Surroundings) (t : Tree) (root : Object)
    (reference : Option ObjectId) (path : String) : Session :=
  let (fresh, s) := s.mark (.of root reference) t.title
  if fresh then
    visitNodes around t (around.store.size + root.size + 1) s [⟨root, path, none, true⟩]
  else s

end Session

end PdfConform
