import PdfConform.Proofs.Check.Layout
import PdfConform.Proofs.Check.Sources
import PdfConform.Proofs.Check.TreeWalk

/-! Violations of limits in a tree. Three things can be wrong with the limits of a node, and a visit
reports a violation once if any of them is. -/
namespace PdfConform

/-- Something is wrong with the limits of a child node: it has none that can be used, they go beyond
those of the parent, or a key of its own lies outside them. -/
inductive Tree.Strays (t : Tree) (store : Store) (parent child : TreeNode) : Prop
  | unbounded : (∀ own, ¬t.HasLimits store child.object own) → Strays t store parent child
  | beyond {own outer : Limits} : t.HasLimits store child.object own → parent.isRoot = false →
    t.HasLimits store parent.object outer → ¬own.Within outer → Strays t store parent child
  | outside {own : Limits} {key : TreeKey} : t.HasLimits store child.object own →
    key ∈ t.keysAt store child.object → ¬own.Contains key → Strays t store parent child

/-- What a visit finds wrong with the limits of a node. -/
def TreeNode.strays (around : Surroundings) (t : Tree) (node : TreeNode) (d : Dictionary) : Bool :=
  (Session.nodeLimits around t node d).2.isSome ||
    (Session.nodeLimits around t node d).1.any fun own =>
      (t.keysAt around.store (.dictionary d)).any own.excludes

namespace Session

variable {around : Surroundings} {t : Tree}

def violations (s : Session) : Nat := s.findings.countP (·.kind = .limitsViolation)

theorem violations_report (s : Session) (found : List Finding) :
    (s.report found).violations = s.violations + found.countP (·.kind = .limitsViolation) :=
  List.countP_append

theorem violations_of_clean {s s' : Session} {found : List Finding}
    (hfound : s'.findings = s.findings ++ found) (hclean : ∀ f ∈ found, f.kind ≠ .limitsViolation) :
    s'.violations = s.violations := by
  have hnone : found.countP (·.kind = .limitsViolation) = 0 := by
    rw [List.countP_eq_zero]
    intro f hf
    simpa using hclean f hf
  rw [violations, hfound, List.countP_append, hnone]
  rfl

@[simp] theorem violations_malformed (s : Session) (path message : String) :
    (s.report [t.finding .malformedContainer path message]).violations = s.violations :=
  violations_of_clean rfl (by simp [Tree.finding])

@[simp] theorem violations_violate (s : Session) (node : TreeNode) (message : String) :
    (s.violate t node message).violations = s.violations + 1 :=
  violations_report s _

theorem Tells.violations {asked : String → Prop} {own : Finding → Prop} {s s' : Session}
    (h : Tells around asked own s s') (hown : ∀ f, own f → f.kind ≠ .limitsViolation) :
    s'.violations = s.violations := by
  have hlookup (s : Session) (link : String) :
      (s.table around link).2.violations = s.violations :=
    violations_of_clean rfl fun _ hf => Cache.kind_ne_of_mem_get rfl hf
  refine h.keep (P := fun s' => s'.violations = s.violations) ?_ rfl
  intro a b htelling ha
  refine Eq.trans ?_ ha
  cases htelling with
  | silent hfindings _ => rw [Session.violations, hfindings, Session.violations]
  | asking hasking =>
    cases hasking with
    | lookup => exact hlookup a _
    | missing => exact (violations_of_clean rfl (by simp)).trans (hlookup a _)
  | own hfound => exact violations_of_clean rfl fun f hf => hown f (hfound f hf)

section Visit

variable (around t)

theorem violations_scheduleValue (s : Session) (key : TreeKey) (value : Object) (path : String) :
    (s.scheduleValue around t key value path).violations = s.violations := by
  unfold scheduleValue
  split
  · rfl
  · next object reference _ =>
    split
    · refine (tells_follow around s object reference t.links t.title key.label path).violations ?_
      rintro f (_ | _) <;> simp
    · exact violations_of_clean rfl (by simp [Tree.finding])

/-- A pair read is one more key that may lie outside, and no violation yet. -/
theorem readPair_spec (limits : Option Limits) (path : String) (k : Keys)
    (pair : (Object × Option Object) × Nat) :
    (readPair around t limits path k pair).session.violations = k.session.violations ∧
      (readPair around t limits path k pair).outside =
        (k.outside || (t.keyOf? around.store pair.1.1).any fun key =>
          limits.any (·.excludes key)) := by
  unfold readPair
  cases t.keyOf? around.store pair.1.1 with
  | none => simp
  | some key =>
    refine ⟨?_, rfl⟩
    have hdrops : (if !k.unsorted && k.previous.any key.lt then
        k.session.report [t.finding .malformedContainer path
          (t.kind.entriesKey ++ " keys are not sorted at " ++ key.label)]
        else k.session).violations = k.session.violations := by
      split
      · exact violations_malformed _ _ _
      · rfl
    dsimp only
    cases pair.1.2 with
    | none => exact hdrops
    | some value => exact (violations_scheduleValue around t _ key value _).trans hdrops

theorem readPairs_spec (limits : Option Limits) (path : String)
    (pairs : List ((Object × Option Object) × Nat)) (k : Keys) :
    (pairs.foldl (readPair around t limits path) k).session.violations = k.session.violations ∧
      (pairs.foldl (readPair around t limits path) k).outside =
        (k.outside || (pairs.filterMap fun pair => t.keyOf? around.store pair.1.1).any fun key =>
          limits.any (·.excludes key)) := by
  induction pairs generalizing k with
  | nil => simp
  | cons pair pairs ih =>
    obtain ⟨hsession, houtside⟩ := readPair_spec around t limits path k pair
    obtain ⟨hrest, hany⟩ := ih (readPair around t limits path k pair)
    refine ⟨hrest.trans hsession, ?_⟩
    rw [List.foldl_cons, hany, houtside, List.filterMap_cons, Bool.or_assoc]
    cases t.keyOf? around.store pair.1.1 <;> simp

/-- Reading entries reports no violation but tells whether one of the keys lies outside. -/
theorem readEntries_spec (s : Session) (limits : Option Limits) (path : String)
    (entries : Object) :
    (s.readEntries around t limits path entries).2.violations = s.violations ∧
      (s.readEntries around t limits path entries).1 =
        ((t.keys around.store (Tree.itemsOf? (some entries))).filterMap id).any fun key =>
          limits.any (·.excludes key) := by
  cases entries with
  | array items =>
    have hodd : (if items.length % 2 = 0 then s else s.report [t.finding .malformedContainer path
        (t.kind.entriesKey ++ " has an odd number of elements (" ++
          Number.showNat items.length ++ ")")]).violations = s.violations := by
      split
      · rfl
      · exact violations_malformed _ _ _
    have hkeys : (Tree.pairs items).zipIdx.filterMap (fun pair => t.keyOf? around.store pair.1.1) =
        (t.keys around.store items).filterMap id := by
      have hfst := congrArg (List.filterMap fun pair => t.keyOf? around.store pair.1)
        (List.zipIdx_map_fst 0 (Tree.pairs items))
      rw [List.filterMap_map] at hfst
      rw [Tree.keys, List.filterMap_map]
      exact hfst
    obtain ⟨hsession, houtside⟩ := readPairs_spec around t limits path
      (Tree.pairs items).zipIdx ⟨_, none, false, false⟩
    refine ⟨hsession.trans hodd, houtside.trans ?_⟩
    rw [hkeys, Bool.false_or]
    rfl
  | _ => exact ⟨violations_malformed _ _ _, rfl⟩

/-- A node that strays is one violation, whatever of it is wrong. -/
theorem violations_readNode (s : Session) (node : TreeNode) (d : Dictionary) :
    (s.readNode around t node d).violations =
      s.violations + (node.strays around t d).toNat := by
  unfold readNode TreeNode.strays Tree.keysAt
  generalize nodeLimits around t node d = judged
  obtain ⟨limits, violation⟩ := judged
  dsimp only
  have hjudged : (violation.elim s (s.violate t node)).violations =
      s.violations + violation.isSome.toNat := by
    cases violation with
    | none => rfl
    | some message => exact violations_violate s node message
  cases Tree.value? around.store d t.kind.entriesKey with
  | none => simpa [Tree.itemsOf?, Tree.keys, Tree.pairs] using hjudged
  | some entries =>
    obtain ⟨hsession, houtside⟩ := readEntries_spec around t
      (violation.elim s (s.violate t node)) limits node.path entries
    rw [hjudged] at hsession
    dsimp only
    rw [houtside]
    cases limits with
    | none => simpa [violateByKeys] using hsession
    | some own =>
      unfold violateByKeys
      cases violation with
      | some message => simpa using hsession
      | none =>
        -- The keys count where nothing is wrong with the limits themselves.
        simp only [Option.any_some, Option.isNone_none, Option.isSome_none, Bool.and_true,
          Bool.false_or]
        split
        · next hout => rw [violations_violate, hsession, hout]; rfl
        · next hout => rw [hsession, Bool.eq_false_of_not_eq_true hout]; rfl

theorem violations_readShape (s : Session) (node : TreeNode) (d : Dictionary) :
    (s.readShape around t node d).violations = s.violations := by
  unfold readShape
  split
  · exact violations_of_clean rfl (by simp [Tree.finding])
  · rfl

theorem violations_meetKids (s : Session) (limits : Option Limits) (path : String)
    (kids : Object) : (s.meetKids around t limits path kids).1.violations = s.violations := by
  unfold meetKids
  split
  · next items =>
    refine List.foldlRecOn
      (motive := fun found : Session × List TreeNode => found.1.violations = s.violations)
      _ _ rfl ?_
    intro found hfound kid _
    refine Eq.trans ?_ hfound
    unfold meetKid
    dsimp only
    split
    · exact violations_malformed _ _ _
    · rfl
  · exact violations_malformed _ _ _

/-- A visit reports a violation if the node strays, and no other. -/
theorem violations_visitNode (s : Session) {node : TreeNode} {d : Dictionary}
    (hd : node.object = .dictionary d) : (s.visitNode around t node).1.violations =
      s.violations + (node.strays around t d).toNat := by
  have hread := violations_readNode around t
    ((s.note (.visited t.title node.path)).readShape around t node d) node d
  rw [violations_readShape] at hread
  unfold visitNode
  rw [hd]
  dsimp only
  split
  · exact hread
  · exact (violations_meetKids around t _ _ _ _).trans hread

theorem violations_visitNode_of_ne (s : Session) {node : TreeNode}
    (hd : ∀ d, node.object ≠ .dictionary d) :
    (s.visitNode around t node).1.violations = s.violations := by
  unfold visitNode
  dsimp only
  split
  · next d hsome => exact absurd hsome (hd d)
  · exact violations_malformed _ _ _

end Visit

theorem strays_of_isRoot {node : TreeNode} (hroot : node.isRoot = true) (d : Dictionary) :
    node.strays around t d = false := by
  simp [TreeNode.strays, nodeLimits, hroot]

theorem nodeLimits_eq_some_iff {node : TreeNode} {d : Dictionary} {own : Limits} :
    (nodeLimits around t node d).1 = some own ↔
      node.isRoot = false ∧ t.HasLimits around.store (.dictionary d) own := by
  constructor
  · intro hlimits
    cases hroot : node.isRoot with
    | true => rw [nodeLimits_of_isRoot d hroot] at hlimits; cases hlimits
    | false =>
      refine ⟨rfl, Tree.hasLimits_of_limits ?_⟩
      unfold nodeLimits at hlimits
      rw [hroot] at hlimits
      cases hown : t.limits around.store d with
      | error message => simp [hown] at hlimits
      | ok limits => simpa [hown] using hlimits
  · exact fun h => nodeLimits_of_hasLimits h.1 h.2

theorem strays_eq_false_iff {node : TreeNode} (hroot : node.isRoot = false) {d : Dictionary} :
    node.strays around t d = false ↔ ∃ own, t.HasLimits around.store (.dictionary d) own ∧
      (∀ bounds, node.bounds = some bounds → own.Within bounds) ∧
      ∀ key ∈ t.keysAt around.store (.dictionary d), own.Contains key := by
  have hinside (own : Limits) : (t.keysAt around.store (.dictionary d)).any own.excludes = false ↔
      ∀ key ∈ t.keysAt around.store (.dictionary d), own.Contains key := by
    simp only [List.any_eq_false, Limits.contains_iff, Bool.not_eq_true]
  unfold TreeNode.strays
  rw [Bool.or_eq_false_iff, Option.isSome_eq_false_iff, Option.isNone_iff_eq_none]
  constructor
  · rintro ⟨hnone, hkeys⟩
    obtain ⟨own, hown, hlimits, hwithin⟩ := hasLimits_of_nodeLimits hroot hnone
    rw [hown, Option.any_some] at hkeys
    exact ⟨own, hlimits, hwithin, (hinside own).1 hkeys⟩
  · rintro ⟨own, hlimits, hwithin, hkeys⟩
    refine ⟨?_, ?_⟩
    · simp only [nodeLimits, hroot, hlimits.eq_ok, Bool.false_eq_true, if_false]
      cases hbounds : node.bounds with
      | none => rfl
      | some bounds =>
        obtain ⟨hlow, hhigh⟩ := hwithin bounds hbounds
        have hlow : own.low.lt bounds.low = false := hlow
        have hhigh : bounds.high.lt own.high = false := hhigh
        simp [hlow, hhigh]
    · rw [nodeLimits_of_hasLimits hroot hlimits, Option.any_some]
      exact (hinside own).2 hkeys

end Session

theorem Tree.not_strays_iff {t : Tree} {store : Store} {parent child : TreeNode} :
    ¬t.Strays store parent child ↔ ∃ own, t.HasLimits store child.object own ∧
      (∀ outer, parent.isRoot = false → t.HasLimits store parent.object outer → own.Within outer) ∧
      ∀ key ∈ t.keysAt store child.object, own.Contains key := by
  constructor
  · intro hfits
    obtain ⟨own, hown⟩ : ∃ own, t.HasLimits store child.object own := by
      by_contra hnone
      exact hfits (.unbounded (not_exists.1 hnone))
    refine ⟨own, hown, ?_, ?_⟩
    · intro outer hroot houter
      by_contra hbeyond
      exact hfits (.beyond hown hroot houter hbeyond)
    · intro key hkey
      by_contra houtside
      exact hfits (.outside hown hkey houtside)
  · rintro ⟨own, hown, hwithin, hkeys⟩ hstrays
    cases hstrays with
    | unbounded hnone => exact hnone own hown
    | beyond hown' hroot houter hbeyond =>
      exact hbeyond (hown.unique hown' ▸ hwithin _ hroot houter)
    | outside hown' hkey houtside =>
      exact houtside (hown.unique hown' ▸ hkeys _ hkey)

namespace Walk

open Session

variable {around : Surroundings} {t : Tree} {w : Walk}

/-- What bounds a child node are the limits of its parent, unless that is the root or has none
that can be used. -/
theorem Found.bounds_eq_some_iff {parent child : TreeNode} (h : Found around t w parent child)
    {outer : Limits} : child.bounds = some outer ↔
      parent.isRoot = false ∧ t.HasLimits around.store parent.object outer := by
  obtain ⟨_, d, hd, hbounds⟩ := h.bounds
  rw [hbounds, hd, nodeLimits_eq_some_iff]

theorem Found.strays_iff {parent child : TreeNode} (h : Found around t w parent child)
    {d : Dictionary} (hd : child.object = .dictionary d) :
    child.strays around t d = true ↔ t.Strays around.store parent child := by
  rw [← not_iff_not, Bool.not_eq_true, Tree.not_strays_iff, strays_eq_false_iff h.bounds.1, hd]
  simp only [h.bounds_eq_some_iff, and_imp]

/-- Every node that waits is the root or was found at the visit of another. -/
theorem found_of_waiting {s : Session} {root : Object} {reference : Option ObjectId}
    {path : String} {w : Walk} (h : Visits around t (start s t root reference path) w)
    {node : TreeNode} (hnode : node ∈ w.2) (hroot : node.isRoot = false) :
    ∃ parent, Found around t (start s t root reference path) parent node := by
  induction h with
  | refl =>
    rw [List.mem_singleton.1 hnode] at hroot
    cases hroot
  | tail hvisits hvisit ih =>
    cases hvisit with
    | first s first rest =>
      rcases List.mem_append.1 hnode with hwaiting | hnew
      · exact ih (List.mem_cons_of_mem first hwaiting)
      · exact ⟨first, .visiting s rest hvisits hnew⟩

/-- The visit of the root reports no violation of limits, and that of a child node which is a
dictionary reports one exactly if its limits are missing or unusable, go beyond those of the
parent, or leave out a key of its own. -/
theorem violations_walkTree (around : Surroundings) (t : Tree) {root : Object}
    {reference : Option ObjectId} {s : Session}
    (hfresh : (Identity.of root reference, t.title) ∉ s.record.pairs) (path : String) :
    let w := start s t root reference path
    Visits around t w (s.walkTree around t root reference path, []) ∧
      ∀ before node rest, Visits around t w (before, node :: rest) →
        let after := (before.visitNode around t node).1
        (node.isRoot = true → after.violations = before.violations) ∧
        ((∀ d, node.object ≠ .dictionary d) → after.violations = before.violations) ∧
        (node.isRoot = false → ∃ parent, Found around t w parent node) ∧
        ∀ parent, Found around t w parent node → ∀ d, node.object = .dictionary d →
          (t.Strays around.store parent node → after.violations = before.violations + 1) ∧
          (¬t.Strays around.store parent node → after.violations = before.violations) := by
  intro w
  refine ⟨visits_walkTree around t hfresh path, ?_⟩
  intro before node rest hvisits after
  have hwaits : node ∈ (before, node :: rest).2 := List.mem_cons_self
  refine ⟨?_, violations_visitNode_of_ne around t before, found_of_waiting hvisits hwaits, ?_⟩
  · intro hroot
    by_cases hdictionary : ∃ d, node.object = .dictionary d
    · obtain ⟨d, hd⟩ := hdictionary
      have hviolations := violations_visitNode around t before hd
      rwa [strays_of_isRoot hroot] at hviolations
    · exact violations_visitNode_of_ne around t before (not_exists.1 hdictionary)
  · intro parent hfound d hd
    have hviolations := violations_visitNode around t before hd
    rw [← hfound.strays_iff hd]
    refine ⟨fun hstrays => ?_, fun hfits => ?_⟩
    · rwa [hstrays] at hviolations
    · rwa [Bool.eq_false_of_not_eq_true hfits] at hviolations

end Walk

/-! A name tree with a leaf whose limits go beyond those of the node above it and leave out its
own key. -/
namespace Thorn

def id (n : UInt32) : ObjectId := ⟨n, 0⟩

def root : Object := .dictionary [("Kids", .array [.reference (id 2)])]

def bough : Object := .dictionary [("Kids", .array [.reference (id 3)]),
  ("Limits", .array [.string "a", .string "c"])]

def leaf : Object := .dictionary [("Limits", .array [.string "b", .string "d"]),
  ("Names", .array [.string "e", .reference (id 1)])]

def store : Store := ⟨none, [], [(id 1, root), (id 2, bough), (id 3, leaf)]⟩

def around : Surroundings := .still .empty store

def tree : Tree := ⟨.name, ["Page"]⟩

def session : Session := .start store (.ofFolder (.of "grammar")) none none

def start : Walk := .start session tree root (some (id 1)) ""

/-- The way to the first child node. -/
def first (path : String) : String := path ++ "/Kids[" ++ Number.showNat 0 ++ "]"

def parent : TreeNode := ⟨bough, first "", none, false⟩

def outer : Limits := ⟨.text "a", .text "c"⟩

def own : Limits := ⟨.text "b", .text "d"⟩

def child : TreeNode := ⟨leaf, first (first ""), some outer, false⟩

def above : Session := (start.1.visitNode around tree ⟨root, "", none, true⟩).1

def before : Session := (above.visitNode around tree parent).1

theorem meets_parent : (start.1.visitNode around tree ⟨root, "", none, true⟩).2 = [parent] := rfl

theorem meets_child : (above.visitNode around tree parent).2 = [child] := rfl

theorem visits_parent : Walk.Visits around tree start (above, [parent]) := by
  have hvisit : Walk.Visit around tree start _ := .first start.1 ⟨root, "", none, true⟩ []
  rw [meets_parent] at hvisit
  exact .single hvisit

theorem visits_child : Walk.Visits around tree start (before, [child]) := by
  have hvisit : Walk.Visit around tree (above, [parent]) _ := .first above parent []
  rw [meets_child] at hvisit
  exact visits_parent.tail hvisit

theorem strays : tree.Strays store parent child := by
  have hown : tree.HasLimits store leaf own := .bounds rfl rfl rfl (by decide +kernel)
  have houter : tree.HasLimits store bough outer := .bounds rfl rfl rfl (by decide +kernel)
  exact .beyond hown rfl houter fun hwithin => absurd hwithin.2 (by decide +kernel)

end Thorn

/-- Two things are wrong with the limits of the leaf, and one violation is reported. -/
theorem Walk.violations_walkTree_thorn :
    Visits Thorn.around Thorn.tree Thorn.start (Thorn.before, [Thorn.child]) ∧
      (Thorn.before.visitNode Thorn.around Thorn.tree Thorn.child).1.violations =
        Thorn.before.violations + 1 := by
  have hfresh : (Identity.of Thorn.root (some (Thorn.id 1)), Thorn.tree.title) ∉
      Thorn.session.record.pairs := List.not_mem_nil
  obtain ⟨_, hvisits⟩ := violations_walkTree Thorn.around Thorn.tree hfresh ""
  obtain ⟨_, _, _, hchild⟩ := hvisits Thorn.before Thorn.child [] Thorn.visits_child
  have hfound : Found Thorn.around Thorn.tree Thorn.start Thorn.parent Thorn.child :=
    .visiting Thorn.above [] Thorn.visits_parent (by rw [Thorn.meets_child]; simp)
  exact ⟨Thorn.visits_child, (hchild Thorn.parent hfound _ rfl).1 Thorn.strays⟩

end PdfConform
