import Mathlib.Data.List.Nodup
import Mathlib.Data.List.Perm.Subperm
import PdfConform.Proofs.Check.Layout

/-! Ways down a tree. A tree none of whose nodes is reached twice is finite, and so has a layout,
whose nodes are all different. -/
namespace PdfConform

theorem getElem?_of_forall₂ {α β : Type} {R : α → β → Prop} {xs : List α} {ys : List β}
    (h : List.Forall₂ R xs ys) {i : Nat} {x : α} (hx : xs[i]? = some x) :
    ∃ y, ys[i]? = some y ∧ R x y := by
  induction h generalizing i with
  | nil => simp at hx
  | cons hfirst _ ih =>
    cases i with
    | zero =>
      cases hx
      exact ⟨_, rfl, hfirst⟩
    | succ i => exact ih hx

namespace Layout

mutual

private theorem induct_node {P : Layout → Prop}
    (step : ∀ layout : Layout, (∀ kid ∈ layout.kids, P kid) → P layout) : ∀ layout, P layout
  | .node _ _ _ kids => step _ (induct_kids step kids)

private theorem induct_kids {P : Layout → Prop}
    (step : ∀ layout : Layout, (∀ kid ∈ layout.kids, P kid) → P layout) :
    ∀ kids : List Layout, ∀ kid ∈ kids, P kid
  | [] => nofun
  | kid :: kids => List.forall_mem_cons.2 ⟨induct_node step kid, induct_kids step kids⟩

end

/-- What holds of a node once it holds of its child nodes holds of every node. -/
theorem kids_induct {P : Layout → Prop}
    (step : ∀ layout : Layout, (∀ kid ∈ layout.kids, P kid) → P layout) (layout : Layout) :
    P layout :=
  induct_node step layout

theorem mem_beneath {layout : Layout} {identity : Identity} :
    identity ∈ layout.beneath ↔ ∃ kid ∈ layout.kids, identity ∈ kid.identities := by
  rw [beneath, identitiesOf_eq, List.mem_flatMap]

theorem nodup_beneath {layout : Layout} : layout.beneath.Nodup ↔
    (∀ kid ∈ layout.kids, kid.identities.Nodup) ∧
      layout.kids.Pairwise fun a b => a.identities.Disjoint b.identities := by
  rw [beneath, identitiesOf_eq, List.nodup_flatMap]

theorem nodup_of_mem_kids {layout kid : Layout} (h : layout.beneath.Nodup)
    (hkid : kid ∈ layout.kids) : kid.identities.Nodup :=
  (nodup_beneath.1 h).1 kid hkid

/-- No two child nodes have a node below them in common. -/
theorem eq_of_mem_identities {layout : Layout} (h : layout.beneath.Nodup) {i j : Nat}
    {kid kid' : Layout} (hkid : layout.kids[i]? = some kid) (hkid' : layout.kids[j]? = some kid')
    {identity : Identity} (hidentity : identity ∈ kid.identities)
    (hidentity' : identity ∈ kid'.identities) : i = j := by
  have hdisjoint := List.pairwise_iff_getElem.1 (nodup_beneath.1 h).2
  obtain ⟨hi, rfl⟩ := List.getElem?_eq_some_iff.1 hkid
  obtain ⟨hj, rfl⟩ := List.getElem?_eq_some_iff.1 hkid'
  rcases Nat.lt_trichotomy i j with hless | hsame | hmore
  · exact absurd hidentity' (hdisjoint i j hi hj hless hidentity)
  · exact hsame
  · exact absurd hidentity (hdisjoint j i hj hi hmore hidentity')

end Layout

namespace Tree

/-- The node at the end of a way down, which goes on at the child node of each number. -/
def placeAt (store : Store) (place : Place) : List Nat → Option Place
  | [] => some place
  | i :: way => (childrenOf store place.1)[i]?.bind fun child => placeAt store child way

/-- No node is reached on two ways. -/
def ReachedOnce (store : Store) (root : Place) : Prop :=
  ∀ way way' place place', placeAt store root way = some place →
    placeAt store root way' = some place' → place.identity = place'.identity → way = way'

variable {t : Tree} {store : Store}

theorem placeAt_append (place : Place) (way more : List Nat) :
    placeAt store place (way ++ more) = (placeAt store place way).bind (placeAt store · more) := by
  induction way generalizing place with
  | nil => rfl
  | cons i way ih =>
    rw [List.cons_append, placeAt, placeAt, Option.bind_assoc]
    simp only [ih]

theorem placeAt_cons {place child : Place} {i : Nat}
    (h : (childrenOf store place.1)[i]? = some child) (way : List Nat) :
    placeAt store place (i :: way) = placeAt store child way := by
  rw [placeAt, h, Option.bind_some]

theorem ReachedOnce.child {place child : Place} {i : Nat} (h : ReachedOnce store place)
    (hchild : (childrenOf store place.1)[i]? = some child) : ReachedOnce store child := by
  intro way way' found found' hfound hfound' hsame
  have hway := h (i :: way) (i :: way') found found' (by rw [placeAt_cons hchild, hfound])
    (by rw [placeAt_cons hchild, hfound']) hsame
  exact (List.cons.inj hway).2

section Finite

variable {root : Object}

theorem identity_mem_of_placeAt {place found : Place} (hplace : store.Holds [root] place.1)
    {way : List Nat} (hway : way ≠ []) (h : placeAt store place way = some found) :
    found.identity ∈ store.identities [root] := by
  induction way generalizing place with
  | nil => exact absurd rfl hway
  | cons i way ih =>
    obtain ⟨child, hchild, h⟩ := Option.bind_eq_some_iff.1 h
    obtain ⟨value, hvalue, hfound⟩ :=
      nested_of_mem_childrenOf (store.spans_holds [root]) hplace (List.mem_of_getElem? hchild)
    cases way with
    | nil =>
      cases h
      exact Store.mem_identities hvalue hfound
    | cons j way =>
      exact ih ((store.spans_holds [root]).dereference hvalue hfound) (List.cons_ne_nil j way) h

/-- Ways are no longer than there are identities, if no node is reached twice. -/
theorem ReachedOnce.length_le {reference : Option ObjectId}
    (h : ReachedOnce store (root, reference)) {way : List Nat} {found : Place}
    (hfound : placeAt store (root, reference) way = some found) :
    way.length ≤ (store.identities [root]).length := by
  have hroot : store.Holds [root] root :=
    ⟨root, List.mem_append_left _ (List.mem_singleton_self root), root.mem_parts_self⟩
  have hprefix (k : Nat) : ∃ place, placeAt store (root, reference) (way.take k) = some place := by
    rw [← List.take_append_drop k way, placeAt_append] at hfound
    obtain ⟨place, hplace, _⟩ := Option.bind_eq_some_iff.1 hfound
    exact ⟨place, hplace⟩
  choose place hplace using hprefix
  have hsubset : (List.range way.length).map (fun k => (place (k + 1)).identity) ⊆
      store.identities [root] := by
    intro identity hidentity
    obtain ⟨k, hk, rfl⟩ := List.mem_map.1 hidentity
    have hlength : k < way.length := List.mem_range.1 hk
    refine identity_mem_of_placeAt hroot ?_ (hplace (k + 1))
    rw [ne_eq, List.take_eq_nil_iff, ← List.length_eq_zero_iff]
    omega
  have hnodup : ((List.range way.length).map fun k => (place (k + 1)).identity).Nodup := by
    refine List.Nodup.map_on ?_ List.nodup_range
    intro i hi j hj hsame
    have hways := congrArg List.length (h _ _ _ _ (hplace (i + 1)) (hplace (j + 1)) hsame)
    rw [List.length_take, List.length_take] at hways
    have hi := List.mem_range.1 hi
    have hj := List.mem_range.1 hj
    omega
  have hlength := (hnodup.subperm hsubset).length_le
  rwa [List.length_map, List.length_range] at hlength

end Finite

/-- The layout of a node to some depth. -/
def layoutTo (t : Tree) (store : Store) : Nat → Place → Layout
  | 0, place => .node place.identity (t.limitsAt store place.1) (t.keysAt store place.1) []
  | depth + 1, place => .node place.identity (t.limitsAt store place.1) (t.keysAt store place.1)
      ((childrenOf store place.1).map (layoutTo t store depth))

theorem unfolds_layoutTo {depth : Nat} {place : Place}
    (h : ∀ way, way.length = depth + 1 → placeAt store place way = none) :
    t.Unfolds store place (t.layoutTo store depth place) := by
  induction depth generalizing place with
  | zero =>
    refine .node ?_
    cases hchildren : childrenOf store place.1 with
    | nil => exact .nil
    | cons child children =>
      have hfirst : (childrenOf store place.1)[0]? = some child := by
        rw [hchildren]
        rfl
      have hway := h [0] rfl
      rw [placeAt_cons hfirst] at hway
      cases hway
  | succ depth ih =>
    refine .node (List.forall₂_map_right_iff.2 (List.forall₂_same.2 fun child hchild => ?_))
    obtain ⟨i, hi⟩ := List.mem_iff_getElem?.1 hchild
    refine ih fun way hway => ?_
    rw [← placeAt_cons hi, h (i :: way) (by rw [List.length_cons, hway])]

section Unfolds

variable {place : Place} {layout : Layout}

theorem Unfolds.kid (h : t.Unfolds store place layout) {i : Nat} {child : Place}
    (hchild : (childrenOf store place.1)[i]? = some child) :
    ∃ kid, layout.kids[i]? = some kid ∧ t.Unfolds store child kid :=
  getElem?_of_forall₂ h.kids hchild

theorem Unfolds.child (h : t.Unfolds store place layout) {i : Nat} {kid : Layout}
    (hkid : layout.kids[i]? = some kid) :
    ∃ child, (childrenOf store place.1)[i]? = some child ∧ t.Unfolds store child kid :=
  getElem?_of_forall₂ h.kids.flip hkid

theorem Unfolds.child_of_mem (h : t.Unfolds store place layout) {kid : Layout}
    (hkid : kid ∈ layout.kids) :
    ∃ (i : Nat) (child : Place), (childrenOf store place.1)[i]? = some child ∧
      t.Unfolds store child kid := by
  obtain ⟨i, hi⟩ := List.mem_iff_getElem?.1 hkid
  exact ⟨i, h.child hi⟩

/-- A node has one layout at most. -/
theorem Unfolds.unique {layout' : Layout} (h : t.Unfolds store place layout)
    (h' : t.Unfolds store place layout') : layout = layout' := by
  induction layout using Layout.kids_induct generalizing place layout' with
  | step layout ih =>
    have hkids : layout.kids = layout'.kids := by
      apply List.ext_getElem?
      intro i
      cases hkid : layout.kids[i]? with
      | none =>
        rw [List.getElem?_eq_none_iff, ← h.kids.length_eq, h'.kids.length_eq] at hkid
        rw [List.getElem?_eq_none_iff.2 hkid]
      | some kid =>
        obtain ⟨child, hchild, hunfolds⟩ := h.child hkid
        obtain ⟨kid', hkid', hunfolds'⟩ := h'.kid hchild
        rw [hkid', ih kid (List.mem_of_getElem? hkid) hunfolds hunfolds']
    cases h
    cases h'
    exact congrArg (Layout.node _ _ _) hkids

/-- The nodes of a layout are those at the ends of ways. -/
theorem Unfolds.mem_identities (h : t.Unfolds store place layout) {identity : Identity} :
    identity ∈ layout.identities ↔
      ∃ way found, placeAt store place way = some found ∧ found.identity = identity := by
  induction layout using Layout.kids_induct generalizing place with
  | step layout ih =>
    rw [Layout.identities_eq, List.mem_cons, h.identity, Layout.mem_beneath]
    constructor
    · rintro (rfl | ⟨kid, hkid, hidentity⟩)
      · exact ⟨[], place, rfl, rfl⟩
      · obtain ⟨i, child, hchild, hunfolds⟩ := h.child_of_mem hkid
        obtain ⟨way, found, hfound, hsame⟩ := (ih kid hkid hunfolds).1 hidentity
        exact ⟨i :: way, found, by rw [placeAt_cons hchild, hfound], hsame⟩
    · rintro ⟨way, found, hfound, rfl⟩
      cases way with
      | nil =>
        cases hfound
        exact .inl rfl
      | cons i way =>
        obtain ⟨child, hchild, hfound⟩ := Option.bind_eq_some_iff.1 hfound
        obtain ⟨kid, hkid, hunfolds⟩ := h.kid hchild
        have hmem := List.mem_of_getElem? hkid
        exact .inr ⟨kid, hmem, (ih kid hmem hunfolds).2 ⟨way, found, hfound, rfl⟩⟩

theorem Unfolds.nodup (h : t.Unfolds store place layout) (honce : ReachedOnce store place) :
    layout.identities.Nodup := by
  induction layout using Layout.kids_induct generalizing place with
  | step layout ih =>
    rw [Layout.identities_eq, List.nodup_cons, Layout.nodup_beneath]
    refine ⟨?_, ?_, ?_⟩
    · intro hidentity
      obtain ⟨kid, hkid, hidentity⟩ := Layout.mem_beneath.1 hidentity
      obtain ⟨i, child, hchild, hunfolds⟩ := h.child_of_mem hkid
      obtain ⟨way, found, hfound, hsame⟩ := hunfolds.mem_identities.1 hidentity
      have hways := honce (i :: way) [] found place (by rw [placeAt_cons hchild, hfound]) rfl
        (by rw [hsame, h.identity])
      cases hways
    · intro kid hkid
      obtain ⟨i, child, hchild, hunfolds⟩ := h.child_of_mem hkid
      exact ih kid hkid hunfolds (honce.child hchild)
    · rw [List.pairwise_iff_getElem]
      intro i j hi hj hless identity hidentity hidentity'
      obtain ⟨child, hchild, hunfolds⟩ := h.child (List.getElem?_eq_getElem hi)
      obtain ⟨child', hchild', hunfolds'⟩ := h.child (List.getElem?_eq_getElem hj)
      obtain ⟨way, found, hfound, hsame⟩ := hunfolds.mem_identities.1 hidentity
      obtain ⟨way', found', hfound', hsame'⟩ := hunfolds'.mem_identities.1 hidentity'
      have hways := honce (i :: way) (j :: way') found found'
        (by rw [placeAt_cons hchild, hfound]) (by rw [placeAt_cons hchild', hfound'])
        (hsame.trans hsame'.symm)
      have hsame : i = j := (List.cons.inj hways).1
      omega

/-- A way into a child node ends at one of the nodes of that child node's layout. -/
theorem Unfolds.into (h : t.Unfolds store place layout) {i : Nat} {way : List Nat}
    {found : Place} (hfound : placeAt store place (i :: way) = some found) :
    ∃ child kid, (childrenOf store place.1)[i]? = some child ∧ layout.kids[i]? = some kid ∧
      t.Unfolds store child kid ∧ placeAt store child way = some found ∧
      found.identity ∈ kid.identities := by
  obtain ⟨child, hchild, hfound⟩ := Option.bind_eq_some_iff.1 hfound
  obtain ⟨kid, hkid, hunfolds⟩ := h.kid hchild
  exact ⟨child, kid, hchild, hkid, hunfolds, hfound,
    hunfolds.mem_identities.2 ⟨way, found, hfound, rfl⟩⟩

theorem Unfolds.reachedOnce (h : t.Unfolds store place layout) (hnodup : layout.identities.Nodup) :
    ReachedOnce store place := by
  induction layout using Layout.kids_induct generalizing place with
  | step layout ih =>
    rw [Layout.identities_eq, List.nodup_cons, h.identity] at hnodup
    obtain ⟨hroot, hbeneath⟩ := hnodup
    have hbelow : ∀ i way found, placeAt store place (i :: way) = some found →
        found.identity ≠ place.identity := by
      intro i way found hfound hsame
      obtain ⟨_, kid, _, hkid, _, _, hidentity⟩ := h.into hfound
      exact hroot (hsame ▸ Layout.mem_beneath.2 ⟨kid, List.mem_of_getElem? hkid, hidentity⟩)
    intro way way' found found' hfound hfound' hsame
    cases way with
    | nil =>
      cases hfound
      cases way' with
      | nil => rfl
      | cons j way' => exact absurd hsame.symm (hbelow j way' found' hfound')
    | cons i way =>
      cases way' with
      | nil =>
        cases hfound'
        exact absurd hsame (hbelow i way found hfound)
      | cons j way' =>
        obtain ⟨child, kid, hchild, hkid, hunfolds, hfound, hidentity⟩ := h.into hfound
        obtain ⟨child', kid', hchild', hkid', _, hfound', hidentity'⟩ := h.into hfound'
        -- Both ways go through one child node, so that the rest is a matter of that node.
        obtain rfl := Layout.eq_of_mem_identities hbeneath hkid hkid' hidentity (hsame ▸ hidentity')
        rw [hchild] at hchild'
        cases hchild'
        have hmem := List.mem_of_getElem? hkid
        have honce := ih kid hmem hunfolds (Layout.nodup_of_mem_kids hbeneath hmem)
        rw [honce way way' found found' hfound hfound' hsame]

end Unfolds

/-- A tree has a layout of different nodes if and only if no node is reached twice. -/
theorem reachedOnce_iff {root : Object} {reference : Option ObjectId} :
    ReachedOnce store (root, reference) ↔
      ∃ layout, t.Unfolds store (root, reference) layout ∧ layout.identities.Nodup := by
  constructor
  · intro honce
    have hunfolds : t.Unfolds store (root, reference)
        (t.layoutTo store (store.identities [root]).length (root, reference)) := by
      apply unfolds_layoutTo
      intro way hway
      by_contra hplace
      obtain ⟨found, hfound⟩ := Option.ne_none_iff_exists'.1 hplace
      have hlength := honce.length_le hfound
      omega
    exact ⟨_, hunfolds, hunfolds.nodup honce⟩
  · rintro ⟨layout, hunfolds, hnodup⟩
    exact hunfolds.reachedOnce hnodup

end Tree

end PdfConform
