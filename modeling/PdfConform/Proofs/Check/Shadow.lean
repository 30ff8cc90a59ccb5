import PdfConform.Proofs.Check.Simulation
import PdfConform.Proofs.Check.TreeTour

/-! One record for two kinds of names. Nodes are recorded under the title of their tree and checks
under a link, and no two of these names are the same, so what is recorded for one of them is not
seen by any other. -/
namespace PdfConform

namespace Session

/-- The session with these objects recorded as nodes of a tree. -/
def recordNodes (s : Session) (t : Tree) (nodes : List Identity) : Session :=
  nodes.foldl (fun s identity => (s.mark identity t.title).2) s

/-- The same session but for what is recorded under one name. -/
inductive SameBut (name : String) (s : Session) : Session → Prop
  | record (record : Record) :
    (∀ identity other, other ≠ name →
      ((identity, other) ∈ record.pairs ↔ (identity, other) ∈ s.record.pairs)) →
    SameBut name s { s with record }

namespace SameBut

variable {name : String} {s s' : Session}

theorem refl (name : String) (s : Session) : SameBut name s s := .record s.record fun _ _ _ => .rfl

theorem mark_name (h : SameBut name s s') (identity : Identity) :
    SameBut name s (s'.mark identity name).2 := by
  cases h with
  | record record hpairs =>
    refine .record (record.insert identity name).2 fun other link hlink => ?_
    rw [Record.mem_pairs_insert, hpairs other link hlink]
    exact or_iff_left fun hsame => hlink (Prod.mk.inj hsame).2

theorem recordNodes (s : Session) (t : Tree) (nodes : List Identity) :
    SameBut t.title s (s.recordNodes t nodes) := by
  suffices hall : ∀ s', SameBut t.title s s' → SameBut t.title s (s'.recordNodes t nodes) from
    hall s (refl _ _)
  induction nodes with
  | nil => exact fun s' h => h
  | cons identity nodes ih => exact fun s' h => ih _ (h.mark_name identity)

/-- Marking under another name finds the same and leaves the sessions the same. -/
theorem mark (h : SameBut name s s') (identity : Identity) {link : String} (hlink : link ≠ name) :
    Matches (SameBut name) (s.mark identity link) (s'.mark identity link) := by
  cases h with
  | record record hpairs =>
    constructor
    · refine Bool.eq_iff_iff.2 ?_
      change (s.record.insert identity link).1 = true ↔ (record.insert identity link).1 = true
      rw [Record.fresh_iff, Record.fresh_iff, hpairs identity link hlink]
    · refine .record (record.insert identity link).2 fun other link' hlink' => ?_
      change _ ↔ _ ∈ (s.record.insert identity link).2.pairs
      rw [Record.mem_pairs_insert, Record.mem_pairs_insert, hpairs other link' hlink']

theorem report (h : SameBut name s s') (found : List Finding) :
    SameBut name (s.report found) (s'.report found) := by
  cases h with
  | record record hpairs => exact .record record hpairs

theorem note (h : SameBut name s s') (event : Event) :
    SameBut name (s.note event) (s'.note event) := by
  cases h with
  | record record hpairs => exact .record record hpairs

theorem table (h : SameBut name s s') (around : Surroundings) (link : String) :
    Matches (SameBut name) (s.table around link) (s'.table around link) := by
  cases h with
  | record record hpairs => exact ⟨rfl, .record record hpairs⟩

theorem enqueue (h : SameBut name s s') (object : Object) (reference : Option ObjectId)
    {link : String} (hlink : link ≠ name) (path : String) :
    SameBut name (s.enqueue object reference link path)
      (s'.enqueue object reference link path) := by
  obtain ⟨hfresh, hmarked⟩ := h.mark (.of object reference) hlink
  unfold Session.enqueue
  dsimp only
  rw [← hfresh]
  split
  · generalize (s.mark (.of object reference) link).2 = a at hmarked ⊢
    generalize (s'.mark (.of object reference) link).2 = b at hmarked ⊢
    cases hmarked with
    | record record hpairs => exact .record record hpairs
  · exact hmarked.note _

/-- What is recorded under a name makes no difference where others are recorded under. -/
theorem congruentUnder (around : Surroundings) (name : String) :
    CongruentUnder around (· ≠ name) Eq (SameBut name) where
  extend rest hpath := congrArg (· ++ rest) hpath
  version h := by
    cases h with
    | record => rfl
  report hfound h := by
    rw [Finding.like_eq, List.forall₂_eq_eq_eq] at hfound
    exact hfound ▸ h.report _
  visit tree hpath h := hpath ▸ h.note _
  table link h := h.table around link
  mark identity link hlink h := h.mark identity hlink
  enqueue object reference link hlink hpath h := hpath ▸ h.enqueue object reference hlink _

end SameBut

end Session

/-- The title of a tree tells the tree from all others, and is no name of a link. So objects that
are recorded as nodes of one tree are visited as nodes of any other, and queued for any link, as if
they were not: the log, the queue and the findings are the same, and so is the record but for these
nodes. Nor does a node become known by what is recorded for a link. -/
theorem Tree.title_shadows_nothing {segment segment' : String} {t t' : Tree}
    (h : Row.parseLinks segment = .ok t.links) (h' : Row.parseLinks segment' = .ok t'.links) :
    (t.title = t'.title → t.kind = t'.kind ∧ t.links = t'.links) ∧
      (∀ link ∈ t'.links, t.title ≠ link) ∧
      ∀ (around : Surroundings) (s : Session) (nodes : List Identity) (object : Object)
        (reference : Option ObjectId) (path : String),
        (t ≠ t' → Session.SameBut t.title (s.walkTree around t' object reference path)
          ((s.recordNodes t nodes).walkTree around t' object reference path)) ∧
        ∀ link ∈ t'.links,
          Session.SameBut t.title (s.enqueue object reference link path)
              ((s.recordNodes t nodes).enqueue object reference link path) ∧
            ∀ node, ((s.mark (.of object reference) link).2.mark node t.title).1 =
              (s.mark node t.title).1 := by
  have hnames := Row.isLinkName_of_parseLinks h
  have hnames' := Row.isLinkName_of_parseLinks h'
  have hlinks : ∀ link ∈ t'.links, link ≠ t.title :=
    fun link hlink => Tree.title_ne (hnames' link hlink) t
  refine ⟨?_, fun link hlink => (hlinks link hlink).symm, ?_⟩
  · intro htitle
    obtain rfl := Tree.title_inj hnames hnames' htitle
    exact ⟨rfl, rfl⟩
  · intro around s nodes object reference path
    have hknown := Session.SameBut.recordNodes s t nodes
    refine ⟨fun hne => ?_, fun link hlink => ⟨?_, fun node => ?_⟩⟩
    · have hother : ∀ name, t'.RecordsUnder name → name ≠ t.title := by
        rintro name (rfl | hlink)
        · exact fun htitle => hne (Tree.title_inj hnames hnames' htitle.symm)
        · exact hlinks name hlink
      have cong := (Session.SameBut.congruentUnder around t.title).mono hother
      exact cong.walkTree object reference rfl hknown
    · exact hknown.enqueue object reference (hlinks link hlink) path
    · have hchecked := (Session.SameBut.refl link s).mark_name (.of object reference)
      exact (hchecked.mark node (hlinks link hlink).symm).1.symm

/-! The places of a tree, some of them containers to be checked, as nodes of a tree with one more
link. -/
namespace Thicket

def other : Tree := ⟨.name, ["Page", "Dest-1"]⟩

def known : Session :=
  session.recordNodes other ([1, 2, 3, 5, 7, 8].map fun n => .indirect (id n))

end Thicket

theorem Tree.title_shadows_nothing_thicket :
    Row.parseLinks " [ Page ,, Dest-1 ]" = .ok Thicket.other.links ∧
      Row.parseLinks "Page" = .ok Thicket.tree.links ∧
      Thicket.known.record.under Thicket.other.title =
        [1, 2, 3, 5, 7, 8].map (fun n => .indirect (Thicket.id n)) ∧
      (let rewalked := Thicket.known.walkTree Thicket.around Thicket.tree Thicket.root
        (some (Thicket.id 1)) ""
      rewalked.visits.length = 4 ∧ rewalked.queue.length = 3 ∧
        Session.SameBut Thicket.other.title Thicket.walked rewalked) ∧
      Session.SameBut Thicket.other.title
        (Thicket.session.enqueue (.dictionary []) (some (Thicket.id 5)) "Page" "")
        (Thicket.known.enqueue (.dictionary []) (some (Thicket.id 5)) "Page" "") := by
  have hother : Row.parseLinks " [ Page ,, Dest-1 ]" = .ok Thicket.other.links := by
    decide +kernel
  have hown : Row.parseLinks "Page" = .ok Thicket.tree.links := by decide +kernel
  obtain ⟨_, _, hunseen⟩ := Tree.title_shadows_nothing hother hown
  obtain ⟨hwalk, _⟩ := hunseen Thicket.around Thicket.session
    ([1, 2, 3, 5, 7, 8].map fun n => .indirect (Thicket.id n)) Thicket.root (some (Thicket.id 1)) ""
  obtain ⟨_, hqueue⟩ := hunseen Thicket.around Thicket.session
    ([1, 2, 3, 5, 7, 8].map fun n => .indirect (Thicket.id n)) (.dictionary [])
    (some (Thicket.id 5)) ""
  refine ⟨hother, hown, by decide +kernel, ⟨by decide +kernel, by decide +kernel, ?_⟩, ?_⟩
  · exact hwalk (by decide)
  · exact (hqueue "Page" (by decide)).1

end PdfConform
