import PdfConform.Proofs.Check.RunStep
import PdfConform.Proofs.Schema.WellFormed

/-! What goes through the queue of a session. The log tells what was put in, in what order
it came out, and what became of it. -/
namespace PdfConform

namespace Event

def seed? : Event → Option WorkItem
  | .seeded item => some item
  | _ => none

def discovered? : Event → Option WorkItem
  | .queued item => some item
  | _ => none

def put? : Event → Option WorkItem
  | .seeded item | .queued item => some item
  | _ => none

def checked? : Event → Option WorkItem
  | .checked item => some item
  | _ => none

def dropped? : Event → Option WorkItem
  | .dropped item => some item
  | _ => none

def taken? : Event → Option WorkItem
  | .checked item | .dropped item => some item
  | _ => none

/-- A pair that a check came upon, whether or not it was queued then. -/
def met? : Event → Option (Identity × String)
  | .queued item => some item.pair
  | .repeated identity link => some (identity, link)
  | _ => none

end Event

namespace Session

def seeds (s : Session) : List WorkItem := s.log.filterMap Event.seed?

/-- The items that were queued because a check came upon them. -/
def discovered (s : Session) : List WorkItem := s.log.filterMap Event.discovered?

def put (s : Session) : List WorkItem := s.log.filterMap Event.put?

def checkedItems (s : Session) : List WorkItem := s.log.filterMap Event.checked?

/-- The items that left the queue without a table. -/
def dropped (s : Session) : List WorkItem := s.log.filterMap Event.dropped?

def taken (s : Session) : List WorkItem := s.log.filterMap Event.taken?

def met (s : Session) : List (Identity × String) := s.log.filterMap Event.met?

/-- Where a pair can be that ever went into the queue. -/
def accounted (s : Session) : List (Identity × String) :=
  s.checked ++ s.dropped.map WorkItem.pair ++ s.queue.map WorkItem.pair

theorem perm_put (s : Session) : s.put.Perm (s.seeds ++ s.discovered) := by
  unfold put seeds discovered
  induction s.log with
  | nil => exact .nil
  | cons event log ih =>
    cases event with
    | seeded item => exact ih.cons item
    | queued item => exact (ih.cons item).trans List.perm_middle.symm
    | _ => exact ih

theorem perm_taken (s : Session) : s.taken.Perm (s.checkedItems ++ s.dropped) := by
  unfold taken checkedItems dropped
  induction s.log with
  | nil => exact .nil
  | cons event log ih =>
    cases event with
    | checked item => exact ih.cons item
    | dropped item => exact (ih.cons item).trans List.perm_middle.symm
    | _ => exact ih

end Session

theorem Tree.title_ne {link : String} (h : IsLinkName link) (t : Tree) : link ≠ t.title := by
  rintro rfl
  have hmark : '<' ∈ t.title.toList := by simp [title]
  exact absurd (h.2 '<' hmark) (by decide)

/-- What holds of a log, a queue, the pairs checked and the pairs recorded, whatever was
done with a session. -/
structure Ledger (log : List Event) (queue : List WorkItem)
    (checked recorded : List (Identity × String)) : Prop where
  order : log.filterMap Event.put? = log.filterMap Event.taken? ++ queue
  checked : checked = (log.filterMap Event.checked?).map WorkItem.pair
  seeds : ∀ item ∈ log.filterMap Event.seed?, item.pair ∈ recorded
  met : ∀ pair ∈ log.filterMap Event.met?, pair ∈ recorded ∧ IsLinkName pair.2
  discovered : ∀ item ∈ log.filterMap Event.discovered?, item.pair ∈ recorded
  nodup : ((log.filterMap Event.discovered?).map WorkItem.pair).Nodup
  origin : ∀ pair ∈ recorded,
    pair ∈ (log.filterMap Event.put?).map WorkItem.pair ∨ ∃ t : Tree, pair.2 = t.title

theorem filterMap_snoc {α β : Type} (view : α → Option β) (log : List α) (event : α) :
    (log ++ [event]).filterMap view = log.filterMap view ++ (view event).toList := by
  rw [List.filterMap_append, List.filterMap_cons]
  cases view event <;> rfl

namespace Ledger

variable {log : List Event} {queue : List WorkItem} {item : WorkItem}
  {checked recorded recorded' : List (Identity × String)}

theorem empty : Ledger [] [] [] [] := by
  constructor <;> simp

theorem visited (h : Ledger log queue checked recorded) (tree path : String) :
    Ledger (log ++ [.visited tree path]) queue checked recorded := by
  obtain ⟨horder, hchecked, hseeds, hmet, hdiscovered, hnodup, horigin⟩ := h
  constructor <;> simpa only [filterMap_snoc, Event.put?, Event.taken?, Event.checked?,
    Event.seed?, Event.met?, Event.discovered?, Option.toList_none, List.append_nil]

/-- A tree walk records its nodes under a name that no link has. -/
theorem node (h : Ledger log queue checked recorded) {identity : Identity} (t : Tree)
    (hrecorded : ∀ pair, pair ∈ recorded' ↔ pair ∈ recorded ∨ pair = (identity, t.title)) :
    Ledger log queue checked recorded' := by
  have hkept : recorded ⊆ recorded' := fun pair hpair => (hrecorded pair).2 (.inl hpair)
  refine ⟨h.order, h.checked, ?_, ?_, ?_, h.nodup, ?_⟩
  · exact fun item hitem => hkept (h.seeds item hitem)
  · exact fun pair hpair => ⟨hkept (h.met pair hpair).1, (h.met pair hpair).2⟩
  · exact fun item hitem => hkept (h.discovered item hitem)
  · intro pair hpair
    rcases (hrecorded pair).1 hpair with hpair | rfl
    · exact h.origin pair hpair
    · exact .inr ⟨t, rfl⟩

theorem repeated (h : Ledger log queue checked recorded) {identity : Identity} {link : String}
    (hpair : (identity, link) ∈ recorded) (hname : IsLinkName link) :
    Ledger (log ++ [.repeated identity link]) queue checked recorded := by
  obtain ⟨horder, hchecked, hseeds, hmet, hdiscovered, hnodup, horigin⟩ := h
  constructor <;> simp only [filterMap_snoc, Event.put?, Event.taken?, Event.checked?,
    Event.seed?, Event.met?, Event.discovered?, Option.toList_none, Option.toList_some,
    List.append_nil, List.mem_append, List.mem_singleton]
  case met =>
    rintro pair (hold | rfl)
    · exact hmet pair hold
    · exact ⟨hpair, hname⟩
  all_goals assumption

/-- A pair that was not recorded goes into the queue. -/
theorem queued (h : Ledger log queue checked recorded) (hfresh : item.pair ∉ recorded)
    (hname : IsLinkName item.link)
    (hrecorded : ∀ pair, pair ∈ recorded' ↔ pair ∈ recorded ∨ pair = item.pair) :
    Ledger (log ++ [.queued item]) (queue ++ [item]) checked recorded' := by
  obtain ⟨horder, hchecked, hseeds, hmet, hdiscovered, hnodup, horigin⟩ := h
  have hkept : recorded ⊆ recorded' := fun pair hpair => (hrecorded pair).2 (.inl hpair)
  have hitem : item.pair ∈ recorded' := (hrecorded _).2 (.inr rfl)
  constructor <;> simp only [filterMap_snoc, Event.put?, Event.taken?, Event.checked?,
    Event.seed?, Event.met?, Event.discovered?, Option.toList_none, Option.toList_some,
    List.append_nil, List.mem_append, List.mem_singleton, List.map_append, List.map_singleton]
  case order => rw [horder, List.append_assoc]
  case checked => exact hchecked
  case seeds => exact fun seed hseed => hkept (hseeds seed hseed)
  case met =>
    rintro pair (hold | rfl)
    · exact ⟨hkept (hmet pair hold).1, (hmet pair hold).2⟩
    · exact ⟨hitem, hname⟩
  case discovered =>
    rintro other (hold | rfl)
    · exact hkept (hdiscovered other hold)
    · exact hitem
  case nodup =>
    refine List.nodup_append.2 ⟨hnodup, List.pairwise_singleton _ _, ?_⟩
    rintro pair hpair other hother rfl
    obtain ⟨old, hold, hsame⟩ := List.mem_map.1 hpair
    rw [List.mem_singleton.1 hother] at hsame
    exact hfresh (hsame ▸ hdiscovered old hold)
  case origin =>
    intro pair hpair
    rcases (hrecorded pair).1 hpair with hpair | rfl
    · exact (horigin pair hpair).imp_left .inl
    · exact .inl (.inr rfl)

theorem seeded (h : Ledger log queue checked recorded)
    (hrecorded : ∀ pair, pair ∈ recorded' ↔ pair ∈ recorded ∨ pair = item.pair) :
    Ledger (log ++ [.seeded item]) (queue ++ [item]) checked recorded' := by
  obtain ⟨horder, hchecked, hseeds, hmet, hdiscovered, hnodup, horigin⟩ := h
  have hkept : recorded ⊆ recorded' := fun pair hpair => (hrecorded pair).2 (.inl hpair)
  constructor <;> simp only [filterMap_snoc, Event.put?, Event.taken?, Event.checked?,
    Event.seed?, Event.met?, Event.discovered?, Option.toList_none, Option.toList_some,
    List.append_nil, List.mem_append, List.mem_singleton, List.map_append, List.map_singleton]
  case order => rw [horder, List.append_assoc]
  case checked => exact hchecked
  case seeds =>
    rintro seed (hold | rfl)
    · exact hkept (hseeds seed hold)
    · exact (hrecorded _).2 (.inr rfl)
  case met => exact fun pair hpair => ⟨hkept (hmet pair hpair).1, (hmet pair hpair).2⟩
  case discovered => exact fun other hother => hkept (hdiscovered other hother)
  case nodup => exact hnodup
  case origin =>
    intro pair hpair
    rcases (hrecorded pair).1 hpair with hpair | rfl
    · exact (horigin pair hpair).imp_left .inl
    · exact .inl (.inr rfl)

theorem checked_of_taken (h : Ledger log (item :: queue) checked recorded) :
    Ledger (log ++ [.checked item]) queue (checked ++ [item.pair]) recorded := by
  obtain ⟨horder, hchecked, hseeds, hmet, hdiscovered, hnodup, horigin⟩ := h
  constructor <;> simp only [filterMap_snoc, Event.put?, Event.taken?, Event.checked?,
    Event.seed?, Event.met?, Event.discovered?, Option.toList_none, Option.toList_some,
    List.append_nil, List.map_append, List.map_singleton]
  case order => rw [horder, List.append_assoc]; rfl
  case checked => rw [hchecked]
  all_goals assumption

theorem dropped_of_taken (h : Ledger log (item :: queue) checked recorded) :
    Ledger (log ++ [.dropped item]) queue checked recorded := by
  obtain ⟨horder, hchecked, hseeds, hmet, hdiscovered, hnodup, horigin⟩ := h
  constructor <;> simp only [filterMap_snoc, Event.put?, Event.taken?, Event.checked?,
    Event.seed?, Event.met?, Event.discovered?, Option.toList_none, Option.toList_some,
    List.append_nil]
  case order => rw [horder, List.append_assoc]; rfl
  all_goals assumption

end Ledger

namespace Session

/-- The session's own log, queue and record make a ledger. -/
def Balanced (s : Session) : Prop := Ledger s.log s.queue s.checked s.record.pairs

theorem balanced_start (store : Store) (cache : Cache) (version : Option Version)
    (budget : Option Nat) : (start store cache version budget).Balanced :=
  Ledger.empty

theorem mem_pairs_mark {s : Session} {identity : Identity} {link : String}
    {pair : Identity × String} :
    pair ∈ (s.mark identity link).2.record.pairs ↔
      pair ∈ s.record.pairs ∨ pair = (identity, link) :=
  Record.mem_pairs_insert

theorem Balanced.seed {s : Session} (h : s.Balanced) (store : Store) (object : Object)
    (link path : String) : (s.seed store object link path).Balanced :=
  Ledger.seeded h fun _ => mem_pairs_mark

theorem Balanced.enqueue {s : Session} (h : s.Balanced) (object : Object)
    (reference : Option ObjectId) {link : String} (hname : IsLinkName link) (path : String) :
    (s.enqueue object reference link path).Balanced := by
  have hchecked : (s.enqueue object reference link path).checked = s.checked := by rw [enqueue_eq]
  obtain ⟨hrecord, ⟨hnew, hqueue, hlog⟩ | ⟨hpair, hqueue, hlog⟩⟩ :=
    enqueue_cases s object reference link path
  all_goals
    unfold Balanced
    rw [hlog, hqueue, hchecked, hrecord]
  · exact Ledger.queued h hnew hname fun _ => mem_pairs_mark
  · have hpairs : (s.mark (.of object reference) link).2.record.pairs = s.record.pairs := by
      change (s.record.insert _ _).2.pairs = _
      rw [Record.pairs_insert, if_pos hpair]
    have hledger := Ledger.repeated h hpair hname
    rw [← hpairs] at hledger
    exact hledger

variable {around : Surroundings} {known : Object → Prop} {declared : List String → Prop}

theorem Balanced.step (hnames : ∀ links, declared links → ∀ link ∈ links, IsLinkName link)
    {s s' : Session} (hstep : Step around known declared s s') (h : s.Balanced) :
    s'.Balanced := by
  cases hstep with
  | report found => exact h
  | lookup link => exact h
  | visit tree path => exact Ledger.visited h tree path
  | node t _ _ _ => exact Ledger.node h t fun _ => mem_pairs_mark
  | enqueue path hlinks hlink _ _ _ => exact h.enqueue _ _ (hnames _ hlinks _ hlink) path

theorem Balanced.checkObject {s : Session} (h : s.Balanced) {table : Table}
    (htable : ∀ row ∈ table.rows, row.WellFormed) (item : WorkItem) :
    (s.checkObject around item table).Balanced := by
  have hnames : ∀ links, table.Declares links → ∀ link ∈ links, IsLinkName link := by
    rintro links ⟨row, hrow, hlinks⟩
    exact (htable row hrow).names links hlinks
  exact checkObject_keep (Balanced.step hnames) item h

end Session

end PdfConform
