import PdfConform.Proofs.Check.Congruence

/-! Sessions that go on alike. When two sessions are alike in all that the elementary steps
look at, and the steps keep them so, every walk and check gives the same and keeps them so. -/
namespace PdfConform

theorem Finding.like_eq : Finding.Like Eq = Eq := by
  funext f f'
  refine propext ⟨fun h => ?_, fun h => h ▸ ⟨rfl, rfl⟩⟩
  rw [h.same, ← h.path]

theorem WorkItem.like_eq : WorkItem.Like Eq = Eq := by
  funext item item'
  refine propext ⟨fun h => ?_, fun h => h ▸ ⟨rfl, rfl⟩⟩
  rw [h.same, ← h.path]

namespace Session

/-- The elementary steps find the same in sessions that are alike, and leave them alike. -/
structure Simulation (around : Surroundings) (R : Session → Session → Prop) : Prop where
  version {s s' : Session} : R s s' → s.version = s'.version
  queue {s s' : Session} : R s s' → s.queue = s'.queue
  report {s s' : Session} (found : List Finding) : R s s' → R (s.report found) (s'.report found)
  note {s s' : Session} (event : Event) : R s s' → R (s.note event) (s'.note event)
  table {s s' : Session} (link : String) :
    R s s' → Matches R (s.table around link) (s'.table around link)
  mark {s s' : Session} (identity : Identity) (link : String) :
    R s s' → Matches R (s.mark identity link) (s'.mark identity link)
  enqueue {s s' : Session} (object : Object) (reference : Option ObjectId) (link path : String) :
    R s s' → R (s.enqueue object reference link path) (s'.enqueue object reference link path)
  enter {s s' : Session} (item : WorkItem) : R s s' → R (s.enter item) (s'.enter item)
  pop {s s' : Session} (rest : List WorkItem) :
    R s s' → R { s with queue := rest } { s' with queue := rest }

namespace Simulation

variable {around : Surroundings} {R : Session → Session → Prop} {s s' : Session}

theorem congruent (sim : Simulation around R) : Congruent around Eq R where
  extend rest hpath := congrArg (· ++ rest) hpath
  version h := sim.version h
  queue h := by
    rw [WorkItem.like_eq, List.forall₂_eq_eq_eq]
    exact sim.queue h
  report hfound h := by
    rw [Finding.like_eq, List.forall₂_eq_eq_eq] at hfound
    exact hfound ▸ sim.report _ h
  visit tree hpath h := hpath ▸ sim.note _ h
  drop hitem h := by
    rw [WorkItem.like_eq] at hitem
    exact hitem ▸ sim.note _ h
  table link h := sim.table link h
  mark identity link _ h := sim.mark identity link h
  enqueue object reference link _ hpath h := hpath ▸ sim.enqueue object reference link _ h
  enter hitem h := by
    rw [WorkItem.like_eq] at hitem
    exact hitem ▸ sim.enter _ h
  pop hrest h := by
    rw [WorkItem.like_eq, List.forall₂_eq_eq_eq] at hrest
    exact hrest ▸ sim.pop _ h

/-- An item is taken alike. -/
theorem take (sim : Simulation around R) (item : WorkItem) (h : R s s') :
    Matches R (s.take around item) (s'.take around item) :=
  sim.congruent.take ⟨rfl, rfl⟩ h

end Simulation

end Session

end PdfConform
