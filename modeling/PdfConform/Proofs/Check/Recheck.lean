import PdfConform.Proofs.Check.Accounting
import PdfConform.Proofs.Check.Echo
import PdfConform.Proofs.Check.Work

/-! An object that is added again after it was checked is checked again for the same link, to no
effect: nothing more is queued, and nothing is found that was not found the first time. -/
namespace PdfConform

namespace Session

/-- What can come between two checks: an object is added, the flag is moved, an item is taken. -/
inductive Turn (around : Surroundings) (roots : List Object) : Session → Session → Prop
  | seed (s : Session) {object : Object} (link path : String) : object ∈ roots →
    Turn around roots s (s.seed around.store object link path)
  | flag (s : Session) (raised : Bool) : Turn around roots s { s with cancelled := raised }
  | take {s s' : Session} {item : WorkItem} {rest : List WorkItem}
    {result : Except Unavailable Bool} : s.queue = item :: rest →
    take { s with queue := rest } around item = (result, s') → Turn around roots s s'

abbrev Turns (around : Surroundings) (roots : List Object) : Session → Session → Prop :=
  Relation.ReflTransGen (Turn around roots)

variable {around : Surroundings} {roots : List Object} {s s' : Session}

theorem Turn.grows (h : Turn around roots s s') : Grows s s' := by
  cases h with
  | seed link path => exact grows_call around s (.seed _ link path)
  | flag raised => exact grows_call around s (.flag raised)
  | @take _ item rest result _ htake =>
    have hgrows := grows_take { s with queue := rest } around item
    rw [htake] at hgrows
    exact (grows_pop s rest).trans hgrows

theorem Turns.grows (h : Turns around roots s s') : Grows s s' := by
  induction h with
  | refl => exact .refl s
  | tail _ hlast ih => exact ih.trans hlast.grows

theorem turns_drain (around : Surroundings) (roots : List Object) (fuel count : Nat) (s : Session) :
    Turns around roots s (drain around fuel count s).2 := by
  have hended : Ended (Turns around roots s) (Turns around roots s) (drain around fuel count s) :=
    drain_keep (fun _ _ _ _ _ hqueue htake hs => hs.tail (.take hqueue htake))
      (fun _ _ _ _ _ hqueue htake hs => hs.tail (.take hqueue htake)) fuel count .refl
  exact hended.state

def Call.root? : Call → Option Object
  | .seed object _ _ => some object
  | _ => none

/-- Calls consist of turns. -/
theorem turns_after (around : Surroundings) {roots : List Object} {calls : List Call}
    (hroots : ∀ c ∈ calls, ∀ object ∈ c.root?, object ∈ roots) (s : Session) :
    Turns around roots s (s.after around calls) := by
  induction calls generalizing s with
  | nil => exact .refl
  | cons c calls ih =>
    have hcall : Turns around roots s (s.call around c) := by
      cases c with
      | seed object link path =>
        exact .single (.seed s link path (hroots _ List.mem_cons_self _ rfl))
      | run => exact turns_drain around roots _ 0 s
      | interrupted items => exact (turns_drain around roots items 0 s).tail (.flag _ true)
      | flag raised => exact .single (.flag s raised)
    exact hcall.trans (ih (fun c hc => hroots c (List.mem_cons_of_mem _ hc)) _)

/-- What waits lies in the roots or in the store, and goes by an identity of its own. -/
def Identified (store : Store) (roots : List Object) (s : Session) : Prop :=
  ∀ item ∈ s.queue, store.Holds roots item.object ∧ store.Known item.object item.identity

theorem Identified.push {store : Store} {item : WorkItem} (h : s.Identified store roots)
    (hobject : store.Holds roots item.object) (hknown : store.Known item.object item.identity)
    (hqueue : s'.queue = s.queue ++ [item]) : s'.Identified store roots := by
  intro other hother
  rcases List.mem_append.1 (hqueue ▸ hother) with hold | hnew
  · exact h other hold
  · rw [List.mem_singleton.1 hnew]
    exact ⟨hobject, hknown⟩

theorem Identified.step {declared : List String → Prop} (h : s.Identified around.store roots)
    (hstep : Step around (around.store.Holds roots) declared s s') :
    s'.Identified around.store roots := by
  cases hstep with
  | report found => exact h
  | lookup link => exact h
  | visit tree path => exact h
  | node t => exact h
  | @enqueue path _ link value object reference _ _ hvalue hpresent _ =>
    obtain ⟨_, ⟨_, hqueue, _⟩ | ⟨_, hqueue, _⟩⟩ := enqueue_cases s object reference link path
    · have hfound := Store.dereference_of_present hpresent
      have hobject := (around.store.spans_holds roots).closed.spans.dereference hvalue hfound
      exact h.push hobject (Store.known_of_dereference hfound) hqueue
    · exact fun item hitem => h item (hqueue ▸ hitem)

theorem Identified.seed {store : Store} (h : s.Identified store roots) {object : Object}
    (hobject : object ∈ roots) (link path : String) :
    (s.seed store object link path).Identified store roots := by
  have hroot : store.Holds roots object :=
    ⟨object, List.mem_append_left _ hobject, object.mem_parts_self⟩
  have hheld : store.Holds roots
      ((store.dereference object).getD (object, object.asReference?)).1 := by
    cases hfound : store.dereference object with
    | none => exact hroot
    | some found => exact (store.spans_holds roots).closed.spans.dereference hroot hfound
  exact h.push hheld (Store.known_of_seeded rfl) rfl

theorem Identified.take {item : WorkItem} {rest : List WorkItem}
    {result : Except Unavailable Bool} (h : s.Identified around.store roots)
    (hqueue : s.queue = item :: rest)
    (htake : Session.take { s with queue := rest } around item = (result, s')) :
    s'.Identified around.store roots := by
  have hlooked :
      (Session.table { s with queue := rest } around item.link).2.Identified around.store roots :=
    fun other hother => h other (hqueue ▸ List.mem_cons_of_mem _ hother)
  have htaken := taken_take { s with queue := rest } around item
  rw [htake] at htaken
  cases htaken with
  | checked table hfind =>
    have hobject := (h item (hqueue ▸ List.mem_cons_self)).1
    exact (checkObject_steps (around.store.spans_holds roots).closed hobject _ table).keep
      (fun hstep hidentified => hidentified.step hstep) hlooked
  | passed found => exact hlooked
  | failed unavailable => exact hlooked

theorem Turns.identified (h : Turns around roots s s') (hs : s.Identified around.store roots) :
    s'.Identified around.store roots := by
  induction h with
  | refl => exact hs
  | tail _ hlast ih =>
    cases hlast with
    | seed link path hobject => exact ih.seed hobject link path
    | flag raised => exact ih
    | take hqueue htake => exact ih.take hqueue htake

/-- Once a pair was checked, taking it again checks it again, queues and records nothing, and
reports, paths aside, only findings of the first check in their order. No two objects of the
document and the roots may share a fingerprint. -/
theorem repeat_adds_nothing (around : Surroundings) (cache : Cache) (version : Option Version)
    (budget : Option Nat) {roots : List Object}
    (hfree : CollisionFree (around.store.Holds roots)) {a a' b : Session}
    {first second : WorkItem} {rest rest' : List WorkItem}
    (hstart : Turns around roots (start around.store cache version budget) a)
    (hqueue : a.queue = first :: rest)
    (hfirst : Session.take { a with queue := rest } around first = (.ok true, a'))
    (hbetween : Turns around roots a' b) (hqueue' : b.queue = second :: rest')
    (hpair : second.pair = first.pair) :
    ∃ b', Session.take { b with queue := rest' } around second = (.ok true, b') ∧
      b'.queue = rest' ∧ b'.record.pairs = b.record.pairs ∧
      ∃ found again, a'.findings = a.findings ++ found ∧ b'.findings = b.findings ++ again ∧
        (again.map Finding.pathless).Sublist (found.map Finding.pathless) := by
  have hempty : (start around.store cache version budget).Identified around.store roots :=
    fun item hitem => by cases hitem
  have hidentified : a.Identified around.store roots := hstart.identified hempty
  have hidentified' : b.Identified around.store roots :=
    hbetween.identified (hidentified.take hqueue hfirst)
  obtain ⟨hheld, hknown⟩ := hidentified first (hqueue ▸ List.mem_cons_self)
  obtain ⟨hheld', hknown'⟩ := hidentified' second (hqueue' ▸ List.mem_cons_self)
  obtain ⟨hidentity, hlink⟩ := Prod.mk.inj hpair
  have hobject : second.object = first.object :=
    Store.Known.unique hfree hheld' hheld hknown' (hidentity ▸ hknown)
  obtain ⟨b', hsecond, hecho⟩ := take_again hfirst hbetween.grows hobject hlink rest'
  exact ⟨b', hsecond, hecho.queue, hecho.pairs, hecho.findings⟩

end Session

/-! A dictionary that holds another, where its table asks for a reference. -/
namespace Nested

def inner : Object := .dictionary []

def outer : Object := .dictionary [("Next", inner)]

def around : Surroundings := .still .empty ⟨none, [], [(Cycle.first, outer)]⟩

def item (path : String) : WorkItem := ⟨outer, .indirect Cycle.first, "Ring", path, true⟩

def fresh : Session :=
  (Session.start around.store Cycle.cache none none).after around
    [.seed (.reference Cycle.first) "Ring" "once"]

/-- The first check, with nothing else in the queue. -/
def checked : Session := (Session.take { fresh with queue := [] } around (item "once")).2

def waiting : Session :=
  checked.after around [.run, .seed (.reference Cycle.first) "Ring" "again"]

def held : List Object := [.reference Cycle.first, outer, inner]

theorem collisionFree : CollisionFree (around.store.Holds [.reference Cycle.first]) := by
  have hreference : (Object.reference Cycle.first).bytes =
      (Object.reference Cycle.first).lead := by
    simp [Object.bytes, Object.encodePieces, Object.inside]
  have hinner : inner.bytes = inner.lead := by
    simp [inner, Object.bytes, Object.encodePieces, Object.inside]
  have houter : outer.bytes =
      Object.tag '<' :: Object.encodeCount 1 ++ Object.tag 'k' :: Object.encodeText "Next" ++
        inner.lead := by
    simp [outer, inner, Object.bytes, Object.encodePieces, Object.inside, Object.Piece.ofEntry,
      Object.lead]
  have hnodup : (held.map Object.fingerprint).Nodup := by
    simp only [held, List.map_cons, List.map_nil, Object.fingerprint, hreference, hinner, houter]
    decide +kernel
  refine collisionFree_of_nodup ?_ ?_ hnodup
  · exact List.subset_append_left [.reference Cycle.first, outer] [inner]
  · simp [held, outer, inner, Object.parts, Object.partsOfEntries]

end Nested

/-- An object with something wrong in it, which leads to another, is added again. The same is found
wrong again, and the other is not queued again. -/
theorem Session.repeat_adds_nothing_nested :
    Nested.checked.queue.length = 1 ∧
      ∃ b', Session.take { Nested.waiting with queue := [] } Nested.around (Nested.item "again") =
          (.ok true, b') ∧
        b'.queue = [] ∧ b'.record.pairs = Nested.waiting.record.pairs ∧
        ∃ found again, Nested.checked.findings = Nested.fresh.findings ++ found ∧
          b'.findings = Nested.waiting.findings ++ again ∧
          (again.map Finding.pathless).Sublist (found.map Finding.pathless) := by
  have hstart : Turns Nested.around [.reference Cycle.first]
      (start Nested.around.store Cycle.cache none none) Nested.fresh :=
    turns_after Nested.around (by simp [Call.root?]) _
  have hbetween : Turns Nested.around [.reference Cycle.first] Nested.checked Nested.waiting :=
    turns_after Nested.around (by simp [Call.root?]) _
  have hfirst : Session.take { Nested.fresh with queue := [] } Nested.around (Nested.item "once") =
      (.ok true, Nested.checked) := Prod.ext (by decide +kernel) rfl
  have hdrained : (Nested.checked.run Nested.around).2.queue = [] :=
    List.isEmpty_iff.1 (by decide +kernel)
  have hqueue : Nested.waiting.queue = [Nested.item "again"] :=
    congrArg (· ++ [Nested.item "again"]) hdrained
  exact ⟨by decide +kernel, repeat_adds_nothing Nested.around Cycle.cache none none
    Nested.collisionFree hstart rfl hfirst hbetween hqueue rfl⟩

end PdfConform
