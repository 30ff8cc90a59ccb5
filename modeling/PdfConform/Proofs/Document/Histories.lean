import Mathlib.Data.List.Forall2
import PdfConform.Document.Fingerprint
import PdfConform.Proofs.Document.Order
import PdfConform.Proofs.Text.Utf8

/-! A dictionary is the mapping that it was built to hold: how it came to hold it, in which order
and over which other values, leaves no trace in its entries, nor in the identity of an object
around it. -/
namespace PdfConform

namespace Ordered

variable {κ α : Type} [DecidableEq κ]

/-- The last value that a list has for a key. -/
def last? (key : κ) (entries : List (κ × α)) : Option α := get? key entries.reverse

theorem get?_append (key : κ) (xs ys : List (κ × α)) :
    get? key (xs ++ ys) = (get? key xs).or (get? key ys) := by
  induction xs with
  | nil => rfl
  | cons x xs ih =>
    rw [List.cons_append, get?_cons, get?_cons, ih]
    split <;> rfl

theorem last?_cons (key : κ) (e : κ × α) (entries : List (κ × α)) :
    last? key (e :: entries) = (last? key entries).or (if e.1 = key then some e.2 else none) := by
  rw [last?, List.reverse_cons, get?_append, get?_cons]
  rfl

variable [LT κ] [DecidableLT κ]

theorem get?_set (k key : κ) (value : α) (entries : List (κ × α)) :
    get? k (set key value entries) = if key = k then some value else get? k entries := by
  split
  · next h => rw [← h, get?_set_self]
  · next h => rw [get?_set_of_ne (Ne.symm h)]

theorem get?_ofList (key : κ) (entries : List (κ × α)) :
    get? key (ofList entries) = last? key entries := by
  suffices hfold : ∀ soFar : List (κ × α),
      get? key (entries.foldl (fun soFar e => set e.1 e.2 soFar) soFar) =
        (last? key entries).or (get? key soFar) from
    (hfold []).trans (Option.or_none)
  induction entries with
  | nil => exact fun _ => rfl
  | cons e entries ih =>
    intro soFar
    rw [List.foldl_cons, ih, last?_cons, get?_set, Option.or_assoc]
    split <;> rfl

end Ordered

namespace Dictionary

/-- What a dictionary is made from: nothing, a list of keys with values, or the members of a record
in JSON. -/
inductive Origin
  | empty
  | pairs (entries : List (String × Object))
  | record (room : Nat) (members : List (Option String × Json))

/-- A key is set, also while a dictionary is built up, or it is removed. -/
inductive Step
  | set (key : String) (value : Object)
  | remove (key : String)

structure History where
  origin : Origin
  steps : List Step

def Origin.dictionary? : Origin → Option Dictionary
  | .empty => some []
  | .pairs entries => some (Ordered.ofList entries)
  | .record room members => Object.entriesOfJson? room [] members

def Step.run (d : Dictionary) : Step → Dictionary
  | .set key value => d.set key value
  | .remove key => d.erase key

/-- The dictionary that a history ends with, unless it starts with JSON that cannot be read. -/
def History.dictionary? (h : History) : Option Dictionary :=
  h.origin.dictionary?.map fun d => h.steps.foldl Step.run d

abbrev Mapping := String → Option Object

/-- Of several values for a key the last one counts. -/
def Origin.mapping : Origin → Mapping
  | .empty, _ => none
  | .pairs entries, key => Ordered.last? key entries
  | .record room members, key =>
    (Ordered.last? (some key) members).bind (Object.ofJson? room)

def Step.change (m : Mapping) : Step → Mapping
  | .set key value, k => if key = k then some value else m k
  | .remove key, k => if key = k then none else m k

/-- The mapping that a history ends with, which no dictionary has a part in. -/
def History.mapping (h : History) : Mapping := h.steps.foldl Step.change h.origin.mapping

/-- A dictionary holds a mapping, and holds it in order. -/
structure Holds (d : Dictionary) (m : Mapping) : Prop where
  sorted : Ordered.Sorted d
  lookup : ∀ key, d.get? key = m key

theorem Holds.unique {d e : Dictionary} {m : Mapping} (hd : d.Holds m) (he : e.Holds m) : d = e :=
  Ordered.ext_get? hd.sorted he.sorted fun key => (hd.lookup key).trans (he.lookup key).symm

theorem get?_set (d : Dictionary) (k key : String) (value : Object) :
    (d.set key value).get? k = if key = k then some value else d.get? k :=
  Ordered.get?_set k key value d

theorem Holds.run {d : Dictionary} {m : Mapping} (h : d.Holds m) (step : Step) :
    (step.run d).Holds (step.change m) := by
  cases step with
  | set key value =>
    refine ⟨Ordered.sorted_set key value h.sorted, fun k => ?_⟩
    rw [Step.run, Step.change, get?_set, h.lookup]
  | remove key =>
    refine ⟨Ordered.sorted_erase key h.sorted, fun k => ?_⟩
    rw [Step.run, Step.change, erase, get?]
    split
    · next hk => rw [hk, Ordered.get?_erase_self]
    · next hk => rw [Ordered.get?_erase_of_ne (Ne.symm hk), ← get?, h.lookup]

theorem Holds.run_all {d : Dictionary} {m : Mapping} (h : d.Holds m) (steps : List Step) :
    (steps.foldl Step.run d).Holds (steps.foldl Step.change m) := by
  induction steps generalizing d m with
  | nil => exact h
  | cons step steps ih => exact ih (h.run step)

theorem get?_of_entriesOfJson? (key : String) {room : Nat} {members : List (Option String × Json)}
    {soFar d : Dictionary} (h : Object.entriesOfJson? room soFar members = some d) :
    d.get? key =
      (Ordered.last? (some key) members).elim (soFar.get? key) (Object.ofJson? room) := by
  induction members generalizing soFar with
  | nil => cases h; rfl
  | cons member members ih =>
    obtain ⟨_ | k, value⟩ := member
    · cases h
    · obtain ⟨object, hobject, hmore⟩ := Option.bind_eq_some_iff.1 h
      rw [ih hmore, get?_set, Ordered.last?_cons]
      cases Ordered.last? (some key) members with
      | some last => rfl
      | none =>
        by_cases hk : k = key
        · simp [hk, hobject]
        · simp [hk]

theorem Origin.holds {origin : Origin} {d : Dictionary} (h : origin.dictionary? = some d) :
    d.Holds origin.mapping := by
  cases origin with
  | empty =>
    cases h
    exact ⟨List.Pairwise.nil, fun _ => rfl⟩
  | pairs entries =>
    cases h
    exact ⟨Ordered.sorted_ofList entries, fun key => Ordered.get?_ofList key entries⟩
  | record room members =>
    have hordered := Object.isOrdered_of_entriesOfJson? members Object.isOrdered_nil h
    refine ⟨((Object.isOrdered_entries rfl).1 hordered).1, fun key => ?_⟩
    rw [get?_of_entriesOfJson? key h, mapping]
    cases Ordered.last? (some key) members <;> rfl

/-- A history ends with the dictionary that holds its mapping. -/
theorem History.holds {h : History} {d : Dictionary} (hd : h.dictionary? = some d) :
    d.Holds h.mapping := by
  obtain ⟨first, hfirst, rfl⟩ := Option.map_eq_some_iff.1 hd
  exact (Origin.holds hfirst).run_all h.steps

end Dictionary

namespace Object

open Dictionary (History)

/-- Objects that are the same but for the histories of their dictionaries, at any depth. -/
inductive Alike : Object → Object → Prop
  | scalar {object : Object} : object.isContainer = false → Alike object object
  | array {items others : List Object} : items.length = others.length →
    (∀ pair ∈ items.zip others, Alike pair.1 pair.2) → Alike (.array items) (.array others)
  | dictionary {h k : History} {d e : Dictionary} :
    h.dictionary? = some d → k.dictionary? = some e →
    (∀ key, (h.mapping key).isSome = (k.mapping key).isSome) →
    (∀ key a b, h.mapping key = some a → k.mapping key = some b → Alike a b) →
    Alike (.dictionary d) (.dictionary e)
  | stream {d e : Dictionary} (data : List UInt8) : Alike (.dictionary d) (.dictionary e) →
    Alike (.stream d data) (.stream e data)

theorem Alike.eq {a b : Object} (h : Alike a b) : a = b := by
  induction h with
  | scalar _ => rfl
  | array hlength _ ih =>
    have hitems := List.forall₂_iff_zip.2 ⟨hlength, fun hpair => ih _ hpair⟩
    rw [List.forall₂_eq_eq_eq] at hitems
    rw [hitems]
  | @dictionary h k d e hd he hkeys _ ih =>
    -- By induction the values are equal, and two dictionaries that hold one mapping are equal.
    have hmapping : h.mapping = k.mapping := by
      funext key
      have hsome := hkeys key
      cases ha : h.mapping key <;> cases hb : k.mapping key <;> rw [ha, hb] at hsome
      · cases hsome
      · cases hsome
      · rw [ih key _ _ ha hb]
    have hholds := History.holds he
    rw [← hmapping] at hholds
    rw [(History.holds hd).unique hholds]
  | stream data _ ih => rw [Object.dictionary.inj ih]

/-- It is enough to look at the entries, one by one. -/
theorem Alike.of_entries {h k : History} {d e : Dictionary} (hd : h.dictionary? = some d)
    (he : k.dictionary? = some e)
    (hentries : List.Forall₂ (fun a b => a.1 = b.1 ∧ Alike a.2 b.2) d e) :
    Alike (.dictionary d) (.dictionary e) := by
  have halike (key : String) : Option.Rel Alike (h.mapping key) (k.mapping key) := by
    rw [← (History.holds hd).lookup, ← (History.holds he).lookup]
    unfold Dictionary.get?
    clear hd he
    induction hentries with
    | nil => exact .none
    | cons hhead _ ih =>
      rw [Ordered.get?_cons, Ordered.get?_cons, ← hhead.1]
      split
      · exact .some hhead.2
      · exact ih
  refine .dictionary hd he (fun key => ?_) fun key a b ha hb => ?_
  · have hrel := halike key
    generalize h.mapping key = one, k.mapping key = other at hrel ⊢
    cases hrel <;> rfl
  · have hrel := halike key
    rw [ha, hb] at hrel
    cases hrel with
    | some hvalue => exact hvalue

/-- Histories with the same mapping end with the same entries in the order of the bytes of their
keys, and objects that are the same but for such histories have one identity. -/
theorem identity_ignores_history :
    (∀ (h k : History) (d e : Dictionary), h.dictionary? = some d → k.dictionary? = some e →
      (∀ key, h.mapping key = k.mapping key) →
        d = e ∧ (∀ key, d.get? key = h.mapping key) ∧
          d.Pairwise fun a b => a.1.toUTF8.toList < b.1.toUTF8.toList) ∧
    ∀ a b : Object, Alike a b → a.bytes = b.bytes ∧ a.fingerprint = b.fingerprint ∧
      Identity.of a none = Identity.of b none := by
  refine ⟨fun h k d e hd he hmapping => ?_, fun a b halike => ?_⟩
  · have hholds := History.holds he
    rw [← funext hmapping] at hholds
    have hfirst := History.holds hd
    exact ⟨hfirst.unique hholds, hfirst.lookup,
      hfirst.sorted.imp fun hlt => Text.toList_toUTF8_lt hlt⟩
  · rw [halike.eq]
    exact ⟨rfl, rfl, rfl⟩

/-! A page twice. Once the dictionary of its stream is read from JSON, with one key twice; once it
is set key by key, and one key is removed. -/
namespace Rebuilt

def read : History where
  origin := .record 1 [(some "S", .record [("string", .text "old")]), (some "A", .text "null"),
    (some "S", .record [("string", .text "x")])]
  steps := []

def written : History where
  origin := .empty
  steps := [.set "S" (.string "x"), .set "T" (.boolean true), .set "A" .null, .remove "T"]

def entries (h : History) : Dictionary := h.dictionary?.getD []

def kids (h : History) : Object := .array [.stream (entries h) [1], .null]

def first : History where
  origin := .pairs [("Kids", kids read), ("Count", .boolean true), ("Count", .null)]
  steps := []

def second : History where
  origin := .empty
  steps := [.set "Count" .null, .set "Kids" (kids written)]

def page (h : History) : Object := .dictionary (entries h)

theorem alike_entries : Alike (.dictionary (entries read)) (.dictionary (entries written)) :=
  .of_entries (h := read) (k := written) rfl rfl
    (.cons ⟨rfl, .scalar rfl⟩ (.cons ⟨rfl, .scalar rfl⟩ .nil))

theorem alike_kids : Alike (kids read) (kids written) := by
  refine .array rfl (List.forall_mem_cons.2 ⟨.stream [1] alike_entries, ?_⟩)
  exact List.forall_mem_singleton.2 (.scalar rfl)

theorem alike_page : Alike (page first) (page second) :=
  .of_entries (h := first) (k := second) rfl rfl
    (.cons ⟨rfl, .scalar rfl⟩ (.cons ⟨rfl, alike_kids⟩ .nil))

theorem mapping_eq (key : String) : read.mapping key = written.mapping key := by
  have hread : (entries read).Holds read.mapping := History.holds rfl
  have hwritten : (entries written).Holds written.mapping := History.holds rfl
  exact (hread.lookup key).symm.trans (hwritten.lookup key)

end Rebuilt

theorem identity_ignores_history_page :
    (Rebuilt.entries Rebuilt.read = Rebuilt.entries Rebuilt.written ∧
      (∀ key, (Rebuilt.entries Rebuilt.read).get? key = Rebuilt.read.mapping key) ∧
      (Rebuilt.entries Rebuilt.read).Pairwise fun a b => a.1.toUTF8.toList < b.1.toUTF8.toList) ∧
    Alike (Rebuilt.page Rebuilt.first) (Rebuilt.page Rebuilt.second) ∧
    Identity.of (Rebuilt.page Rebuilt.first) none =
      Identity.of (Rebuilt.page Rebuilt.second) none := by
  obtain ⟨hentries, halike⟩ := identity_ignores_history
  exact ⟨hentries Rebuilt.read Rebuilt.written _ _ rfl rfl Rebuilt.mapping_eq,
    Rebuilt.alike_page, (halike _ _ Rebuilt.alike_page).2.2⟩

end Object

end PdfConform
