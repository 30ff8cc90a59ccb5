import PdfConform.Proofs.Check.Accounting
import PdfConform.Proofs.Schema.Faultless

/-! The tables that a session checks against. Whatever was looked up before, by runs or
otherwise, a table that a lookup gives is well formed, and no check ever has to do without the
type, the values or the links of a row. -/
namespace PdfConform

namespace Session

variable {around : Surroundings}

theorem keep_cache_take {P : Cache → Prop}
    (hget : ∀ c fs link, P c → P (Cache.get c fs link).2.1) {s s' : Session} {item : WorkItem}
    {result : Except Unavailable Bool} (htake : s.take around item = (result, s'))
    (h : P s.cache) : P s'.cache := by
  have hlooked : P (s.table around item.link).2.cache := hget _ _ item.link h
  have htaken := taken_take s around item
  rw [htake] at htaken
  cases htaken with
  | checked table _ =>
    exact checkObject_keep (P := fun s => P s.cache) (fun hstep => hstep.keep_cache hget) item
      hlooked
  | passed found => exact hlooked
  | failed unavailable => exact hlooked

/-- The cache of a session changes by lookups only. -/
theorem keep_cache_after {P : Cache → Prop}
    (hget : ∀ c fs link, P c → P (Cache.get c fs link).2.1) {s : Session} (h : P s.cache)
    (calls : List Call) : P (s.after around calls).cache :=
  after_keep (P := fun s => P s.cache) (fun _ _ _ _ _ hs => hs) (fun _ _ hs => hs)
    (fun _ _ _ _ _ _ htake hs => keep_cache_take hget htake hs) h

/-- Every table that is looked up in the course of a session is well formed. Whichever type is
the first that a value has, the row has values and links for it. -/
theorem wellFormed_of_get {folder : Folder} {cache : Cache} (hcache : cache.Reached folder)
    (around : Surroundings) (version : Option Version) (budget : Option Nat)
    (calls : List Call) {fs : Files} {link : String} {table : Table}
    (hget : (((start around.store cache version budget).after around calls).cache.get fs link).1 =
      .ok table) :
    table.WellFormed ∧ ∀ row ∈ table.rows, ∀ store object index,
      TypeToken.select? store object row.types = some index →
        ∃ type possible links, row.types[index]? = some (.known type) ∧
          type.admits store object = true ∧
          row.possible[index]? = some possible ∧ row.possibleFor? index = some possible ∧
          row.links[index]? = some links ∧ row.linksFor index = links := by
  have hreached : ((start around.store cache version budget).after around calls).cache.Reached
      folder :=
    keep_cache_after (fun _ fs link hc => .get fs link hc) hcache calls
  have htable : table.WellFormed :=
    (hreached.get fs link).wellFormed_table (Cache.find?_of_get hget)
  exact ⟨htable, fun row hrow store object index hindex => htable.aligned hrow hindex⟩

/-- The table that a run checked two objects against is looked up once more. -/
theorem wellFormed_of_get_cycle :
    let s := (start Cycle.store Cycle.cache none none).after Cycle.around
      [.seed (.reference Cycle.first) "Ring" "", .run]
    (s.cache.get .empty "Ring").1 = .ok Cycle.table ∧ s.checked.length = 2 ∧
      Cycle.table.WellFormed ∧ ∃ links, Cycle.row.links[0]? = some links ∧
        Cycle.row.linksFor 0 = links := by
  intro s
  have hget : (s.cache.get .empty "Ring").1 = .ok Cycle.table := by decide +kernel
  obtain ⟨htable, haligned⟩ := wellFormed_of_get Cycle.cache_reached Cycle.around none none
    [.seed (.reference Cycle.first) "Ring" "", .run] hget
  obtain ⟨_, _, links, _, _, _, _, hlinks, hfor⟩ := haligned Cycle.row
    (List.mem_singleton_self _) Cycle.store (.dictionary []) 0 (by decide)
  exact ⟨hget, by decide +kernel, htable, links, hlinks, hfor⟩

end Session

end PdfConform
