/-! Finite maps as lists of pairs in strictly increasing order of their keys. Each
operation is described by what it does to lookups, and equal maps are equal lists. -/
namespace PdfConform.Ordered

variable {κ α : Type} [DecidableEq κ]

def get? (key : κ) (entries : List (κ × α)) : Option α :=
  (entries.find? fun e => e.1 = key).map (·.2)

def erase (key : κ) (entries : List (κ × α)) : List (κ × α) :=
  entries.filter fun e => e.1 ≠ key

theorem get?_cons (key : κ) (e : κ × α) (entries : List (κ × α)) :
    get? key (e :: entries) = if e.1 = key then some e.2 else get? key entries := by
  by_cases h : e.1 = key <;> simp [get?, h]

theorem mem_of_get? {key : κ} {value : α} {entries : List (κ × α)}
    (h : get? key entries = some value) : (key, value) ∈ entries := by
  induction entries with
  | nil => simp [get?] at h
  | cons e rest ih => grind [get?_cons]

@[simp] theorem get?_erase_self (key : κ) (entries : List (κ × α)) :
    get? key (erase key entries) = none := by
  simp [get?, erase]

theorem get?_erase_of_ne {k key : κ} (h : k ≠ key) (entries : List (κ × α)) :
    get? k (erase key entries) = get? k entries := by
  induction entries with
  | nil => rfl
  | cons e rest ih => grind [erase, get?_cons]

variable [LT κ]

def Sorted (entries : List (κ × α)) : Prop := entries.Pairwise fun a b => a.1 < b.1

theorem sorted_erase (key : κ) {entries : List (κ × α)} (h : Sorted entries) :
    Sorted (erase key entries) :=
  List.Pairwise.filter _ h

theorem get?_eq_none_of_lt [Std.Asymm (α := κ) (· < ·)] {key : κ} {entries : List (κ × α)}
    (h : ∀ e ∈ entries, key < e.1) : get? key entries = none := by
  simp only [get?, Option.map_eq_none_iff, List.find?_eq_none, decide_eq_true_eq]
  intro e he heq
  have hlt := heq ▸ h e he
  exact Std.Asymm.asymm (r := (· < ·)) _ _ hlt hlt

/-- Maps that agree on every key are the same list. -/
theorem ext_get? [Std.Asymm (α := κ) (· < ·)] {xs ys : List (κ × α)} (hx : Sorted xs)
    (hy : Sorted ys) (h : ∀ key, get? key xs = get? key ys) : xs = ys := by
  induction xs generalizing ys with
  | nil =>
    cases ys with
    | nil => rfl
    | cons e ys => simpa [get?_cons, get?] using h e.1
  | cons d xs ih =>
    cases ys with
    | nil => simpa [get?_cons, get?] using h d.1
    | cons e ys =>
      obtain ⟨hdx, hx⟩ := List.pairwise_cons.1 hx
      obtain ⟨hey, hy⟩ := List.pairwise_cons.1 hy
      have hd := h d.1
      have he := h e.1
      rw [get?_cons, if_pos rfl, get?_cons] at hd
      rw [get?_cons, get?_cons, if_pos rfl] at he
      by_cases heq : e.1 = d.1
      · rw [if_pos heq, Option.some.injEq] at hd
        rw [Prod.ext heq.symm hd, ih hx hy fun key => ?_]
        have hk := h key
        rw [get?_cons, get?_cons, heq] at hk
        by_cases hkey : d.1 = key
        · subst hkey
          rw [get?_eq_none_of_lt hdx, get?_eq_none_of_lt (heq ▸ hey)]
        · simpa [hkey] using hk
      · rw [if_neg heq] at hd
        rw [if_neg (Ne.symm heq)] at he
        exact absurd (hey _ (mem_of_get? hd.symm))
          (Std.Asymm.asymm (r := (· < ·)) _ _ (hdx _ (mem_of_get? he)))

variable [DecidableLT κ]

def set (key : κ) (value : α) : List (κ × α) → List (κ × α)
  | [] => [(key, value)]
  | (k, v) :: rest =>
    if key = k then (key, value) :: rest
    else if key < k then (key, value) :: (k, v) :: rest
    else (k, v) :: set key value rest

/-- The last of several values for one key wins. -/
def ofList (entries : List (κ × α)) : List (κ × α) :=
  entries.foldl (fun soFar (key, value) => set key value soFar) []

@[simp] theorem get?_set_self (key : κ) (value : α) (entries : List (κ × α)) :
    get? key (set key value entries) = some value := by
  induction entries with
  | nil => simp [set, get?]
  | cons e rest ih => grind [set, get?_cons]

theorem get?_set_of_ne {k key : κ} (h : k ≠ key) (value : α) (entries : List (κ × α)) :
    get? k (set key value entries) = get? k entries := by
  induction entries with
  | nil => simp [set, get?, Ne.symm h]
  | cons e rest ih => grind [set, get?_cons]

theorem mem_set {key : κ} {value : α} {entries : List (κ × α)} {e : κ × α}
    (h : e ∈ set key value entries) : e = (key, value) ∨ e ∈ entries := by
  induction entries with
  | nil => simpa [set] using h
  | cons e rest ih => grind [set]

theorem mem_of_mem_ofList {entries : List (κ × α)} {e : κ × α} (h : e ∈ ofList entries) :
    e ∈ entries := by
  suffices hfold : ∀ soFar : List (κ × α),
      e ∈ entries.foldl (fun soFar (key, value) => set key value soFar) soFar →
        e ∈ soFar ∨ e ∈ entries from
    (hfold [] h).resolve_left nofun
  clear h
  induction entries with
  | nil => exact fun _ h => .inl h
  | cons d entries ih =>
    intro soFar h
    rcases ih _ h with h | h
    · rcases mem_set h with rfl | h
      · exact .inr List.mem_cons_self
      · exact .inl h
    · exact .inr (List.mem_cons_of_mem _ h)

theorem set_of_greater [Std.Asymm (α := κ) (· < ·)] {key : κ} (value : α)
    {entries : List (κ × α)} (h : ∀ e ∈ entries, e.1 < key) :
    set key value entries = entries ++ [(key, value)] := by
  induction entries with
  | nil => rfl
  | cons e rest ih =>
    have hlt : ¬key < e.1 := Std.Asymm.asymm (r := (· < ·)) _ _ (h e List.mem_cons_self)
    have hne : key ≠ e.1 := fun heq => hlt (heq ▸ h e List.mem_cons_self)
    rw [set, if_neg hne, if_neg hlt, ih fun d hd => h d (List.mem_cons_of_mem _ hd)]
    rfl

theorem ofList_of_sorted [Std.Asymm (α := κ) (· < ·)] {entries : List (κ × α)}
    (h : Sorted entries) : ofList entries = entries := by
  suffices hfold : ∀ soFar : List (κ × α), Sorted (soFar ++ entries) →
      entries.foldl (fun soFar (key, value) => set key value soFar) soFar = soFar ++ entries from
    hfold [] h
  clear h
  induction entries with
  | nil => simp
  | cons e rest ih =>
    intro soFar hsorted
    obtain ⟨key, value⟩ := e
    have hset : set key value soFar = soFar ++ [(key, value)] := set_of_greater value fun d hd =>
      (List.pairwise_append.1 hsorted).2.2 d hd _ List.mem_cons_self
    simpa [hset] using ih (soFar ++ [(key, value)]) (by simpa using hsorted)

variable [Trans (α := κ) (· < ·) (· < ·) (· < ·)] [Std.Trichotomous (α := κ) (· < ·)]

theorem sorted_set (key : κ) (value : α) {entries : List (κ × α)} (h : Sorted entries) :
    Sorted (set key value entries) := by
  induction entries with
  | nil => exact List.pairwise_singleton _ _
  | cons e rest ih =>
    obtain ⟨hlt, hrest⟩ := List.pairwise_cons.1 h
    unfold set
    split
    · next hk => exact List.pairwise_cons.2 ⟨fun a ha => hk ▸ hlt a ha, hrest⟩
    · next hk =>
      split
      · next hl =>
        refine List.pairwise_cons.2 ⟨fun a ha => ?_, h⟩
        rcases List.mem_cons.1 ha with rfl | ha
        · exact hl
        · exact Trans.trans hl (hlt a ha)
      · next hl =>
        refine List.pairwise_cons.2 ⟨fun a ha => ?_, ih hrest⟩
        rcases mem_set ha with rfl | ha
        · exact Classical.byContradiction fun hn =>
            hk (Std.Trichotomous.trichotomous (r := (· < ·)) _ _ hl hn)
        · exact hlt a ha

theorem sorted_ofList (entries : List (κ × α)) : Sorted (ofList entries) := by
  suffices h : ∀ soFar : List (κ × α), Sorted soFar →
      Sorted (entries.foldl (fun soFar (key, value) => set key value soFar) soFar) from
    h [] List.Pairwise.nil
  induction entries with
  | nil => exact fun _ h => h
  | cons e rest ih => exact fun soFar h => ih _ (sorted_set e.1 e.2 h)

end PdfConform.Ordered
