import PdfConform.Proofs.Check.Sources

/-! What is reported beside the findings of a row on its own entries. Choosing a link turns no
entry down, and what a tree turns down it reports under its title and no key. -/
namespace PdfConform

/-- With a finding of these kinds a row turns an entry down. -/
def Finding.Kind.rejects : Kind → Bool
  | .missingRequiredKey | .typeMismatch | .possibleValueViolation => true
  | _ => false

/-- Of these kinds is what a lookup finds, and that there is no table. -/
def Finding.Kind.OfLookup (kind : Kind) : Prop :=
  kind.isGrammarDefect = true ∨ kind = .schemaMissing

theorem Finding.Kind.OfLookup.not_rejects {kind : Kind} (h : kind.OfLookup) :
    kind.rejects = false := by
  rcases h with h | rfl
  · cases kind <;> first | rfl | cases h
  · rfl

namespace Session

/-- Between two sessions nothing but findings of one sort was reported. -/
def Reports (P : Finding → Prop) (s s' : Session) : Prop :=
  ∃ found, s'.findings = s.findings ++ found ∧ ∀ f ∈ found, P f

namespace Reports

variable {P Q : Finding → Prop} {a b c : Session}

theorem ofEq (h : b.findings = a.findings) : Reports P a b := ⟨[], by simp [h], by simp⟩

theorem refl (s : Session) : Reports P s s := .ofEq rfl

theorem trans (h : Reports P a b) (k : Reports P b c) : Reports P a c := by
  obtain ⟨first, hfirst, hP⟩ := h
  obtain ⟨second, hsecond, hQ⟩ := k
  refine ⟨first ++ second, by rw [hsecond, hfirst, List.append_assoc], ?_⟩
  exact fun f hf => (List.mem_append.1 hf).elim (hP f) (hQ f)

theorem mono (hPQ : ∀ f, P f → Q f) (h : Reports P a b) : Reports Q a b := by
  obtain ⟨found, hfound, hP⟩ := h
  exact ⟨found, hfound, fun f hf => hPQ f (hP f hf)⟩

theorem report {found : List Finding} (h : ∀ f ∈ found, P f) (s : Session) :
    Reports P s (s.report found) := ⟨found, rfl, h⟩

theorem foldl {α σ : Type} {items : List α} {f : σ → α → σ} (view : σ → Session)
    (h : ∀ state, ∀ item ∈ items, Reports P (view state) (view (f state item))) (state : σ) :
    Reports P (view state) (view (items.foldl f state)) :=
  foldl_rel view .refl .trans h state

end Reports

theorem Tells.reports {around : Surroundings} {asked : String → Prop} {own P : Finding → Prop}
    (hlooked : ∀ f : Finding, f.kind.OfLookup → P f) (hown : ∀ f, own f → P f)
    {s s' : Session} (h : Tells around asked own s s') : Reports P s s' := by
  refine h.keep (P := Reports P s) ?_ (.refl s)
  intro a b hstep hreports
  refine hreports.trans ?_
  have hlookup (a : Session) (link : String) : Reports P a (a.table around link).2 :=
    ⟨_, rfl, fun f hf => hlooked f (.inl (Cache.isGrammarDefect_of_mem_get hf))⟩
  cases hstep with
  | silent hfindings => exact .ofEq hfindings
  | own hfound => exact .report (fun f hf => hown f (hfound f hf)) _
  | asking hask =>
    cases hask with
    | lookup => exact hlookup _ _
    | missing =>
      exact (hlookup _ _).trans
        (.report (fun f hf => hlooked f (.inr (by rw [List.mem_singleton.1 hf]))) _)

variable (around : Surroundings)

theorem reports_follow (s : Session) (object : Object) (reference : Option ObjectId)
    (links : List String) (parent label path : String) :
    Reports (fun f => f.kind.rejects = false) s
      (s.follow around object reference links parent label path) :=
  (tells_follow around s object reference links parent label path).reports
    (fun _ h => h.not_rejects)
    fun f hchoice => by cases hchoice <;> rfl

end Session

/-- What a tree turns down carries its title and no key. -/
def Tree.Blames (t : Tree) (f : Finding) : Prop :=
  f.kind.rejects = true → f.link = t.title ∧ f.key = none

theorem Tree.blames_of_not_rejects {t : Tree} {f : Finding} (h : f.kind.rejects = false) :
    t.Blames f :=
  fun hrejects => absurd hrejects (by simp [h])

theorem Finding.OfTree.blames {t : Tree} {f : Finding} (h : f.OfTree t) : t.Blames f := by
  cases h with
  | choice hchoice => cases hchoice <;> exact t.blames_of_not_rejects rfl
  | shape => exact fun _ => ⟨rfl, rfl⟩
  | value => exact fun _ => ⟨rfl, rfl⟩

namespace Session

/-- Everything that a walk turns down is reported under the tree's title. -/
theorem reports_walkTree (around : Surroundings) (t : Tree) (s : Session) (root : Object)
    (reference : Option ObjectId) (path : String) :
    Reports t.Blames s (s.walkTree around t root reference path) :=
  (tells_walkTree around t s root reference path).reports
    (fun _ h => t.blames_of_not_rejects h.not_rejects)
    fun _ => Finding.OfTree.blames

end Session

end PdfConform
