import LabPlan.Description.Basic

/-! # Inside arguments

Arguments are nested, and what a step refers to may stand at any depth in one of them.  The references
that are collected from an argument are exactly those that stand in it. -/

namespace LabPlan

namespace Argument

/-- `Within a b`: the argument `a` is `b`, or stands somewhere inside it. -/
inductive Within : Argument → Argument → Prop where
  | refl (a : Argument) : Within a a
  | item {a b : Argument} {as : List Argument} (hb : b ∈ as) (h : Within a b) : Within a (list as)
  | entry {a : Argument} {e : Value × Argument} {es : List (Value × Argument)} (he : e ∈ es)
    (h : Within a e.2) : Within a (map es)

/-- Induction on the arguments inside an argument. -/
theorem induction {P : Argument → Prop} (literal : ∀ v, P (.literal v))
    (reference : ∀ r, P (.reference r)) (list : ∀ as, (∀ a ∈ as, P a) → P (.list as))
    (map : ∀ es, (∀ e ∈ es, P e.2) → P (.map es)) (a : Argument) : P a := by
  have nil : ∀ a ∈ [], P a := List.forall_mem_nil P
  have cons (a : Argument) (as : List Argument) (ha : P a) (has : ∀ a ∈ as, P a) :
      ∀ b ∈ a :: as, P b := List.forall_mem_cons.2 ⟨ha, has⟩
  have nil' : ∀ e ∈ ([] : List (Value × Argument)), P e.2 := List.forall_mem_nil _
  have cons' (e : Value × Argument) (es : List (Value × Argument)) (he : P e.2)
      (hes : ∀ e ∈ es, P e.2) : ∀ f ∈ e :: es, P f.2 := List.forall_mem_cons.2 ⟨he, hes⟩
  exact @Argument.rec P (fun as ↦ ∀ a ∈ as, P a) (fun es ↦ ∀ e ∈ es, P e.2) (fun e ↦ P e.2)
    literal reference list map nil cons nil' cons' (fun _ _ h ↦ h) a

@[simp] theorem references_reference (r : Reference) : (reference r).references = [r] := rfl

@[simp] theorem references_list (as : List Argument) :
    (list as).references = as.flatMap references := by rw [references, referencesAll_eq]

@[simp] theorem references_map (es : List (Value × Argument)) :
    (map es).references = es.flatMap fun e ↦ e.2.references := by
  rw [references, referencesEach_eq]

/-- The references of an argument are those that stand in it, at any depth. -/
theorem mem_references_iff {r : Reference} {a : Argument} :
    r ∈ a.references ↔ Within (reference r) a := by
  constructor
  · intro h
    induction a using Argument.induction with
    | literal v => exact absurd h List.not_mem_nil
    | reference q =>
        obtain rfl := List.mem_singleton.1 h
        exact .refl _
    | list as ih =>
        rw [references_list] at h
        obtain ⟨a, ha, hr⟩ := List.mem_flatMap.1 h
        exact .item ha (ih a ha hr)
    | map es ih =>
        rw [references_map] at h
        obtain ⟨e, he, hr⟩ := List.mem_flatMap.1 h
        exact .entry he (ih e he hr)
  · intro h
    induction a using Argument.induction with
    | literal v => cases h
    | reference q =>
        cases h
        exact List.mem_singleton_self r
    | list as ih =>
        cases h with
        | item hb h =>
            rw [references_list]
            exact List.mem_flatMap.2 ⟨_, hb, ih _ hb h⟩
    | map es ih =>
        cases h with
        | entry he h =>
            rw [references_map]
            exact List.mem_flatMap.2 ⟨_, he, ih _ he h⟩

end Argument

namespace Step

variable {s : Step} {r : Reference} {name : String}

/-- The reference stands in an argument of the step, positional or by keyword, at whatever depth. -/
def Refers (s : Step) (r : Reference) : Prop :=
  ∃ a ∈ s.args ++ s.kwargs.map Prod.snd, (Argument.reference r).Within a

/-- The step refers to this name, or to a field of it. -/
def RefersTo (s : Step) (name : String) : Prop := ∃ r, s.Refers r ∧ r.name = name

theorem mem_references_iff : r ∈ s.references ↔ s.Refers r := by
  have href : s.references = (s.args ++ s.kwargs.map Prod.snd).flatMap Argument.references := by
    rw [references, List.flatMap_append, List.flatMap_map]
  rw [href, List.mem_flatMap, Refers]
  simp only [Argument.mem_references_iff]

theorem refersTo_iff : s.RefersTo name ↔ ∃ r ∈ s.references, r.name = name := by
  simp only [RefersTo, mem_references_iff]

instance (s : Step) (name : String) : Decidable (s.RefersTo name) :=
  decidable_of_iff _ refersTo_iff.symm

end Step

end LabPlan
