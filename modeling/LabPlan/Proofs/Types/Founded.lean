import LabPlan.Proofs.Types.Meaning
import Mathlib.Order.RelClasses

/-! # Tables in which every type is described by those below it

Resolution starts with the built-in types and puts one declared type after another on top.  When a
type is put there, everything that its definition mentions is in the table already.  So a table
never needs to be gone back to: what it says of a name stays true, and the names in it are mentioned
without cycles. -/

namespace LabPlan

theorem isBuiltinName_iff {n : String} : isBuiltinName n = true ↔ ∃ b : Builtin, n = b.name := by
  rw [isBuiltinName, Option.isSome_iff_exists]
  constructor
  · rintro ⟨b, hb⟩
    exact ⟨b, Builtin.name_of_ofName? hb⟩
  · rintro ⟨b, rfl⟩
    exact ⟨b, Builtin.ofName?_name b⟩

theorem Ty.name_of_builtin? {t : Ty} {b : Builtin} (h : t.builtin? = some b) :
    t.name = some b.name := by
  match t with
  | .simple (some n) _ => exact congrArg some (Builtin.name_of_ofName? h)

theorem Ty.isSimple_ofBuiltin (b : Builtin) : (ofBuiltin b).isSimple = true := by
  cases b <;> rfl

namespace Registry

/-! ## Tables -/

theorem lookup_cons_of_ne {α : Type} {n m : String} {a : α} {xs : List (String × α)} (h : m ≠ n) :
    ((n, a) :: xs).lookup m = xs.lookup m := by
  rw [List.lookup_cons, beq_false_of_ne h]

theorem lookup_ne_none_iff {α : Type} {n : String} {xs : List (String × α)} :
    xs.lookup n ≠ none ↔ n ∈ xs.map Prod.fst := by
  simp [List.lookup_eq_none_iff]

/-- A built-in type is not declared if no declared name is built in. -/
theorem lookup_builtin_eq_none {decls : Declarations}
    (hd : ∀ n, IsDeclared decls n → isBuiltinName n = false) (b : Builtin) :
    decls.lookup b.name = none := by
  by_contra h
  have hb := hd b.name (lookup_ne_none_iff.1 h)
  rw [isBuiltinName_iff.2 ⟨b, rfl⟩] at hb
  cases hb

theorem lookup_builtinTypes (b : Builtin) :
    builtinTypes.lookup b.name = some (.ofBuiltin b) := by
  cases b <;> rfl

theorem exists_builtin_of_lookup {n : String} {t : Ty} (h : builtinTypes.lookup n = some t) :
    ∃ b : Builtin, n = b.name ∧ t = .ofBuiltin b := by
  obtain ⟨b, -, hb⟩ := List.mem_map.1 (mem_of_lookup h)
  obtain ⟨rfl, rfl⟩ := Prod.mk.inj hb
  exact ⟨b, rfl, rfl⟩

/-- The second table has all types of the first one. -/
def Extends (known known' : Known) : Prop :=
  ∀ n t, known.lookup n = some t → known'.lookup n = some t

theorem Extends.refl (known : Known) : Extends known known := fun _ _ h ↦ h

theorem Extends.trans {k₁ k₂ k₃ : Known} (h : Extends k₁ k₂) (k : Extends k₂ k₃) :
    Extends k₁ k₃ := fun n t ht ↦ k n t (h n t ht)

theorem extends_cons {known : Known} {n : String} {t : Ty} (h : known.lookup n = none) :
    Extends known ((n, t) :: known) := by
  intro m u hu
  have hne : m ≠ n := by
    rintro rfl
    rw [h] at hu
    exact absurd hu.symm (Option.some_ne_none u)
  rwa [lookup_cons_of_ne hne]

/-- The super-types are simple, and the keys strings or integers. -/
structure IsChecked (known : Known) (supers : List String) (keys : List Member) : Prop where
  supers : ∀ s ∈ supers, ∃ t, known.lookup s = some t ∧ t.isSimple = true
  keys : ∀ k ∈ keys, k = .named "string" ∨ k = .named "integer"

namespace IsChecked

variable {known : Known} {supers supers' : List String} {keys keys' : List Member}

theorem nil : IsChecked known [] [] :=
  ⟨List.forall_mem_nil _, List.forall_mem_nil _⟩

theorem append (h : IsChecked known supers keys) (h' : IsChecked known supers' keys') :
    IsChecked known (supers ++ supers') (keys ++ keys') :=
  ⟨List.forall_mem_append.2 ⟨h.supers, h'.supers⟩, List.forall_mem_append.2 ⟨h.keys, h'.keys⟩⟩

theorem mono {known' : Known} (h : IsChecked known supers keys) (hle : Extends known known') :
    IsChecked known' supers keys := by
  refine ⟨fun s hs ↦ ?_, h.keys⟩
  obtain ⟨t, ht, hsimple⟩ := h.supers s hs
  exact ⟨t, hle s t ht, hsimple⟩

end IsChecked

/-! ## Foundation -/

/-- The tables that resolution can build. -/
inductive Founded (decls : Declarations) : Known → Prop
  | builtin : Founded decls builtinTypes
  | declared {known : Known} {n : String} {d : Definition} {t : Ty} : Founded decls known →
    known.lookup n = none → decls.lookup n = some d → d.type? (known.lookup ·) (some n) = some t →
    IsChecked known d.supers d.keys → Founded decls ((n, t) :: known)

namespace Founded

variable {decls : Declarations} {known : Known} {n : String} {t : Ty}

theorem nodup (h : Founded decls known) : (known.map Prod.fst).Nodup := by
  induction h with
  | builtin => decide
  | declared _ hnew _ _ _ ih =>
      refine List.nodup_cons.2 ⟨fun hn ↦ ?_, ih⟩
      exact lookup_ne_none_iff.2 hn hnew

theorem lookup_builtin (h : Founded decls known) (b : Builtin) :
    known.lookup b.name = some (.ofBuiltin b) := by
  induction h with
  | builtin => exact lookup_builtinTypes b
  | declared _ hnew _ _ _ ih => exact extends_cons hnew _ _ ih

/-- Induction over a table: what holds of the built-in types, and of every declared type if it holds
of all types in the table below it, from which its definition describes it. -/
@[elab_as_elim]
theorem lookup_induction {P : String → Ty → Prop} (h : Founded decls known)
    (builtin : ∀ b : Builtin, P b.name (.ofBuiltin b))
    (declared : ∀ {below : Known} {n : String} {d : Definition} {t : Ty}, Founded decls below →
      Extends below known → (∀ m u, below.lookup m = some u → P m u) → known.lookup n = some t →
      decls.lookup n = some d → d.type? (below.lookup ·) (some n) = some t →
      IsChecked below d.supers d.keys → P n t)
    (ht : known.lookup n = some t) : P n t := by
  have below {table : Known} (hf : Founded decls table) (hle : Extends table known) :
      ∀ n t, table.lookup n = some t → P n t := by
    induction hf with
    | builtin =>
        intro n t ht
        obtain ⟨b, rfl, rfl⟩ := exists_builtin_of_lookup ht
        exact builtin b
    | @declared table m d u hf hnew hd hu hc ih =>
        intro n t ht
        have hsub := (extends_cons hnew).trans hle
        by_cases hn : n = m
        · subst hn
          obtain rfl := Option.some.inj (List.lookup_cons_self.symm.trans ht)
          exact declared hf hsub (ih hsub) (hle n u List.lookup_cons_self) hd hu hc
        · rw [lookup_cons_of_ne hn] at ht
          exact ih hsub n t ht
  exact below h (fun _ _ h ↦ h) n t ht

/-- A type in the table is built in, or its definition describes it there. -/
theorem cases_lookup (h : Founded decls known) (ht : known.lookup n = some t) :
    (∃ b : Builtin, n = b.name ∧ t = .ofBuiltin b) ∨
    ∃ d, decls.lookup n = some d ∧ d.type? (known.lookup ·) (some n) = some t ∧
      IsChecked known d.supers d.keys := by
  refine h.lookup_induction (fun b ↦ .inl ⟨b, rfl, rfl⟩) ?_ ht
  intro below n d t _ hle _ _ hd ht hc
  exact .inr ⟨d, hd, Definition.type?_mono ht hle, hc.mono hle⟩

theorem name_of_lookup (h : Founded decls known) (ht : known.lookup n = some t) :
    t.name = some n := by
  rcases h.cases_lookup ht with ⟨b, rfl, rfl⟩ | ⟨d, -, ht, -⟩
  · exact Ty.name_ofBuiltin b
  · exact (Definition.name_and_isSimple_of_type? ht).1

theorem builtin_or_declared (h : Founded decls known) (ht : known.lookup n = some t) :
    isBuiltinName n = true ∨ IsDeclared decls n := by
  rcases h.cases_lookup ht with ⟨b, rfl, -⟩ | ⟨d, hd, -⟩
  · exact .inl (isBuiltinName_iff.2 ⟨b, rfl⟩)
  · exact .inr (List.mem_map_of_mem (mem_of_lookup hd))

/-- A member whose type is a built-in one is its name. -/
theorem eq_named_of_builtin? (h : Founded decls known) {m : Member} {b : Builtin}
    (hm : m.type? (known.lookup ·) = some t) (hb : t.builtin? = some b) : m = .named b.name := by
  have hname := Ty.name_of_builtin? hb
  match m with
  | .named n =>
      rw [h.name_of_lookup hm] at hname
      rw [Option.some.inj hname]
  | .inline d =>
      rw [(Definition.name_and_isSimple_of_type? hm).1] at hname
      exact absurd hname.symm (Option.some_ne_none b.name)

/-- No declared name of the table can be followed for ever from mention to mention. -/
theorem acc_of_lookup (hd : ∀ n, IsDeclared decls n → isBuiltinName n = false)
    (h : Founded decls known) (ht : known.lookup n = some t) :
    Acc (fun a b ↦ Mentions decls b a) n := by
  refine h.lookup_induction (fun b ↦ .intro _ fun m hm ↦ ?_) ?_ ht
  · obtain ⟨-, d, hlook, -⟩ := hm
    cases (lookup_builtin_eq_none hd b).symm.trans hlook
  · intro below n d t _ _ ih _ hlook ht _
    refine .intro _ fun k hk ↦ ?_
    obtain ⟨-, e, he, hk⟩ := hk
    obtain rfl := Option.some.inj (hlook.symm.trans he)
    obtain ⟨v, hv⟩ := Definition.exists_of_type? ht k hk
    exact ih k v hv

/-! ## Tables of all declared names -/

section All

variable (hd : ∀ n, IsDeclared decls n → isBuiltinName n = false) (h : Founded decls known)
  (hall : ∀ n, IsDeclared decls n → known.lookup n ≠ none)

include hd h hall

theorem exists_type {d : Definition} (hn : decls.lookup n = some d) :
    ∃ t, known.lookup n = some t ∧ d.type? (known.lookup ·) (some n) = some t ∧
      IsChecked known d.supers d.keys := by
  have hdecl : IsDeclared decls n := List.mem_map_of_mem (mem_of_lookup hn)
  obtain ⟨t, ht⟩ := Option.ne_none_iff_exists'.1 (hall n hdecl)
  rcases h.cases_lookup ht with ⟨b, rfl, -⟩ | ⟨e, he, htype, hc⟩
  · cases (lookup_builtin_eq_none hd b).symm.trans hn
  · obtain rfl := Option.some.inj (hn.symm.trans he)
    exact ⟨t, ht, htype, hc⟩

/-- Declarations have a meaning if a table holds all of them. -/
theorem isMeaningful : IsMeaningful decls := by
  constructor
  case known =>
    intro n d hn m hm
    obtain ⟨t, -, ht, -⟩ := exists_type hd h hall hn
    obtain ⟨u, hu⟩ := Definition.exists_of_type? ht m hm
    exact h.builtin_or_declared hu
  case acyclic =>
    intro n hn
    have hacc (m : String) : Acc (fun a b ↦ Mentions decls b a) m := by
      refine .intro m fun k hk ↦ ?_
      obtain ⟨t, ht⟩ := Option.ne_none_iff_exists'.1 (hall k hk.1)
      exact h.acc_of_lookup hd ht
    have hwf := WellFounded.intro hacc
    have hswap := Relation.transGen_swap.2 hn
    exact hwf.transGen.asymmetric n n hswap hswap
  case supers =>
    intro n d hn s hs
    obtain ⟨-, -, -, hc⟩ := exists_type hd h hall hn
    obtain ⟨u, hu, hsimple⟩ := hc.supers s hs
    rcases h.cases_lookup hu with ⟨b, rfl, -⟩ | ⟨e, he, hu, -⟩
    · exact .inl (isBuiltinName_iff.2 ⟨b, rfl⟩)
    · rw [(Definition.name_and_isSimple_of_type? hu).2] at hsimple
      match e with
      | .simple v => exact .inr ⟨v, he⟩
  case keys =>
    intro n d hn
    obtain ⟨-, -, -, hc⟩ := exists_type hd h hall hn
    exact hc.keys

/-- A table that holds all declared names gives them their meaning. -/
theorem isRegistryOf : IsRegistryOf decls ⟨known⟩ := by
  constructor
  case nodup => exact h.nodup
  case names =>
    intro n
    rw [← lookup_ne_none_iff]
    constructor
    · intro hn
      obtain ⟨t, ht⟩ := Option.ne_none_iff_exists'.1 hn
      exact (h.builtin_or_declared ht).symm
    · rintro (hn | hn)
      · exact hall n hn
      · obtain ⟨b, rfl⟩ := isBuiltinName_iff.1 hn
        rw [h.lookup_builtin b]
        exact Option.some_ne_none _
  case builtin => exact h.lookup_builtin
  case declared =>
    intro n d hn
    obtain ⟨t, ht, htype, -⟩ := exists_type hd h hall hn
    exact ⟨t, ht, h.name_of_lookup ht, htype⟩

end All

end Founded

end Registry

end LabPlan
