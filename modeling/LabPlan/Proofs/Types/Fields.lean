import LabPlan.Proofs.Types.Locality
import LabPlan.Proofs.Types.Reading
import LabPlan.Proofs.Types.Rules
import LabPlan.Types.Accept
import Mathlib

/-! # The fields of registered types

The types of a registry have fields of distinct names exactly if their definitions have: a tag can
set apart two keys of one text, which then name two fields.  Where field names are distinct, the
types of a registry are a family, a value is taken only if its keys are the names of the fields, and
only fields of the same names are compared. -/

namespace LabPlan

variable {types : String → Option Ty}

/-! ## Members and parts -/

namespace Definition

variable {d : Definition} {name : Option String} {t : Ty}

/-- The members of a definition describe the parts of its type. -/
theorem forall₂_members_parts (h : d.type? types name = some t) :
    List.Forall₂ (fun m u ↦ m.type? types = some u) d.members t.parts := by
  match d with
  | .simple none =>
      obtain rfl := Option.some.inj h
      exact .nil
  | .simple (some s) | .list m =>
      obtain ⟨u, hu, rfl⟩ := Option.map_eq_some_iff.1 h
      exact .cons hu .nil
  | .tuple ms | .union ms =>
      obtain ⟨us, hus, rfl⟩ := Option.map_eq_some_iff.1 h
      exact Member.typesAll_eq_some_iff.1 hus
  | .fields fs =>
      obtain ⟨gs, hgs, rfl⟩ := Option.map_eq_some_iff.1 h
      refine List.forall₂_map_left_iff.2 (List.forall₂_map_right_iff.2 ?_)
      exact (Member.typesFields_eq_some_iff.1 hgs).imp fun _ _ hfg ↦ hfg.2
  | .keyed k v =>
      obtain ⟨u, hu, h⟩ := Option.bind_eq_some_iff.1 h
      obtain ⟨w, hw, rfl⟩ := Option.map_eq_some_iff.1 h
      exact .cons hu (.cons hw .nil)

/-- The fields of a type have the names that they have in its definition. -/
theorem exists_fields_of_type? {fs : List (String × Member)}
    (h : (Definition.fields fs).type? types name = some t) :
    ∃ gs, t = .fields name gs ∧ gs.map Prod.fst = fs.map Prod.fst := by
  obtain ⟨gs, hgs, rfl⟩ := Option.map_eq_some_iff.1 h
  refine ⟨gs, rfl, ?_⟩
  have hnames : List.Forall₂ (fun n m ↦ n = m) (fs.map Prod.fst) (gs.map Prod.fst) :=
    List.forall₂_map_left_iff.2 (List.forall₂_map_right_iff.2
      ((Member.typesFields_eq_some_iff.1 hgs).imp fun _ _ hfg ↦ hfg.1))
  rw [List.forall₂_eq_eq_eq] at hnames
  exact hnames.symm

end Definition

/-- The types that a built-in type is made of are built in. -/
theorem Ty.exists_of_within_ofBuiltin {s : Ty} {b : Builtin} (h : s.Within (.ofBuiltin b)) :
    ∃ c, s = .ofBuiltin c := by
  generalize ht : Ty.ofBuiltin b = t at h
  induction h generalizing b with
  | refl => exact ⟨b, ht.symm⟩
  | part hu _ ih =>
      rw [← ht, parts_ofBuiltin, Option.mem_toList] at hu
      obtain ⟨c, -, hc⟩ := Option.map_eq_some_iff.1 hu
      exact ih hc

namespace Registry

variable {es : Entries} {decls : Declarations} {known known' : Known} {r : Registry}

/-! ## Tables of sound types -/

/-- The type is sound by itself, and if it has a name, the table has it under that name. -/
structure IsSettled (known : Known) (t : Ty) : Prop where
  sound : t.IsSound
  named {n : String} : t.name = some n → known.lookup n = some t

theorem IsChecked.member {d : Definition} (h : IsChecked known d.supers d.keys) {m : Member}
    (hm : m ∈ d.members) : IsChecked known m.supers m.keys where
  supers s hs := h.supers s (Definition.supers_subset hm hs)
  keys k hk := h.keys k (Definition.keys_subset hm hk)

section Founded

variable {d : Definition} {name : Option String} {t : Ty}

/-- A definition that can be written and has been checked describes a sound type. -/
theorem Founded.isSound_of_type? (hf : Founded decls known) (hd : d.isWellFormed = true)
    (hname : d.isSimple = true → name.isSome = true) (hc : IsChecked known d.supers d.keys)
    (ht : d.type? (known.lookup ·) name = some t) : t.IsSound := by
  match d with
  | .simple none =>
      obtain rfl := Option.some.inj ht
      exact ⟨hname rfl, fun u hu ↦ by cases hu⟩
  | .simple (some s) =>
      obtain ⟨u, hu, rfl⟩ := Option.map_eq_some_iff.1 ht
      obtain ⟨w, hw, hsimple⟩ := hc.supers s List.mem_cons_self
      obtain rfl := Option.some.inj (hu.symm.trans hw)
      exact ⟨hname rfl, fun w hw ↦ Option.some.inj hw ▸ hsimple⟩
  | .list m | .tuple ms | .union ms =>
      obtain ⟨u, -, rfl⟩ := Option.map_eq_some_iff.1 ht
      trivial
  | .fields fs =>
      obtain ⟨gs, rfl, hnames⟩ := Definition.exists_fields_of_type? ht
      rw [Ty.IsSound, hnames]
      exact (Definition.isWellFormed_iff.1 hd).1 fs rfl
  | .keyed k v =>
      obtain ⟨u, hu, ht⟩ := Option.bind_eq_some_iff.1 ht
      obtain ⟨w, -, rfl⟩ := Option.map_eq_some_iff.1 ht
      rcases hc.keys k List.mem_cons_self with rfl | rfl
      · exact .inl (Option.some.inj (hu.symm.trans (hf.lookup_builtin .string)))
      · exact .inr (Option.some.inj (hu.symm.trans (hf.lookup_builtin .integer)))

/-- What a type is made of is settled if everything in the table that describes it is: each part
belongs to a type with a name, or is described in place. -/
theorem Founded.isSettled_of_part (hf : Founded decls known)
    (hall : ∀ n u, known.lookup n = some u → ∀ s, s.Within u → IsSettled known' s)
    (hd : d.isWellFormed = true) (hc : IsChecked known d.supers d.keys)
    (ht : d.type? (known.lookup ·) name = some t) :
    ∀ u ∈ t.parts, ∀ s, s.Within u → IsSettled known' s := by
  induction d using Definition.members_induction generalizing name t with
  | h d ih =>
      intro u hu s hs
      obtain ⟨m, hm, hmu⟩ := Checked.exists_of_forall₂ (Definition.forall₂_members_parts ht) hu
      have hwf := (Definition.isWellFormed_iff.1 hd).2.2 m hm
      match m with
      | .named n => exact hall n u hmu s hs
      | .inline e =>
          rw [Member.isWellFormed, Bool.and_eq_true, Bool.not_eq_true'] at hwf
          have hc := hc.member hm
          cases hs with
          | refl =>
              refine ⟨hf.isSound_of_type? hwf.2 (fun h ↦ ?_) hc hmu, fun hn ↦ ?_⟩
              · cases hwf.1.symm.trans h
              · cases (Definition.name_and_isSimple_of_type? hmu).1.symm.trans hn
          | part hw hs => exact ih e hm hwf.2 hc hmu _ hw s hs

/-- All types in a founded table are settled if their definitions can be written. -/
theorem Founded.isSettled (hwf : ∀ n d, decls.lookup n = some d → d.isWellFormed = true)
    (hf : Founded decls known) {n : String} (ht : known.lookup n = some t) {s : Ty}
    (hs : s.Within t) : IsSettled known s := by
  refine hf.lookup_induction (P := fun _ t ↦ ∀ s, s.Within t → IsSettled known s) ?builtin
    ?declared ht s hs
  case builtin =>
    intro b s hs
    obtain ⟨c, rfl⟩ := Ty.exists_of_within_ofBuiltin hs
    refine ⟨Ty.isSound_ofBuiltin c, fun hn ↦ ?_⟩
    rw [Ty.name_ofBuiltin] at hn
    rw [← Option.some.inj hn]
    exact hf.lookup_builtin c
  case declared =>
    intro below n d t hbelow _ ih hn hd ht hc s hs
    cases hs with
    | refl =>
        refine ⟨hbelow.isSound_of_type? (hwf n d hd) (fun _ ↦ rfl) hc ht, fun hname ↦ ?_⟩
        rw [(Definition.name_and_isSimple_of_type? ht).1] at hname
        rwa [← Option.some.inj hname]
    | part hp hs => exact hbelow.isSettled_of_part ih (hwf n d hd) hc ht _ hp s hs

end Founded

/-! ## Registries -/

/-- The type is registered, or a registered type is made of it. -/
def Holds (r : Registry) (t : Ty) : Prop := ∃ n u, r.get? n = some u ∧ t.Within u

/-- No field mapping in a registered type has two fields of one name. -/
def HasDistinctFields (r : Registry) : Prop :=
  ∀ n fs, r.Holds (.fields n fs) → (fs.map Prod.fst).Nodup

end Registry

section Types

variable {d : Definition} {name owner : Option String} {v : Value} {t : Ty}

/-- What is read and describes a type with fields of distinct names can be written. -/
theorem Definition.isWellFormed_of_type? (hread : Definition.ofValue owner v = .ok d)
    (ht : d.type? types name = some t)
    (hfields : ∀ n fs, (Ty.fields n fs).Within t → (fs.map Prod.fst).Nodup) :
    d.isWellFormed = true := by
  induction d using members_induction generalizing owner v name t with
  | h d ih =>
      refine isWellFormed_of_ofValue hread ?_ fun e he ↦ ?_
      · rintro fs rfl
        obtain ⟨gs, rfl, hnames⟩ := exists_fields_of_type? ht
        exact hnames ▸ hfields name gs (.refl _)
      · obtain ⟨-, w, -, hw⟩ := exists_of_inline_mem hread he
        obtain ⟨u, hu, heu⟩ := Checked.exists_of_forall₂ (forall₂_members_parts ht).flip he
        exact ih e he hw heu fun n fs hs ↦ hfields n fs (.part hu hs)

namespace Ty

variable {n m : Option String} {fs gs : List (String × Ty)}

/-- Fields of distinct names take a mapping only if its keys are these names, all without tags. -/
theorem keys_perm_of_accepts (hd : (fs.map Prod.fst).Nodup)
    (h : (fields n fs).accepts v = true) :
    ∃ es, v.entries? = some es ∧ es.keys.Perm (fs.map fun f ↦ .string f.1) := by
  rw [accepts] at h
  split at h
  · rename_i es hes
    rw [Bool.and_eq_true, beq_iff_eq, acceptsFields_eq, List.all_eq_true] at h
    obtain ⟨hlength, hfields⟩ := h
    have hnodup : (fs.map fun f ↦ Value.string f.1).Nodup := by
      have := hd.map (f := Value.string) fun _ _ ↦ Value.string.inj
      rwa [List.map_map] at this
    have hsub : (fs.map fun f ↦ Value.string f.1) ⊆ es.keys := by
      intro k hk
      obtain ⟨f, hf, rfl⟩ := List.mem_map.1 hk
      obtain ⟨w, hw, -⟩ := (Option.any_eq_true _ _).1 (hfields f hf)
      exact List.mem_map_of_mem (Entries.mem_of_lookup hw)
    refine ⟨es, hes, ((hnodup.subperm hsub).perm_of_length_le ?_).symm⟩
    simp [Entries.keys, hlength]
  · cases h

/-- In a family, fields are below fields of the same names only. -/
theorem names_iff_of_isSubtype {F : Ty → Prop} (hF : Family F) (hs : F (fields n fs))
    (ht : F (fields m gs)) (h : (fields n fs).isSubtype (fields m gs) = true) (name : String) :
    name ∈ fs.map Prod.fst ↔ name ∈ gs.map Prod.fst := by
  rcases any_or_fits_of_isSubtype hF hs ht id id h with hany | hfits
  · cases hany
  · exact hfits.1 name

end Ty

end Types

namespace Registry

variable {es : Entries} {decls : Declarations} {r : Registry}

/-- Where definitions can be written, a name stands for one type in all that is registered. -/
theorem family_holds (hwf : ∀ n d, decls.lookup n = some d → d.isWellFormed = true)
    (hf : Founded decls r.types) : Family r.Holds := by
  have hsettled {t : Ty} (ht : r.Holds t) : IsSettled r.types t := by
    obtain ⟨n, u, hu, ht⟩ := ht
    exact hf.isSettled hwf hu ht
  constructor
  case parts =>
    rintro s t ⟨n, u, hu, ht⟩ hs
    exact ⟨n, u, hu, .trans (.part hs (.refl s)) ht⟩
  case sound => exact fun ht ↦ (hsettled ht).sound
  case named =>
    intro s t n hs ht hn hm
    exact Option.some.inj (((hsettled hs).named hn).symm.trans ((hsettled ht).named hm))
  case builtin =>
    intro t b ht hb
    exact Option.some.inj (((hsettled ht).named hb).symm.trans (hf.lookup_builtin b))

/-- Registered types have fields of distinct names exactly if their definitions have. -/
theorem hasDistinctFields_iff (h : Declares es decls) (hf : Founded decls r.types)
    (hr : IsRegistryOf decls r) :
    r.HasDistinctFields ↔ ∀ n d, decls.lookup n = some d → d.isWellFormed = true := by
  constructor
  · intro hd n d hn
    obtain ⟨v, -, hread⟩ := h.mem_iff.1 (mem_of_lookup hn)
    obtain ⟨t, hget, -, ht⟩ := hr.declared hn
    exact Definition.isWellFormed_of_type? hread ht fun m fs hs ↦ hd m fs ⟨n, t, hget, hs⟩
  · intro hwf n fs hs
    exact (family_holds hwf hf).sound hs

/-- The types of a registry have fields of distinct names exactly if their definitions have, as they
do where no mapping has two keys of one text.  Then the types are a family, fields take only a
mapping whose keys are their names, and are below fields of the same names only. -/
theorem hasDistinctFields_of_ofEntries (h : ofEntries es = .ok r) :
    (∃ decls, Declares es decls ∧ (r.HasDistinctFields ↔
      ∀ n d, decls.lookup n = some d → d.isWellFormed = true)) ∧
    ((∀ e ∈ es, e.2.NamesDistinct) → r.HasDistinctFields) ∧
    (r.HasDistinctFields → Family r.Holds ∧
      (∀ n fs v, r.Holds (.fields n fs) → (Ty.fields n fs).accepts v = true →
        ∃ vs, v.entries? = some vs ∧ vs.keys.Perm (fs.map fun f ↦ .string f.1)) ∧
      ∀ n fs m gs, r.Holds (.fields n fs) → r.Holds (.fields m gs) →
        (Ty.fields n fs).isSubtype (.fields m gs) = true →
        ∀ name, name ∈ fs.map Prod.fst ↔ name ∈ gs.map Prod.fst) := by
  obtain ⟨decls, hdecls, hf, -, hr⟩ := exists_founded_of_ofEntries h
  have hiff := hasDistinctFields_iff hdecls hf hr
  refine ⟨⟨decls, hdecls, hiff⟩, fun hnames ↦ hiff.2 fun n d hn ↦ ?_, fun hd ↦ ?_⟩
  · obtain ⟨v, hv, hread⟩ := hdecls.mem_iff.1 (mem_of_lookup hn)
    exact Definition.isWellFormed_of_namesDistinct (hnames _ hv) hread
  · have hF := family_holds (hiff.1 hd) hf
    refine ⟨hF, fun n fs v hs ↦ Ty.keys_perm_of_accepts (hd n fs hs), ?_⟩
    exact fun n fs m gs hs ht ↦ Ty.names_iff_of_isSubtype hF hs ht

/-- A declaration with a tag on the key of a field. -/
def marked : Entries := [(.string "Point", .mapping [(.string "mapping", .mapping [
  (.string "x", .string "number"), (.tagged "old" (.string "y"), .string "integer")])])]

/-- The type that it declares. -/
def markedTy : Ty := .fields "Point" [("x", Ty.ofBuiltin .number), ("y", Ty.ofBuiltin .integer)]

/-- The theorem at a tagged key that is the only one of its text. -/
theorem marked_hasDistinctFields : ∃ r, ofEntries marked = .ok r ∧
    (∀ e ∈ marked, e.2.NamesDistinct) ∧ r.HasDistinctFields ∧ Family r.Holds ∧
    r.get? "Point" = some markedTy := by
  have hr : ofEntries marked = .ok ⟨("Point", markedTy) :: builtinTypes⟩ := by cbv
  have hnames : ∀ e ∈ marked, e.2.NamesDistinct := by
    simp +decide [marked, Value.NamesDistinct, Value.everywhere_mapping, Value.everywhere_tagged,
      Value.ownEntries]
  obtain ⟨-, hdistinct, hfamily⟩ := hasDistinctFields_of_ofEntries hr
  exact ⟨_, hr, hnames, hdistinct hnames, (hfamily (hdistinct hnames)).1, rfl⟩

/-- Two declarations, in the first of which a tag sets apart two keys of one text. -/
def doubled : Entries := [
  (.string "Twice", .mapping [(.string "mapping", .mapping [
    (.string "a", .string "string"), (.tagged "old" (.string "a"), .string "string")])]),
  (.string "Pair", .mapping [(.string "mapping", .mapping [
    (.string "a", .string "string"), (.string "b", .string "string")])])]

/-- The type of the first declaration, which has two fields of one name. -/
def twiceTy : Ty := .fields "Twice" [("a", Ty.ofBuiltin .string), ("a", Ty.ofBuiltin .string)]

/-- The type of the second declaration. -/
def pairTy : Ty := .fields "Pair" [("a", Ty.ofBuiltin .string), ("b", Ty.ofBuiltin .string)]

/-- Its keys are distinct and it has a registry, yet two fields have one name: their type takes a
mapping with a key that is no field, and a type with another field is below it. -/
theorem doubled_not_hasDistinctFields : (Value.mapping doubled).KeysDistinct ∧
    ∃ r, ofEntries doubled = .ok r ∧ ¬ r.HasDistinctFields ∧
      r.get? "Twice" = some twiceTy ∧ r.get? "Pair" = some pairTy ∧
      twiceTy.accepts (.mapping [(.string "a", .string "x"), (.string "z", .int 1)]) = true ∧
      pairTy.isSubtype twiceTy = true := by
  have hd : (Value.mapping doubled).KeysDistinct := by
    simp [doubled, Value.KeysDistinct, Value.everywhere_mapping, Value.everywhere_tagged,
      Value.ownEntries, Entries.Distinct, Value.same]
  have hr : ofEntries doubled = .ok ⟨("Pair", pairTy) :: ("Twice", twiceTy) :: builtinTypes⟩ := by
    cbv
  refine ⟨hd, _, hr, fun h ↦ ?_, rfl, rfl, by decide, by decide +kernel⟩
  exact absurd (h _ _ ⟨"Twice", twiceTy, rfl, .refl _⟩) (by decide)

end Registry

end LabPlan
