import LabPlan.Proofs.Types.Reading

/-! # Writing definitions

A definition that can be written is read from what is written of it and, where nothing is tagged,
from nothing else; only the empty mapping is read like nothing at all.  The five keys of a
definition exclude each other, so that an outline is made from one entry, or from none.  A member
in place is read as a definition is, but it is never simple, so that there the empty mapping is
refused. -/

namespace LabPlan

/-- A value without tags has no tagged keys. -/
theorem Value.TagFree.keysUntagged {v : Value} (h : v.TagFree) : v.KeysUntagged := by
  intro u hu e he
  cases u with
  | mapping es => exact h e.1 (.trans (.key he (.refl _)) hu)
  | _ => exact absurd he List.not_mem_nil

namespace Definition

variable {name : Option String} {es : Entries} {o : Outline}

/-! ## Outlines -/

/-- The entry that an outline is made from, if any. -/
def Outline.source? : Outline → Option (Value × Value)
  | simple s => s.map fun v ↦ (.string "is_a", v)
  | list v => some (.string "list", v)
  | tuple v => some (.string "tuple", v)
  | mapping v => some (.string "mapping", v)
  | union v => some (.string "union", v)

theorem source?_ofStructure (s : Structure) (v : Value) :
    (Outline.ofStructure s v).source? = some (.string s.key, v) := by
  cases s <;> rfl

@[simp] theorem outline_isA (name : Option String) (v : Value) :
    outline name [(.string "is_a", v)] = .ok (.simple (some v)) := rfl

@[simp] theorem outline_list (name : Option String) (v : Value) :
    outline name [(.string "list", v)] = .ok (.list v) := rfl

@[simp] theorem outline_tuple (name : Option String) (v : Value) :
    outline name [(.string "tuple", v)] = .ok (.tuple v) := rfl

@[simp] theorem outline_mapping (name : Option String) (v : Value) :
    outline name [(.string "mapping", v)] = .ok (.mapping v) := rfl

@[simp] theorem outline_union (name : Option String) (v : Value) :
    outline name [(.string "union", v)] = .ok (.union v) := rfl

theorem mem_structures_iff {s : Structure} {v : Value} :
    (s, v) ∈ structures es ↔ es.lookup s.key = some v := by
  rw [structures, List.mem_filterMap]
  constructor
  · rintro ⟨s', -, h⟩
    obtain ⟨w, hw, heq⟩ := Option.map_eq_some_iff.1 h
    obtain ⟨rfl, rfl⟩ := Prod.mk.inj heq
    exact hw
  · intro h
    exact ⟨s, by cases s <;> decide, by rw [h]; rfl⟩

/-- The keys of a definition are those of the structures and two more. -/
theorem isKnownKey_iff {key : String} : isKnownKey key = true ↔
    key = "is_a" ∨ key = "union" ∨ ∃ s : Structure, key = s.key := by
  rw [isKnownKey, List.contains_iff_mem]
  constructor
  · intro h
    simp only [List.mem_cons, List.not_mem_nil, or_false] at h
    rcases h with rfl | rfl | rfl | rfl | rfl
    · exact .inl rfl
    · exact .inr (.inr ⟨.list, rfl⟩)
    · exact .inr (.inr ⟨.tuple, rfl⟩)
    · exact .inr (.inr ⟨.mapping, rfl⟩)
    · exact .inr (.inl rfl)
  · rintro (rfl | rfl | ⟨s, rfl⟩)
    · decide
    · decide
    · cases s <;> decide

theorem exists_known_of_checkKeys (h : checkKeys name es = .ok ()) {e : Value × Value}
    (he : e ∈ es) : ∃ key, e.1.text? = some key ∧ isKnownKey key = true := by
  induction es with
  | nil => exact absurd he List.not_mem_nil
  | cons f es ih =>
      obtain ⟨k, v⟩ := f
      rw [checkKeys] at h
      split at h
      · rename_i key hk
        split at h
        · rename_i hknown
          rcases List.mem_cons.1 he with rfl | he
          · exact ⟨key, hk, hknown⟩
          · exact ih h he
        · cases h
      · cases h

/-- An outline is of the only structure, of a union, or of a simple type. -/
theorem outline_cases (h : outline name es = .ok o) : checkKeys name es = .ok () ∧
    ((∃ s v, structures es = [(s, v)] ∧ es.lookup "union" = none ∧ es.lookup "is_a" = none ∧
        o = .ofStructure s v) ∨
      (∃ v, structures es = [] ∧ es.lookup "union" = some v ∧ es.lookup "is_a" = none ∧
        o = .union v) ∨
      (structures es = [] ∧ es.lookup "union" = none ∧ o = .simple (es.lookup "is_a"))) := by
  obtain ⟨⟨⟩, hkeys, h⟩ := bind_eq_ok_iff.1 h
  refine ⟨hkeys, ?_⟩
  split at h
  · cases h
  · cases h
  · cases h
  · rename_i s v hs hu hi
    exact .inl ⟨s, v, hs, hu, hi, (Except.ok.inj h).symm⟩
  · cases h
  · rename_i v hs hu hi
    exact .inr (.inl ⟨v, hs, hu, hi, (Except.ok.inj h).symm⟩)
  · rename_i hs hu
    exact .inr (.inr ⟨hs, hu, (Except.ok.inj h).symm⟩)

/-- What stands under a known key is what the outline is made from. -/
theorem source?_of_lookup (h : outline name es = .ok o) {key : String}
    (hk : isKnownKey key = true) {v : Value} (hv : es.lookup key = some v) :
    o.source? = some (.string key, v) := by
  obtain ⟨-, ⟨s, w, hs, hu, hi, rfl⟩ | ⟨w, hs, hu, hi, rfl⟩ | ⟨hs, hu, rfl⟩⟩ := outline_cases h
  · rcases isKnownKey_iff.1 hk with rfl | rfl | ⟨t, rfl⟩
    · cases hi.symm.trans hv
    · cases hu.symm.trans hv
    · have hmem := mem_structures_iff.2 hv
      rw [hs] at hmem
      obtain ⟨rfl, rfl⟩ := Prod.mk.inj (List.mem_singleton.1 hmem)
      exact source?_ofStructure t v
  · rcases isKnownKey_iff.1 hk with rfl | rfl | ⟨t, rfl⟩
    · cases hi.symm.trans hv
    · obtain rfl := Option.some.inj (hu.symm.trans hv)
      rfl
    · exact absurd (hs ▸ mem_structures_iff.2 hv) List.not_mem_nil
  · rcases isKnownKey_iff.1 hk with rfl | rfl | ⟨t, rfl⟩
    · rw [hv]
      rfl
    · cases hu.symm.trans hv
    · exact absurd (hs ▸ mem_structures_iff.2 hv) List.not_mem_nil

/-- What an outline is made from stands in the mapping. -/
theorem mem_of_source? (h : outline name es = .ok o) {e : Value × Value}
    (he : o.source? = some e) : e ∈ es := by
  obtain ⟨-, ⟨s, v, hs, -, -, rfl⟩ | ⟨v, -, hu, -, rfl⟩ | ⟨-, -, rfl⟩⟩ := outline_cases h
  · rw [source?_ofStructure] at he
    obtain rfl := Option.some.inj he
    exact Entries.mem_of_lookup (mem_structures_iff.1 (hs ▸ List.mem_cons_self))
  · obtain rfl := Option.some.inj he
    exact Entries.mem_of_lookup hu
  · obtain ⟨v, hv, rfl⟩ := Option.map_eq_some_iff.1 he
    exact Entries.mem_of_lookup hv

/-- Where keys are plain, a mapping that has an outline has no entry but the one that the outline is
made from. -/
theorem eq_toList_of_outline (hv : (Value.mapping es).HasPlainKeys) (h : outline name es = .ok o) :
    es = o.source?.toList := by
  have hknown {e : Value × Value} (he : e ∈ es) := exists_known_of_checkKeys (outline_cases h).1 he
  have hmem (e : Value × Value) : e ∈ es ↔ e ∈ o.source?.toList := by
    rw [Option.mem_toList]
    refine ⟨fun he ↦ ?_, mem_of_source? h⟩
    obtain ⟨k, v⟩ := e
    obtain ⟨key, ht, hk⟩ := hknown he
    obtain rfl := Value.eq_string_of_text? (hv.untagged.here _ he) ht
    exact source?_of_lookup h hk (hv.distinct_entries.lookup_eq_some_iff.2 he)
  have hnodup : es.Nodup := by
    refine List.Pairwise.imp_of_mem ?_ (List.pairwise_filterMap.1 hv.namesDistinct)
    rintro e _ he - hne rfl
    obtain ⟨key, ht, -⟩ := hknown he
    exact hne key ht key ht rfl
  have hperm := (List.perm_ext_iff_of_nodup hnodup (Option.toList_nodup _)).2 hmem
  cases ho : o.source? with
  | none =>
      rw [ho] at hperm
      exact List.perm_nil.1 hperm
  | some e =>
      rw [ho] at hperm
      exact List.perm_singleton.1 hperm

end Definition

/-! ## Members -/

namespace Member

variable {owner : Option String} {v : Value}

theorem ofValue_eq_named_iff {n : String} : ofValue owner v = .ok (.named n) ↔ v = .string n := by
  constructor
  · intro h
    rw [ofValue.eq_def] at h
    split at h
    · obtain rfl := Member.named.inj (Except.ok.inj h)
      rfl
    · split at h
      · cases h
      · split at h
        · cases h
        · cases h
    · cases h
    · cases h
  · rintro rfl
    rw [ofValue]

theorem ofValue_eq_inline_iff {d : Definition} : ofValue owner v = .ok (.inline d) ↔
    Definition.ofValue none v = .ok d ∧ d.isSimple = false := by
  refine ⟨ofValue_inline, fun ⟨h, hsimple⟩ ↦ ?_⟩
  rcases Definition.ofValue_cases h with ⟨-, rfl⟩ | ⟨es, rfl, -⟩
  · cases hsimple
  · rw [ofValue, h]
    exact if_neg (Bool.eq_false_iff.1 hsimple)

end Member

namespace Definition

variable {name : Option String} {v : Value} {d : Definition}

/-! ## What is written -/

/-- Induction on the definitions that can be written. -/
theorem wellFormed_induction {P : Definition → Prop} {Q : Member → Prop}
    (simple : ∀ s, P (.simple s)) (list : ∀ m, Q m → P (.list m))
    (tuple : ∀ ms, (∀ m ∈ ms, Q m) → P (.tuple ms))
    (fields : ∀ fs, (fs.map Prod.fst).Nodup → (∀ f ∈ fs, Q f.2) → P (.fields fs))
    (keyed : ∀ k v, Q k → Q v → P (.keyed k v))
    (union : ∀ ms, ms ≠ [] → (∀ m ∈ ms, Q m) → P (.union ms)) (named : ∀ n, Q (.named n))
    (inline : ∀ d, d.isSimple = false → P d → Q (.inline d)) (h : d.isWellFormed = true) : P d := by
  induction d using members_induction with
  | h d ih =>
      obtain ⟨hfields, hunion, hmembers⟩ := isWellFormed_iff.1 h
      have hmember : ∀ m ∈ d.members, Q m := by
        intro m hm
        have hwf := hmembers m hm
        cases m with
        | named n => exact named n
        | inline e =>
            rw [Member.isWellFormed, Bool.and_eq_true, Bool.not_eq_true'] at hwf
            exact inline e hwf.1 (ih e hm hwf.2)
      cases d with
      | simple s => exact simple s
      | list m => exact list m (hmember m List.mem_cons_self)
      | tuple ms => exact tuple ms hmember
      | fields fs => exact fields fs (hfields fs rfl) (List.forall_mem_map.1 hmember)
      | keyed k v => exact keyed k v (hmember k (by simp [members])) (hmember v (by simp [members]))
      | union ms => exact union ms (fun hnil ↦ hunion (hnil ▸ rfl)) hmember

/-- A definition that can be written is read from what is written of it. -/
theorem ofValue_toValue (h : d.isWellFormed = true) (name : Option String) :
    ofValue name d.toValue = .ok d := by
  have hitems {name : Option String} {ms : List Member}
      (hms : ∀ m ∈ ms, ∀ name, Member.ofValue name m.toValue = .ok m) :
      Member.listOfValues name (Member.toValues ms) = .ok ms := by
    rw [Member.listOfValues_eq_ok_iff, Member.toValues_eq, List.forall₂_map_left_iff]
    exact List.forall₂_same.2 fun m hm ↦ hms m hm name
  refine wellFormed_induction (P := fun d ↦ ∀ name, ofValue name d.toValue = .ok d)
    (Q := fun m ↦ ∀ name, Member.ofValue name m.toValue = .ok m) ?simple ?list ?tuple ?fields
    ?keyed ?union ?named ?inline h name
  case simple =>
    intro s name
    cases s with
    | none => rw [toValue, ofValue]
    | some s => simp only [toValue, ofValue, outline_isA]
  case list =>
    intro m hm name
    simp only [toValue, ofValue, outline_list, hm, Except.map]
  case tuple =>
    intro ms hms name
    simp only [toValue, ofValue, outline_tuple, hitems hms, Except.map]
  case fields =>
    intro fs _ hfs name
    have hread : Member.fieldsOfEntries name (Member.toEntries fs) = .ok fs := by
      rw [Member.fieldsOfEntries_eq_ok_iff, Member.toEntries_eq, List.forall₂_map_left_iff]
      exact List.forall₂_same.2 fun f hf ↦ ⟨rfl, hfs f hf name⟩
    simp only [toValue, ofValue, outline_mapping, hread, Except.map]
  case keyed =>
    intro k v hk hv name
    simp only [toValue, ofValue, outline_mapping, hk, hv, Except.map]
  case union =>
    -- Some member is there, so that the case of an empty union does not come up.
    intro ms hne hms name
    simp only [toValue, ofValue, outline_union, hitems hms]
  case named => exact fun n name ↦ Member.ofValue_eq_named_iff.2 rfl
  case inline => exact fun d hd hread name ↦ Member.ofValue_eq_inline_iff.2 ⟨hread none, hd⟩

/-- What holds of nothing, of strings, of sequences, and of mappings whose keys are distinct
strings holds everywhere in what is written of a definition. -/
theorem everywhere_toValue {P : Value → Prop} (null : P .null) (string : ∀ s, P (.string s))
    (sequence : ∀ vs, P (.sequence vs))
    (mapping : ∀ es : Entries, (∀ e ∈ es, ∃ s, e.1 = .string s) → es.Distinct → P (.mapping es))
    (h : d.isWellFormed = true) : Value.Everywhere P d.toValue := by
  have hstring (s : String) : Value.Everywhere P (.string s) :=
    Value.everywhere_string.2 (string s)
  have hentry {s : String} {v : Value} (hv : Value.Everywhere P v) :
      Value.Everywhere P (.mapping [(.string s, v)]) :=
    Value.everywhere_mapping.2 ⟨mapping _ (List.forall_mem_singleton.2 ⟨s, rfl⟩)
      (List.pairwise_singleton _ _), List.forall_mem_singleton.2 ⟨hstring s, hv⟩⟩
  have hitems {ms : List Member} (hms : ∀ m ∈ ms, Value.Everywhere P m.toValue) :
      Value.Everywhere P (.sequence (Member.toValues ms)) := by
    rw [Value.everywhere_sequence, Member.toValues_eq]
    exact ⟨sequence _, List.forall_mem_map.2 hms⟩
  refine wellFormed_induction (P := fun d ↦ Value.Everywhere P d.toValue)
    (Q := fun m ↦ Value.Everywhere P m.toValue) ?simple ?list ?tuple ?fields ?keyed ?union
    ?named ?inline h
  case simple =>
    intro s
    cases s with
    | none => exact Value.everywhere_null.2 null
    | some s => exact hentry (hstring s)
  case list => exact fun m hm ↦ hentry hm
  case tuple => exact fun ms hms ↦ hentry (hitems hms)
  case fields =>
    intro fs hdistinct hfs
    apply hentry
    rw [Value.everywhere_mapping, Member.toEntries_eq]
    refine ⟨mapping _ (List.forall_mem_map.2 fun f _ ↦ ⟨f.1, rfl⟩) ?_,
      List.forall_mem_map.2 fun f hf ↦ ⟨hstring f.1, hfs f hf⟩⟩
    rw [Entries.Distinct, List.pairwise_map]
    exact (List.pairwise_map.1 hdistinct).imp fun hne ↦ beq_eq_false_iff_ne.2 hne
  case keyed =>
    intro k v hk hv
    exact hentry (hitems (List.forall_mem_cons.2 ⟨hk, List.forall_mem_singleton.2 hv⟩))
  case union => exact fun ms _ hms ↦ hentry (hitems hms)
  case named => exact hstring
  case inline => exact fun d _ hd ↦ hd

/-- Nothing that is written of a definition is tagged. -/
theorem toValue_tagFree (h : d.isWellFormed = true) : d.toValue.TagFree :=
  everywhere_toValue rfl (fun _ ↦ rfl) (fun _ ↦ rfl) (fun _ _ _ ↦ rfl) h

/-- No key comes twice in what is written of a definition. -/
theorem toValue_keysDistinct (h : d.isWellFormed = true) : d.toValue.KeysDistinct :=
  everywhere_toValue .nil (fun _ ↦ .nil) (fun _ ↦ .nil) (fun _ _ hd ↦ hd) h

/-! ## What is read -/

theorem eq_map_of_forall₂ {α β : Type} {R : α → β → Prop} {f : β → α} {as : List α} {bs : List β}
    (h : List.Forall₂ R as bs) (hR : ∀ a ∈ as, ∀ b ∈ bs, R a b → a = f b) : as = bs.map f := by
  have heq : List.Forall₂ (fun a b ↦ a = b) as (bs.map f) :=
    List.forall₂_map_right_iff.2 (Ty.forall₂_imp_of_mem h hR)
  rwa [List.forall₂_eq_eq_eq] at heq

/-- A definition is read from nothing but what is written of it, or from the empty mapping. -/
theorem eq_toValue_of_ofValue (hv : v.HasPlainKeys) (h : ofValue name v = .ok d) :
    v = d.toValue ∨ v = .mapping [] ∧ d = .simple none := by
  induction d using members_induction generalizing name v with
  | h d ih =>
      have hmember {w : Value} (hw : w.HasPlainKeys) {m : Member} (hm : m ∈ d.members)
          (hread : Member.ofValue name w = .ok m) : w = m.toValue := by
        cases m with
        | named n => exact Member.ofValue_eq_named_iff.1 hread
        | inline e =>
            obtain ⟨he, hsimple⟩ := Member.ofValue_inline hread
            rcases ih e hm hw he with heq | ⟨-, rfl⟩
            · exact heq
            · cases hsimple
      rcases ofValue_cases h with ⟨rfl, rfl⟩ | ⟨es, rfl, hread⟩
      · exact .inl rfl
      have hes {o : Outline} (ho : outline name es = .ok o) :
          Value.mapping es = .mapping o.source?.toList :=
        congrArg _ (eq_toList_of_outline hv ho)
      have hin {o : Outline} {w : Value} (ho : outline name es = .ok o)
          (hw : o.content = some w) : w.HasPlainKeys := hv.within (within_of_outline ho hw)
      have hitems {vs : List Value} {ms : List Member} (hvs : (Value.sequence vs).HasPlainKeys)
          (hms : ms ⊆ d.members)
          (hread : List.Forall₂ (fun v m ↦ Member.ofValue name v = .ok m) vs ms) :
          vs = Member.toValues ms := by
        rw [Member.toValues_eq]
        exact eq_map_of_forall₂ hread fun w hw m hm ↦ hmember (hvs.item hw) (hms hm)
      cases d with
      | simple s =>
          cases s with
          | none => exact .inr ⟨hes hread, rfl⟩
          | some s => exact .inl (hes hread)
      | list m =>
          obtain ⟨w, ho, hw⟩ := hread
          obtain rfl := hmember (hin ho rfl) List.mem_cons_self hw
          exact .inl (hes ho)
      | tuple ms =>
          obtain ⟨vs, ho, hvs⟩ := hread
          obtain rfl := hitems (hin ho rfl) (List.Subset.refl ms) hvs
          exact .inl (hes ho)
      | fields fs =>
          obtain ⟨gs, ho, hgs⟩ := hread
          have hplain := hin ho rfl
          obtain rfl : gs = Member.toEntries fs := by
            rw [Member.toEntries_eq]
            refine eq_map_of_forall₂ hgs fun g hg f hf ⟨ht, hw⟩ ↦ Prod.ext ?_ ?_
            · exact Value.eq_string_of_text? (hplain.untagged.here g hg) ht
            · exact hmember (hplain.value hg) (List.mem_map_of_mem hf) hw
          exact .inl (hes ho)
      | keyed k u =>
          obtain ⟨x, y, ho, hx, hy⟩ := hread
          have hy' : y ∈ [x, y] := List.mem_cons_of_mem x List.mem_cons_self
          have hu : u ∈ [k, u] := List.mem_cons_of_mem k List.mem_cons_self
          obtain rfl := hmember ((hin ho rfl).item List.mem_cons_self) List.mem_cons_self hx
          obtain rfl := hmember ((hin ho rfl).item hy') hu hy
          exact .inl (hes ho)
      | union ms =>
          obtain ⟨-, vs, ho, hvs⟩ := hread
          obtain rfl := hitems (hin ho rfl) (List.Subset.refl ms) hvs
          exact .inl (hes ho)

/-- A value without tags, whose keys are distinct as they are in every document, is read as a
definition exactly if it is what is written of it, entry by entry, and the definition can be written.
The empty mapping is read besides, as a simple type without super-type.  What is written of a
definition is such a value. -/
theorem ofValue_eq_ok_iff_toValue (name : Option String) (d : Definition) :
    (d.isWellFormed = true → d.toValue.TagFree ∧ d.toValue.KeysDistinct) ∧
      ∀ v : Value, v.TagFree → v.KeysDistinct →
        (ofValue name v = .ok d ↔
          d.isWellFormed = true ∧ v = d.toValue ∨ v = .mapping [] ∧ d = .simple none) := by
  refine ⟨fun h ↦ ⟨toValue_tagFree h, toValue_keysDistinct h⟩, fun v htag hdistinct ↦ ?_⟩
  have hplain : v.HasPlainKeys := ⟨hdistinct, htag.keysUntagged⟩
  constructor
  · intro h
    have hwf : d.isWellFormed = true :=
      isWellFormed_of_namesDistinct (fun u hu ↦ (hplain.within hu).namesDistinct) h
    exact (eq_toValue_of_ofValue hplain h).imp_left fun hv ↦ ⟨hwf, hv⟩
  · rintro (⟨hwf, rfl⟩ | ⟨rfl, rfl⟩)
    · exact ofValue_toValue hwf name
    · rw [ofValue]
      rfl

/-- A record with a table of numbers or lists of numbers, and with a pair. -/
def catalogue : Definition :=
  .fields [("title", .named "string"),
    ("scores", .inline (.keyed (.named "string")
      (.inline (.union [.named "number", .inline (.list (.named "number"))])))),
    ("range", .inline (.tuple [.named "number", .named "number"]))]

/-- What is written of `catalogue`. -/
def catalogueValue : Value :=
  .mapping [(.string "mapping", .mapping [
    (.string "title", .string "string"),
    (.string "scores", .mapping [(.string "mapping", .sequence [.string "string",
      .mapping [(.string "union", .sequence [.string "number",
        .mapping [(.string "list", .string "number")]])]])]),
    (.string "range", .mapping [(.string "tuple",
      .sequence [.string "number", .string "number"])])])]

theorem catalogue_read : catalogueValue.TagFree ∧ catalogueValue.KeysDistinct ∧
    ofValue (some "Catalogue") catalogueValue = .ok catalogue := by
  have hwf : catalogue.isWellFormed = true := by decide
  obtain ⟨hplain, hread⟩ := ofValue_eq_ok_iff_toValue (some "Catalogue") catalogue
  have htag : catalogueValue.TagFree := (hplain hwf).1
  have hdistinct : catalogueValue.KeysDistinct := (hplain hwf).2
  exact ⟨htag, hdistinct, (hread catalogueValue htag hdistinct).2 (.inl ⟨hwf, rfl⟩)⟩

end Definition
end LabPlan
