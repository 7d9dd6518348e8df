import LabPlan.Proofs.Types.Rules
import LabPlan.Types.Accept

/-! # Subtypes have fewer values

In a family, whatever a type takes is taken by the types above it.  Each rule of subtyping keeps
values; two of them need more than their premises.  A simple type below a built-in one takes what
the built-in one takes, which is less than what its super-type takes.  And a mapping with as many
entries as a record has fields has no entries but those. -/

namespace LabPlan

/-- A built-in type takes less than its super-type. -/
theorem Builtin.accepts_super {b c : Builtin} {v : Value} (h : b.super? = some c)
    (hv : b.accepts v = true) : c.accepts v = true := by
  cases b with
  | any => cases h
  | integer =>
      obtain rfl := Option.some.inj h
      simp only [accepts, Value.isInteger, Value.isNumber] at hv ⊢
      cases hu : v.untagged with
      | int i => rfl
      | _ => simp [hu] at hv
  | number | boolean | string | null =>
      obtain rfl := Option.some.inj h
      rfl

namespace Ty

theorem super?_ofBuiltin (b : Builtin) : (ofBuiltin b).super? = b.super?.map ofBuiltin := by
  cases b <;> rfl

theorem accepts_of_nearestBuiltin? {t : Ty} {b : Builtin} {v : Value} (ht : t.isSimple = true)
    (h : t.nearestBuiltin? = some b) : t.accepts v = b.accepts v := by
  match t with
  | simple n s => rw [accepts, h]

theorem nearestBuiltin?_ofBuiltin (b : Builtin) : (ofBuiltin b).nearestBuiltin? = some b := by
  cases b <;> rfl

@[simp] theorem accepts_ofBuiltin (b : Builtin) (v : Value) :
    (ofBuiltin b).accepts v = b.accepts v :=
  accepts_of_nearestBuiltin? (by cases b <;> rfl) (nearestBuiltin?_ofBuiltin b)

theorem accepts_super {F : Ty → Prop} (hF : Family F) {n : Option String} {t : Ty} {v : Value}
    (hs : F (simple n (some t))) (hv : (simple n (some t)).accepts v = true) :
    t.accepts v = true := by
  cases hb : (simple n (some t)).builtin? with
  | some b =>
      -- The type is built in, and so is its super-type.
      have hn : (simple n (some t)).name = some b.name := by
        match n with
        | some n => exact congrArg some (Builtin.name_of_ofName? hb)
      have he := hF.builtin hs hn
      have hsuper : b.super?.map ofBuiltin = some t := by
        rw [← super?_ofBuiltin, ← he]
        rfl
      obtain ⟨c, hc, rfl⟩ := Option.map_eq_some_iff.1 hsuper
      rw [he, accepts_ofBuiltin] at hv
      rw [accepts_ofBuiltin]
      exact Builtin.accepts_super hc hv
  | none =>
      have hnear : (simple n (some t)).nearestBuiltin? = t.nearestBuiltin? := by
        rw [nearestBuiltin?, ancestors_simple_some, List.findSome?_cons, hb, nearestBuiltin?]
      match t, (hF.sound hs).2 t rfl with
      | simple m u, _ =>
          rw [accepts, hnear] at hv
          rwa [accepts]

/-! ## Structures -/

theorem accepts_list_iff {n : Option String} {t : Ty} {v : Value} :
    (list n t).accepts v = true ↔ ∃ vs, v.items? = some vs ∧ ∀ w ∈ vs, t.accepts w = true := by
  rw [accepts]
  cases v.items? with
  | none => simp
  | some vs => simp

theorem accepts_tuple_iff {n : Option String} {ts : List Ty} {v : Value} :
    (tuple n ts).accepts v = true ↔ ∃ vs, v.items? = some vs ∧
      List.Forall₂ (fun t w ↦ t.accepts w = true) ts vs := by
  rw [accepts]
  cases v.items? with
  | none => simp
  | some vs => simp [acceptsEach_eq, ← all_zip_iff]

theorem accepts_fields_iff {n : Option String} {fs : List (String × Ty)} {v : Value} :
    (fields n fs).accepts v = true ↔ ∃ es, v.entries? = some es ∧ es.length = fs.length ∧
      ∀ f ∈ fs, ∃ w, Entries.lookup f.1 es = some w ∧ f.2.accepts w = true := by
  rw [accepts]
  cases v.entries? with
  | none => simp
  | some es => simp [acceptsFields_eq, Option.any_eq_true]

theorem accepts_keyed_iff {n : Option String} {k t : Ty} {v : Value} :
    (keyed n k t).accepts v = true ↔ ∃ es, v.entries? = some es ∧
      ∀ e ∈ es, k.accepts e.1 = true ∧ t.accepts e.2 = true := by
  rw [accepts]
  cases v.entries? with
  | none => simp
  | some es => simp

/-- When every field is found and there are no more entries than fields, every entry is one of the
fields. -/
theorem exists_field_of_mem {fs : List (String × Ty)} {es : Entries}
    (hn : (fs.map Prod.fst).Nodup) (hl : es.length = fs.length)
    (h : ∀ f ∈ fs, ∃ w, Entries.lookup f.1 es = some w ∧ f.2.accepts w = true)
    {e : Value × Value} (he : e ∈ es) :
    ∃ f ∈ fs, e.1 = .string f.1 ∧ f.2.accepts e.2 = true := by
  let names := fs.map fun f ↦ Value.string f.1
  have hnodup : names.Nodup := by
    have := hn.map (f := Value.string) fun a b hab ↦ Value.string.inj hab
    rwa [List.map_map] at this
  have hsub : names ⊆ es.map Prod.fst := by
    intro k hk
    obtain ⟨f, hf, rfl⟩ := List.mem_map.1 hk
    obtain ⟨w, hw, -⟩ := h f hf
    exact List.mem_map.2 ⟨_, Entries.mem_of_lookup hw, rfl⟩
  have hperm := (hnodup.subperm hsub).perm_of_length_le (by simp [names, hl])
  obtain ⟨f, hf, hk⟩ := List.mem_map.1 (hperm.mem_iff.2 (List.mem_map_of_mem he))
  obtain ⟨w, hw, hfw⟩ := h f hf
  have hew : e = (.string f.1, w) :=
    List.inj_on_of_nodup_map (hperm.nodup_iff.1 hnodup) he (Entries.mem_of_lookup hw) hk.symm
  exact ⟨f, hf, hk.symm, by rwa [hew]⟩

/-! ## The rules keep values -/

theorem accepts_of_sub {F : Ty → Prop} (hF : Family F) {s t : Ty} {v : Value} (hs : F s)
    (ht : F t) (h : Sub F s t) (hv : s.accepts v = true) : t.accepts v = true := by
  induction h generalizing v with
  | refl t => exact hv
  | trans hm _ _ ih ih' => exact ih' hm ht (ih hs hm hv)
  | any t => exact accepts_ofBuiltin .any v
  | super n t => exact accepts_super hF hs hv
  | member n hm => exact accepts_union_iff.2 ⟨_, hm, hv⟩
  | union n _ ih =>
      obtain ⟨m, hm, hmv⟩ := accepts_union_iff.1 hv
      exact ih m hm (hF.parts hs hm) ht hmv
  | list n m _ ih =>
      obtain ⟨vs, hi, hvs⟩ := accepts_list_iff.1 hv
      refine accepts_list_iff.2 ⟨vs, hi, fun w hw ↦ ?_⟩
      exact ih (hF.parts hs List.mem_cons_self) (hF.parts ht List.mem_cons_self) (hvs w hw)
  | @tuple ss ts n m hl _ ih =>
      obtain ⟨vs, hi, hvs⟩ := accepts_tuple_iff.1 hv
      have hkeep : List.Forall₂ (fun t s ↦ ∀ w, s.accepts w = true → t.accepts w = true) ts ss := by
        refine List.Forall₂.flip (List.forall₂_iff_zip.2 ⟨hl, fun hp w ↦ ?_⟩)
        have hmem := List.of_mem_zip hp
        exact ih _ hp (hF.parts hs hmem.1) (hF.parts ht hmem.2)
      refine accepts_tuple_iff.2 ⟨vs, hi, ?_⟩
      exact forall₂_trans_of_mem hkeep hvs fun _ _ _ _ _ _ hk hw ↦ hk _ hw
  | fields n m hn _ ih =>
      obtain ⟨es, he, hl, hf⟩ := accepts_fields_iff.1 hv
      have hperm := (List.perm_ext_iff_of_nodup (hF.sound hs) (hF.sound ht)).2 hn
      have hlen := hperm.length_eq
      rw [List.length_map, List.length_map] at hlen
      refine accepts_fields_iff.2 ⟨es, he, hl.trans hlen, fun g hg ↦ ?_⟩
      obtain ⟨f, hfm, hname⟩ := List.mem_map.1 ((hn g.1).2 (List.mem_map_of_mem hg))
      obtain ⟨w, hw, hfw⟩ := hf f hfm
      exact ⟨w, hname ▸ hw, ih f hfm g hg hname (hF.parts hs (mem_parts_fields hfm))
        (hF.parts ht (mem_parts_fields hg)) hfw⟩
  | keyed n m k _ ih =>
      obtain ⟨es, he, hes⟩ := accepts_keyed_iff.1 hv
      refine accepts_keyed_iff.2 ⟨es, he, fun e hem ↦ ⟨(hes e hem).1, ?_⟩⟩
      exact ih (hF.parts hs (mem_parts_value n k _)) (hF.parts ht (mem_parts_value m k _))
        (hes e hem).2
  | record n m _ ih =>
      obtain ⟨es, he, hl, hf⟩ := accepts_fields_iff.1 hv
      refine accepts_keyed_iff.2 ⟨es, he, fun e hem ↦ ?_⟩
      obtain ⟨f, hfm, hk, hfe⟩ := exists_field_of_mem (hF.sound hs) hl hf hem
      refine ⟨?_, ih f hfm (hF.parts hs (mem_parts_fields hfm))
        (hF.parts ht (mem_parts_value m _ _)) hfe⟩
      rw [hk, accepts_ofBuiltin]
      rfl

/-- In a family, a value of a subtype is a value of the type. -/
theorem accepts_of_isSubtype {F : Ty → Prop} (hF : Family F) {s t : Ty} (hs : F s) (ht : F t)
    (h : s.isSubtype t = true) (v : Value) (hv : s.accepts v = true) : t.accepts v = true :=
  accepts_of_sub hF hs ht (sub_of_isSubtype hF hs ht h) hv

/-- A tagged mapping whose entries are not in the order of the fields. -/
theorem maybeTable_accepts : point.isSubtype maybeTable = true ∧
    maybeTable.accepts (.tagged "p" (.mapping [(.string "y", .int 2), (.string "x", .int 1)])) =
      true := by
  have hp : IsSample point := .inr (.inl rfl)
  have hm : IsSample maybeTable := .inr (.inr (.inr rfl))
  have h : point.isSubtype maybeTable = true := by decide +kernel
  exact ⟨h, accepts_of_isSubtype family_isSample hp hm h _ (by decide)⟩

end Ty

end LabPlan
