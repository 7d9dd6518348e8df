import LabPlan.Proofs.Types.Resolution

/-! # The registry of declarations

Declarations have a registry exactly if they have a meaning, and the registry gives it to them. -/

namespace LabPlan

namespace Registry

variable {es : Entries} {decls : Declarations} {known known' : Known}

/-! ## Reading declarations -/

theorem declarations_eq_ok_iff : declarations es = .ok decls ↔ Declares es decls := by
  constructor
  · intro h
    induction es generalizing decls with
    | nil =>
        obtain rfl := Except.ok.inj h
        exact .nil
    | cons e es ih =>
        rw [declarations.eq_def] at h
        split at h
        · rename_i heq
          cases heq
        · rename_i n v es' heq
          obtain ⟨rfl, rfl⟩ := List.cons.inj heq
          split at h
          · cases h
          · rename_i hb
            split at h
            · cases h
            · rename_i d hd
              obtain ⟨ds, hds, rfl⟩ := map_eq_ok_iff.1 h
              exact .cons (by simpa using hb) hd (ih hds)
        · split at h
          · cases h
          · split at h
            · cases h
            · cases h
        · cases h
  · intro h
    induction h with
    | nil => rfl
    | cons hb hd _ ih => simp [declarations, hb, hd, ih, Except.map]

theorem Declares.isBuiltinName_eq_false (h : Declares es decls) {n : String}
    (hn : IsDeclared decls n) : isBuiltinName n = false := by
  induction h with
  | nil => exact absurd hn List.not_mem_nil
  | cons hb _ _ ih =>
      rcases List.mem_cons.1 hn with rfl | hn
      · exact hb
      · exact ih hn

/-! ## Resolving all names -/

theorem resolveAll_sound {names : List String} (hf : Founded decls known)
    (h : resolveAll decls known names = .ok known') :
    Founded decls known' ∧ Extends known known' ∧ ∀ n ∈ names, known'.lookup n ≠ none := by
  induction names generalizing known with
  | nil =>
      obtain rfl := Except.ok.inj h
      exact ⟨hf, fun _ _ h ↦ h, List.forall_mem_nil _⟩
  | cons name names ih =>
      rw [resolveAll] at h
      split at h
      · cases h
      · rename_i t k hk
        have hs : Sound decls [] known := ⟨hf, List.forall_mem_nil _⟩
        obtain ⟨hl, ht⟩ := (resolvesNames decls [] name).sound hs hk
        obtain ⟨hf', hle, hall⟩ := ih hl.sound.founded h
        refine ⟨hf', hl.all.trans hle, List.forall_mem_cons.2 ⟨?_, hall⟩⟩
        rw [hle name t ht]
        exact Option.some_ne_none t

theorem resolveAll_complete (hm : IsMeaningful decls) {names : List String}
    (hf : Founded decls known) (hnames : ∀ n ∈ names, IsDeclared decls n) :
    ∃ known', resolveAll decls known names = .ok known' := by
  induction names generalizing known with
  | nil => exact ⟨known, rfl⟩
  | cons name names ih =>
      obtain ⟨hname, hnames⟩ := List.forall_mem_cons.1 hnames
      have hs : Sound decls [] known := ⟨hf, List.forall_mem_nil _⟩
      have hr : IsReady decls [] [name] [] [] :=
        ⟨List.forall_mem_singleton.2 (.inr ⟨hname, List.forall_mem_nil _⟩), List.forall_mem_nil _,
          List.forall_mem_nil _⟩
      obtain ⟨⟨t, k⟩, hk⟩ := (resolvesNames decls [] name).complete hm hs hr
      obtain ⟨hl, -⟩ := (resolvesNames decls [] name).sound hs hk
      obtain ⟨k', hk'⟩ := ih hl.sound.founded hnames
      refine ⟨k', ?_⟩
      rw [resolveAll, hk]
      exact hk'

/-! ## Registries -/

theorem ofEntries_eq_ok_iff {r : Registry} : ofEntries es = .ok r ↔ ∃ decls, Declares es decls ∧
    resolveAll decls builtinTypes (decls.map Prod.fst) = .ok r.types := by
  rw [ofEntries]
  cases hd : declarations es with
  | error e =>
      constructor
      · intro h
        cases h
      · rintro ⟨decls, h, -⟩
        cases hd.symm.trans (declarations_eq_ok_iff.2 h)
  | ok decls =>
      constructor
      · intro h
        obtain ⟨known, hk, rfl⟩ := map_eq_ok_iff.1 h
        exact ⟨decls, declarations_eq_ok_iff.1 hd, hk⟩
      · rintro ⟨ds, h, hk⟩
        obtain rfl := Except.ok.inj (hd.symm.trans (declarations_eq_ok_iff.2 h))
        exact map_eq_ok_iff.2 ⟨r.types, hk, rfl⟩

/-- A mapping of declarations has a registry exactly if what it declares has a meaning, and then the
registry gives every name its own. -/
theorem ofEntries_isOk_iff (es : Entries) :
    ((∃ r, ofEntries es = .ok r) ↔ ∃ decls, Declares es decls ∧ IsMeaningful decls) ∧
    ∀ r, ofEntries es = .ok r → ∃ decls, Declares es decls ∧ IsRegistryOf decls r := by
  have hsound {r : Registry} (h : ofEntries es = .ok r) :
      ∃ decls, Declares es decls ∧ IsMeaningful decls ∧ IsRegistryOf decls r := by
    obtain ⟨decls, hdecls, hr⟩ := ofEntries_eq_ok_iff.1 h
    have hd (n : String) (hn : IsDeclared decls n) := hdecls.isBuiltinName_eq_false hn
    obtain ⟨hf, -, hall⟩ := resolveAll_sound .builtin hr
    exact ⟨decls, hdecls, Founded.isMeaningful hd hf hall, Founded.isRegistryOf hd hf hall⟩
  refine ⟨⟨?_, ?_⟩, ?_⟩
  · rintro ⟨r, h⟩
    obtain ⟨decls, hdecls, hm, -⟩ := hsound h
    exact ⟨decls, hdecls, hm⟩
  · rintro ⟨decls, hdecls, hm⟩
    obtain ⟨known, hk⟩ := resolveAll_complete hm .builtin fun n hn ↦ hn
    exact ⟨⟨known⟩, ofEntries_eq_ok_iff.2 ⟨decls, hdecls, hk⟩⟩
  · intro r h
    obtain ⟨decls, hdecls, -, hr⟩ := hsound h
    exact ⟨decls, hdecls, hr⟩

end Registry

end LabPlan
